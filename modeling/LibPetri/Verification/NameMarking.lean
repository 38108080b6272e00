import LibPetri.Basis.OrderedMap
import LibPetri.Core.Net

/-! # Name markings

The partition of the correlation tokens into name symbols, and the key that forgets which symbol is which.
-/

namespace LibPetri.Verification

open LibPetri.Basis LibPetri.Core

/-- An opaque name. -/
abbrev Sym := Nat

/-- How often each symbol stands in each place.  A place without symbols and a symbol without tokens have no
entry. -/
structure NameMarking where
  perPlace : OrderedMap PlaceName (OrderedMap Sym Nat)
  occupied : ∀ e ∈ perPlace.entries, e.2.size ≠ 0
  positive : ∀ e ∈ perPlace.entries, ∀ c ∈ e.2.entries, 0 < c.2

namespace NameMarking

theorem positive_set {syms : OrderedMap Sym Nat} (positive : ∀ c ∈ syms.entries, 0 < c.2) (sym : Sym)
    {count : Nat} (pos : 0 < count) : ∀ c ∈ (syms.set sym count).entries, 0 < c.2 := by
  intro c mem
  have found := (OrderedMap.get?_eq_some_iff _ (k := c.1) (v := c.2)).mpr mem
  rw [OrderedMap.get?_set] at found
  split at found
  · exact Option.some.inj found ▸ pos
  · exact positive c ((OrderedMap.get?_eq_some_iff _).mp found)

theorem size_set_ne_zero (syms : OrderedMap Sym Nat) (sym : Sym) (count : Nat) :
    (syms.set sym count).size ≠ 0 := by
  intro empty
  have := (OrderedMap.size_eq_zero_iff _).mp empty sym
  simp at this

/-- The symbols of a place, none where it has no entry. -/
def symbolCounts (m : NameMarking) (place : PlaceName) : OrderedMap Sym Nat :=
  (m.perPlace.get? place).getD OrderedMap.empty

theorem positive_symbolCounts (m : NameMarking) (place : PlaceName) :
    ∀ c ∈ (m.symbolCounts place).entries, 0 < c.2 := by
  unfold symbolCounts
  cases found : m.perPlace.get? place with
  | none => exact fun _ mem => (by cases mem)
  | some syms => exact m.positive _ ((OrderedMap.get?_eq_some_iff _).mp found)

def empty : NameMarking := ⟨OrderedMap.empty, fun _ mem => (by cases mem), fun _ mem => (by cases mem)⟩

/-- Puts the symbols of a place. -/
def setPlace (m : NameMarking) (place : PlaceName) (syms : OrderedMap Sym Nat) (some_ : syms.size ≠ 0)
    (positive : ∀ c ∈ syms.entries, 0 < c.2) : NameMarking where
  perPlace := m.perPlace.set place syms
  occupied e mem := by
    have found := (OrderedMap.get?_eq_some_iff _ (k := e.1) (v := e.2)).mpr mem
    rw [OrderedMap.get?_set] at found
    split at found
    · exact Option.some.inj found ▸ some_
    · exact m.occupied e ((OrderedMap.get?_eq_some_iff _).mp found)
  positive e mem := by
    have found := (OrderedMap.get?_eq_some_iff _ (k := e.1) (v := e.2)).mpr mem
    rw [OrderedMap.get?_set] at found
    split at found
    · exact Option.some.inj found ▸ positive
    · exact m.positive e ((OrderedMap.get?_eq_some_iff _).mp found)

def deletePlace (m : NameMarking) (place : PlaceName) : NameMarking where
  perPlace := m.perPlace.delete place
  occupied e mem := m.occupied e (List.mem_of_mem_filter mem)
  positive e mem := m.positive e (List.mem_of_mem_filter mem)

def countOf (m : NameMarking) (place : PlaceName) (sym : Sym) : Nat :=
  ((m.symbolCounts place).get? sym).getD 0

def add (m : NameMarking) (place : PlaceName) (sym : Sym) (count : Nat) : NameMarking :=
  if pos : 0 < count then
    m.setPlace place ((m.symbolCounts place).set sym (m.countOf place sym + count))
      (size_set_ne_zero _ _ _) (positive_set (m.positive_symbolCounts place) sym (Nat.add_pos_right _ pos))
  else m

/-- None where there are fewer of the symbol in the place. -/
def remove (m : NameMarking) (place : PlaceName) (sym : Sym) (count : Nat) : Option NameMarking :=
  match (m.symbolCounts place).get? sym with
  | none => none
  | some have_ =>
    if have_ < count then none
    else if left : have_ - count = 0 then
      let syms := (m.symbolCounts place).delete sym
      if others : syms.size = 0 then some (m.deletePlace place)
      else some (m.setPlace place syms others
        fun c mem => m.positive_symbolCounts place c (List.mem_of_mem_filter mem))
    else some (m.setPlace place ((m.symbolCounts place).set sym (have_ - count))
      (size_set_ne_zero _ _ _) (positive_set (m.positive_symbolCounts place) sym (Nat.pos_of_ne_zero left)))

def symbolsIn (m : NameMarking) (place : PlaceName) : List Sym := (m.symbolCounts place).keys

/-- The places together hold at most one symbol. -/
def aligned (m : NameMarking) (places : List PlaceName) : Bool :=
  match places.flatMap m.symbolsIn with
  | [] => true
  | first :: others => others.all fun s => s = first

def liveSymbols (m : NameMarking) : List Sym := (m.perPlace.values.flatMap OrderedMap.keys).eraseDups

/-! ## The canonical key -/

/-- The difference at the first place where two arrays differ, else that of their lengths. -/
def compareNumberArrays : List Nat → List Nat → Int
  | a :: as, b :: bs => if a ≠ b then (a : Int) - b else compareNumberArrays as bs
  | as, bs => (as.length : Int) - bs.length

section Key

variable (m : NameMarking) (colouredOrder : List PlaceName)

/-- The counts of a symbol over the coloured places. -/
def signature (s : Sym) : List Nat := colouredOrder.map fun p => m.countOf p s

/-- The live symbols, by signature and for equal ones by their number. -/
def ranked : List (List Nat × Sym) :=
  (m.liveSymbols.map fun s => (m.signature colouredOrder s, s)).insertionSort fun a b =>
    (let c := compareNumberArrays a.1 b.1
    if c ≠ 0 then c else (a.2 : Int) - b.2) ≤ 0

def rankOf (s : Sym) : Nat := ((m.ranked colouredOrder).map Prod.snd).idxOf s

/-- The ranks in a place with their counts. -/
def rankedEntries (p : PlaceName) : List (Nat × Nat) :=
  ((m.symbolCounts p).entries.map fun (s, c) => (m.rankOf colouredOrder s, c)).insertionSort fun a b =>
    (if a.1 ≠ b.1 then (a.1 : Int) - b.1 else (a.2 : Int) - b.2) ≤ 0

/-- `p:{rxc,…}`. -/
def partText (p : PlaceName) (entries : List (Nat × Nat)) : String :=
  p ++ ":\x7b" ++ ",".intercalate (entries.map fun (r, c) => s!"{r}x{c}") ++ "\x7d"

/-- The key of a marking up to a renaming of its symbols. -/
def canonicalKey : String :=
  "#".intercalate (colouredOrder.map fun p => partText p (m.rankedEntries colouredOrder p))

end Key

/-! ## Counts -/

theorem countOf_eq_some {m : NameMarking} {place : PlaceName} {sym : Sym} {count : Nat} :
    (m.symbolCounts place).get? sym = some count ↔ m.countOf place sym = count ∧ 0 < count := by
  unfold countOf
  constructor
  · intro found
    refine ⟨by rw [found]; rfl, ?_⟩
    exact m.positive_symbolCounts place _ ((OrderedMap.get?_eq_some_iff _).mp found)
  · rintro ⟨rfl, pos⟩
    cases found : (m.symbolCounts place).get? sym with
    | none => simp [found] at pos
    | some n => rfl

theorem mem_symbolCounts {m : NameMarking} {place : PlaceName} {sym : Sym} {count : Nat} :
    (sym, count) ∈ (m.symbolCounts place).entries ↔ m.countOf place sym = count ∧ 0 < count := by
  rw [← OrderedMap.get?_eq_some_iff, countOf_eq_some]

theorem mem_symbolsIn {m : NameMarking} {place : PlaceName} {sym : Sym} :
    sym ∈ m.symbolsIn place ↔ 0 < m.countOf place sym := by
  constructor
  · intro mem
    obtain ⟨⟨s, c⟩, entry, rfl⟩ := List.mem_map.mp mem
    obtain ⟨rfl, pos⟩ := mem_symbolCounts.mp entry
    exact pos
  · exact fun pos => List.mem_map.mpr ⟨(sym, _), mem_symbolCounts.mpr ⟨rfl, pos⟩, rfl⟩

theorem mem_liveSymbols {m : NameMarking} {sym : Sym} :
    sym ∈ m.liveSymbols ↔ ∃ place, 0 < m.countOf place sym := by
  rw [liveSymbols, List.mem_eraseDups, List.mem_flatMap]
  constructor
  · rintro ⟨syms, listed, mem⟩
    obtain ⟨⟨place, syms⟩, entry, rfl⟩ := List.mem_map.mp listed
    have found := (OrderedMap.get?_eq_some_iff _).mpr entry
    refine ⟨place, mem_symbolsIn.mp ?_⟩
    rwa [symbolsIn, symbolCounts, found]
  · rintro ⟨place, pos⟩
    have mem := mem_symbolsIn.mpr pos
    unfold symbolsIn symbolCounts at mem
    cases found : m.perPlace.get? place with
    | none =>
      rw [found] at mem
      cases mem
    | some syms =>
      rw [found] at mem
      exact ⟨syms, List.mem_map_of_mem ((OrderedMap.get?_eq_some_iff _).mp found), mem⟩

@[simp] theorem countOf_add (m : NameMarking) (place p : PlaceName) (sym s : Sym) (count : Nat) :
    (m.add place sym count).countOf p s =
      m.countOf p s + if p = place ∧ s = sym then count else 0 := by
  unfold add
  split
  next pos =>
    unfold countOf symbolCounts setPlace
    dsimp only
    rw [OrderedMap.get?_set]
    by_cases here : p = place
    · subst here
      rw [if_pos rfl, Option.getD_some, OrderedMap.get?_set]
      by_cases same : s = sym
      · subst same
        simp
      · simp [same]
    · simp [here]
  next zero =>
    have : count = 0 := by omega
    simp [this]

theorem remove_eq_none {m : NameMarking} {place : PlaceName} {sym : Sym} {count : Nat} :
    m.remove place sym count = none ↔ m.countOf place sym < count ∨ m.countOf place sym = 0 := by
  unfold remove
  cases found : (m.symbolCounts place).get? sym with
  | none =>
    have : m.countOf place sym = 0 := by rw [countOf, found]; rfl
    simp [this]
  | some n =>
    obtain ⟨same, pos⟩ := countOf_eq_some.mp found
    rw [same]
    dsimp only
    split
    next short => simp [short]
    next enough =>
      have : ¬(n < count ∨ n = 0) := by omega
      split
      · split <;> simp [this]
      · simp [this]

theorem countOf_remove {m m' : NameMarking} {place : PlaceName} {sym : Sym} {count : Nat}
    (removed : m.remove place sym count = some m') (p : PlaceName) (s : Sym) :
    m'.countOf p s = m.countOf p s - if p = place ∧ s = sym then count else 0 := by
  unfold remove at removed
  cases found : (m.symbolCounts place).get? sym with
  | none => simp [found] at removed
  | some n =>
    obtain ⟨same, pos⟩ := countOf_eq_some.mp found
    rw [found] at removed
    dsimp only at removed
    have elsewhere {syms : OrderedMap Sym Nat} {some_ positive}
        (each : ∀ s, (syms.get? s).getD 0 = m.countOf place s - if s = sym then count else 0) :
        (m.setPlace place syms some_ positive).countOf p s =
          m.countOf p s - if p = place ∧ s = sym then count else 0 := by
      by_cases here : p = place
      · subst here
        have := each s
        simpa [countOf, symbolCounts, setPlace] using this
      · simp [countOf, symbolCounts, setPlace, here]
    split at removed
    · cases removed
    next enough =>
      split at removed
      next left =>
        have gone (s : Sym) : (((m.symbolCounts place).delete sym).get? s).getD 0 =
            m.countOf place s - if s = sym then count else 0 := by
          rw [OrderedMap.get?_delete]
          by_cases same' : s = sym
          · subst same'
            rw [if_pos rfl, if_pos rfl, same]
            simp only [Option.getD_none]
            omega
          · rw [if_neg same', if_neg same']
            rfl
        split at removed
        next none_ =>
          obtain rfl := Option.some.inj removed
          by_cases here : p = place
          · subst here
            have zero := gone s
            rw [(OrderedMap.size_eq_zero_iff _).mp none_ s] at zero
            simpa [countOf, symbolCounts, deletePlace] using zero
          · simp [countOf, symbolCounts, deletePlace, here]
        next others =>
          obtain rfl := Option.some.inj removed
          exact elsewhere gone
      next left =>
        obtain rfl := Option.some.inj removed
        refine elsewhere fun s => ?_
        rw [OrderedMap.get?_set]
        by_cases same' : s = sym
        · subst same'
          rw [if_pos rfl, if_pos rfl, same]
          rfl
        · rw [if_neg same', if_neg same']
          rfl

end NameMarking

end LibPetri.Verification
