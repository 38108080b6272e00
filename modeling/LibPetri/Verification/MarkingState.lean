import LibPetri.Basis.Delimited
import LibPetri.Basis.OrderedMap
import LibPetri.Runtime.ExecutorSupport

/-! # Count markings

A snapshot of token counts per place.  A place without tokens has no entry.  The text of a marking
lists its places in code-point order; it is the first half of the key of a state class.
-/

namespace LibPetri.Verification

open LibPetri.Basis LibPetri.Core LibPetri.Runtime

structure MarkingState where
  tokenCounts : OrderedMap PlaceName Nat
  positive : ∀ e ∈ tokenCounts.entries, 0 < e.2
  deriving DecidableEq

namespace MarkingState

/-- The tokens in a place, 0 where it has no entry. -/
def tokens (m : MarkingState) (place : PlaceName) : Nat := (m.tokenCounts.get? place).getD 0

def hasTokens (m : MarkingState) (place : PlaceName) : Bool := 0 < m.tokens place

def hasTokensInAny (m : MarkingState) (places : List PlaceName) : Bool := places.any m.hasTokens

/-- The places with tokens. -/
def placesWithTokens (m : MarkingState) : List PlaceName := m.tokenCounts.keys

def empty : MarkingState := ⟨OrderedMap.empty, fun _ mem => by cases mem⟩

/-- `{name:count, …}`, in code-point order of the names. -/
def toString (m : MarkingState) : String :=
  "\x7b" ++ ", ".intercalate ((sortByName m.tokenCounts.entries).map fun e => s!"{e.1}:{e.2}") ++
    "\x7d"

/-! ## The builder -/

theorem positive_set {m : OrderedMap PlaceName Nat} (positive : ∀ e ∈ m.entries, 0 < e.2)
    (place : PlaceName) {count : Nat} (pos : 0 < count) :
    ∀ e ∈ (m.set place count).entries, 0 < e.2 := by
  intro e mem
  have found := (OrderedMap.get?_eq_some_iff _ (k := e.1) (v := e.2)).mpr mem
  rw [OrderedMap.get?_set] at found
  split at found
  · exact Option.some.inj found ▸ pos
  · exact positive e ((OrderedMap.get?_eq_some_iff _).mp found)

theorem positive_delete {m : OrderedMap PlaceName Nat} (positive : ∀ e ∈ m.entries, 0 < e.2)
    (place : PlaceName) : ∀ e ∈ (m.delete place).entries, 0 < e.2 :=
  fun e mem => positive e (List.mem_of_mem_filter mem)

/-- `builder.tokens(place, count)`. -/
def setTokens (m : MarkingState) (place : PlaceName) (count : Nat) : MarkingState :=
  if pos : 0 < count then ⟨m.tokenCounts.set place count, positive_set m.positive place pos⟩
  else ⟨m.tokenCounts.delete place, positive_delete m.positive place⟩

/-- `builder.addTokens(place, count)`. -/
def addTokens (m : MarkingState) (place : PlaceName) (count : Nat) : MarkingState :=
  if 0 < count then m.setTokens place (m.tokens place + count) else m

/-- `builder.removeTokens(place, count)`, for no more tokens than there are: the builder throws on an
overdraw, and a firing removes only what it has counted (`consumption_le`). -/
def removeTokens (m : MarkingState) (place : PlaceName) (count : Nat) : MarkingState :=
  m.setTokens place (m.tokens place - count)

@[simp] theorem tokens_empty (p : PlaceName) : empty.tokens p = 0 := rfl

@[simp] theorem tokens_setTokens (m : MarkingState) (place p : PlaceName) (count : Nat) :
    (m.setTokens place count).tokens p = if p = place then count else m.tokens p := by
  unfold setTokens tokens
  split
  next pos =>
    rw [OrderedMap.get?_set]
    split <;> rfl
  next zero =>
    rw [OrderedMap.get?_delete]
    split
    · simp only [Option.getD_none]
      omega
    · rfl

@[simp] theorem tokens_addTokens (m : MarkingState) (place p : PlaceName) (count : Nat) :
    (m.addTokens place count).tokens p = m.tokens p + if p = place then count else 0 := by
  unfold addTokens
  split
  · rw [tokens_setTokens]
    split
    next same => rw [same]
    next => rfl
  · split <;> omega

@[simp] theorem tokens_removeTokens (m : MarkingState) (place p : PlaceName) (count : Nat) :
    (m.removeTokens place count).tokens p = m.tokens p - if p = place then count else 0 := by
  rw [removeTokens, tokens_setTokens]
  split
  next same => rw [same]
  next => rfl

theorem hasTokens_iff {m : MarkingState} {p : PlaceName} : m.hasTokens p = true ↔ 0 < m.tokens p :=
  decide_eq_true_iff

/-- The entries are the places with tokens, with their counts. -/
theorem mem_entries_iff {m : MarkingState} {p : PlaceName} {n : Nat} :
    (p, n) ∈ m.tokenCounts.entries ↔ m.tokens p = n ∧ 0 < n := by
  rw [← OrderedMap.get?_eq_some_iff, tokens]
  constructor
  · intro found
    refine ⟨by rw [found]; rfl, ?_⟩
    exact m.positive _ ((OrderedMap.get?_eq_some_iff _).mp found)
  · rintro ⟨rfl, pos⟩
    cases found : m.tokenCounts.get? p with
    | none => simp [found] at pos
    | some n => rfl

theorem mem_placesWithTokens {m : MarkingState} {p : PlaceName} :
    p ∈ m.placesWithTokens ↔ 0 < m.tokens p := by
  constructor
  · intro mem
    obtain ⟨⟨q, n⟩, entry, rfl⟩ := List.mem_map.mp mem
    obtain ⟨rfl, pos⟩ := mem_entries_iff.mp entry
    exact pos
  · intro pos
    exact List.mem_map.mpr ⟨(p, m.tokens p), mem_entries_iff.mpr ⟨rfl, pos⟩, rfl⟩

/-! ## The text of a marking

`render` is what follows the opening brace.  It is read off character by character: a name ends at its
colon, a count ends at the first character that is no digit, and that character tells whether another
entry follows.
-/

/-- The characters of a marking behind its opening brace. -/
def render : List (PlaceName × Nat) → List Char
  | [] => ['}']
  | [e] => e.1.toList ++ ':' :: (Nat.toDigits 10 e.2 ++ ['}'])
  | e :: es => e.1.toList ++ ':' :: (Nat.toDigits 10 e.2 ++ ',' :: ' ' :: render es)

theorem toList_toString (m : MarkingState) :
    m.toString.toList = '{' :: render (sortByName m.tokenCounts.entries) := by
  unfold toString
  generalize sortByName m.tokenCounts.entries = entries
  have entry (e : PlaceName × Nat) :
      (s!"{e.1}:{e.2}").toList = e.1.toList ++ ':' :: Nat.toDigits 10 e.2 := by
    simp [ToString.toString]
  have body : (", ".intercalate (entries.map fun e => s!"{e.1}:{e.2}") ++ "\x7d").toList =
      render entries := by
    induction entries with
    | nil => rfl
    | cons e es ih =>
      cases es with
      | nil =>
        simp only [List.map_cons, List.map_nil, String.intercalate_singleton, String.toList_append,
          entry, render]
        simp
      | cons e' es =>
        simp only [List.map_cons, String.intercalate_cons_cons, String.toList_append, entry,
          render] at ih ⊢
        rw [← ih]
        simp
  rw [String.append_assoc, String.toList_append, body]
  rfl

/-- A name a marking key can tell apart: no comma and no colon. -/
def Separable (place : PlaceName) : Prop := ',' ∉ place.toList ∧ ':' ∉ place.toList

instance (place : PlaceName) : Decidable (Separable place) :=
  inferInstanceAs (Decidable (_ ∧ _))

/-- The text of a marking, with whatever stands behind it, determines the entries. -/
theorem render_inj {es es' : List (PlaceName × Nat)} {rest rest' : List Char}
    (nonempty : es ≠ []) (nonempty' : es' ≠ []) (names : ∀ e ∈ es, Separable e.1)
    (names' : ∀ e ∈ es', Separable e.1) (same : render es ++ rest = render es' ++ rest') :
    es = es' := by
  have digits (n : Nat) : ∀ c ∈ Nat.toDigits 10 n, c.isDigit = true := fun c mem =>
    Nat.isDigit_of_mem_toDigits (by decide) (by decide) mem
  induction es generalizing es' with
  | nil => exact absurd rfl nonempty
  | cons e es ih =>
    cases es' with
    | nil => exact absurd rfl nonempty'
    | cons e' es' =>
      -- what follows the first entry
      have shape (e : PlaceName × Nat) (es : List (PlaceName × Nat)) (rest : List Char) :
          ∃ c tail, render (e :: es) ++ rest =
              e.1.toList ++ ':' :: (Nat.toDigits 10 e.2 ++ c :: tail) ∧ ¬c.isDigit = true ∧
            ((es = [] ∧ c = '}') ∨ (es ≠ [] ∧ c = ',' ∧ tail = ' ' :: (render es ++ rest))) := by
        cases es with
        | nil => exact ⟨'}', rest, by simp [render], by decide, .inl ⟨rfl, rfl⟩⟩
        | cons f es =>
          exact ⟨',', ' ' :: (render (f :: es) ++ rest), by simp [render], by decide,
            .inr ⟨List.cons_ne_nil _ _, rfl, rfl⟩⟩
      obtain ⟨c, tail, split, stop, next⟩ := shape e es rest
      obtain ⟨c', tail', split', stop', next'⟩ := shape e' es' rest'
      rw [split, split'] at same
      obtain ⟨name, -, same⟩ := append_cons_inj (P := fun c => c ≠ ':')
        (fun c mem eq => (names e List.mem_cons_self).2 (eq ▸ mem)) (fun h => h rfl)
        (fun c mem eq => (names' e' List.mem_cons_self).2 (eq ▸ mem)) (fun h => h rfl) same
      obtain ⟨count, rfl, behind⟩ := append_cons_inj (digits e.2) stop (digits e'.2) stop' same
      have head : e = e' := by
        refine Prod.ext (String.toList_inj.mp name) ?_
        rw [← Nat.ofDigitChars_ten_toDigits (n := e.2), count, Nat.ofDigitChars_ten_toDigits]
      rcases next with ⟨rfl, rfl⟩ | ⟨more, rfl, rfl⟩
      · rcases next' with ⟨rfl, -⟩ | ⟨-, stop, -⟩
        · rw [head]
        · cases stop
      · rcases next' with ⟨-, stop⟩ | ⟨more', -, rfl⟩
        · cases stop
        · rw [head, ih more more' (fun f mem => names f (List.mem_cons_of_mem _ mem))
            (fun f mem => names' f (List.mem_cons_of_mem _ mem)) (List.cons.inj behind).2]

/-- A name that no key of an empty marking reads as part of a place: it does not start by closing the
marking. -/
def Unclosing (place : PlaceName) : Prop := ¬['}', '|'] <+: place.toList

/-- A name a class key can tell apart. -/
structure KeySafe (place : PlaceName) : Prop where
  separable : Separable place
  unclosing : Unclosing place

instance (place : PlaceName) : Decidable (KeySafe place) :=
  decidable_of_iff ((',' ∉ place.toList ∧ ':' ∉ place.toList) ∧ ¬['}', '|'] <+: place.toList)
    ⟨fun h => ⟨h.1, h.2⟩, fun h => ⟨h.separable, h.unclosing⟩⟩

theorem mem_sortByName {α : Type} {entries : List (PlaceName × α)} {e : PlaceName × α} :
    e ∈ sortByName entries ↔ e ∈ entries :=
  (List.perm_insertionSort _ entries).mem_iff

theorem render_nil_ne {e : PlaceName × Nat} (safe : Unclosing e.1) (es : List (PlaceName × Nat))
    (rest rest' : List Char) : render [] ++ '|' :: rest ≠ render (e :: es) ++ '|' :: rest' := by
  intro same
  have name : ∃ tail, '}' :: '|' :: rest = e.1.toList ++ ':' :: tail := by
    cases es with
    | nil => exact ⟨_, by simpa [render] using same⟩
    | cons f es => exact ⟨_, by simpa [render] using same⟩
  obtain ⟨tail, same⟩ := name
  unfold Unclosing at safe
  generalize e.1.toList = name at same safe
  rcases name with _ | ⟨a, _ | ⟨b, name⟩⟩
  · simp at same
  · simp at same
  · simp only [List.cons_append, List.cons.injEq] at same
    obtain ⟨rfl, rfl, -⟩ := same
    exact safe ⟨name, rfl⟩

theorem entries_eq_of_render {es es' : List (PlaceName × Nat)} (safe : ∀ e ∈ es, KeySafe e.1)
    (safe' : ∀ e ∈ es', KeySafe e.1) {rest rest' : List Char}
    (same : render es ++ '|' :: rest = render es' ++ '|' :: rest') : es = es' := by
  cases es with
  | nil =>
    cases es' with
    | nil => rfl
    | cons e es' => exact absurd same (render_nil_ne (safe' e List.mem_cons_self).unclosing _ _ _)
  | cons e es =>
    cases es' with
    | nil => exact absurd same.symm (render_nil_ne (safe e List.mem_cons_self).unclosing _ _ _)
    | cons e' es' =>
      exact render_inj (List.cons_ne_nil _ _) (List.cons_ne_nil _ _)
        (fun f mem => (safe f mem).separable) (fun f mem => (safe' f mem).separable) same

theorem tokens_eq_of_entries {m m' : MarkingState}
    (same : sortByName m.tokenCounts.entries = sortByName m'.tokenCounts.entries) :
    m.tokens = m'.tokens := by
  have counts (p : PlaceName) (n : Nat) :
      m.tokens p = n ∧ 0 < n ↔ m'.tokens p = n ∧ 0 < n := by
    rw [← mem_entries_iff, ← mem_entries_iff, ← mem_sortByName, same, mem_sortByName]
  funext p
  have := counts p (m.tokens p)
  have := counts p (m'.tokens p)
  omega

/-- The marking is the first half of a class key: keys with different markings differ. -/
theorem tokens_eq_of_key {m m' : MarkingState} (safe : ∀ p ∈ m.placesWithTokens, KeySafe p)
    (safe' : ∀ p ∈ m'.placesWithTokens, KeySafe p) {rest rest' : String}
    (same : m.toString ++ "|" ++ rest = m'.toString ++ "|" ++ rest') : m.tokens = m'.tokens := by
  have same := congrArg String.toList same
  simp only [String.toList_append, toList_toString, List.cons_append, List.append_assoc,
    List.cons.injEq, true_and] at same
  exact tokens_eq_of_entries (entries_eq_of_render
    (fun e mem => safe e.1 (List.mem_map_of_mem (mem_sortByName.mp mem)))
    (fun e mem => safe' e.1 (List.mem_map_of_mem (mem_sortByName.mp mem))) same)

end MarkingState

end LibPetri.Verification
