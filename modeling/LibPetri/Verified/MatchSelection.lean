import LibPetri.Runtime.MatchEngine

/-! # What binding selection selects

A correlated input is a lane: the names its tokens carry, with their timestamps, in queue order.
`Selects` says which name a match picks over its lanes.  `selectMatchName` picks it from an index
of the lanes.
-/

namespace LibPetri.Verified

open LibPetri.Basis LibPetri.Core LibPetri.Runtime

variable {V N : Type} [LinearOrder N]

/-! ## Lanes -/

/-- The named tokens of a queue.  A token whose projection throws carries no name. -/
def carried (key : KeyFn V N) (tokens : List (Token V)) : List (N × Ms) :=
  tokens.filterMap fun token =>
    match key token.value with
    | .ok (some name) => some (name, token.createdAt)
    | _ => none

/-- The timestamps of `name` in a lane, in queue order. -/
def occurrences (lane : List (N × Ms)) (name : N) : List Ms :=
  (lane.filter fun e => e.1 = name).map Prod.snd

/-- Every input holds `name` as often as it requires. -/
def Satisfied (requireds : List Nat) (lanes : Nat → List (N × Ms)) (name : N) : Prop :=
  ∀ i required, requireds[i]? = some required → required ≤ (occurrences (lanes i) name).length

/-- The oldest timestamp of `name` from input `i` on. -/
def oldestFrom (lanes : Nat → List (N × Ms)) (name : N) : Nat → List Nat → WithTop Ms
  | _, [] => ⊤
  | i, _ :: rest => min (occurrences (lanes i) name).minimum (oldestFrom lanes name (i + 1) rest)

/-- The order of preference: oldest timestamp first, then the name. -/
def rank (requireds : List Nat) (lanes : Nat → List (N × Ms)) (name : N) : ReadyEntry N :=
  toLex (oldestFrom lanes name 0 requireds, name)

/-- The name a match picks over its lanes. -/
def Selects (requireds : List Nat) (lanes : Nat → List (N × Ms)) : Option N → Prop
  | some name => Satisfied requireds lanes name ∧
      ∀ other, Satisfied requireds lanes other → rank requireds lanes name ≤ rank requireds lanes other
  | none => ∀ name, ¬ Satisfied requireds lanes name

theorem Selects.unique {requireds : List Nat} {lanes : Nat → List (N × Ms)} {a b : Option N}
    (ha : Selects requireds lanes a) (hb : Selects requireds lanes b) : a = b := by
  cases a with
  | none =>
    cases b with
    | none => rfl
    | some b => exact absurd hb.1 (ha b)
  | some a =>
    cases b with
    | none => exact absurd ha.1 (hb a)
    | some b =>
      have same := le_antisymm (ha.2 b hb.1) (hb.2 a ha.1)
      have : a = b := congrArg (fun e => (ofLex e).2) same
      rw [this]

theorem occurrences_append (xs ys : List (N × Ms)) (name : N) :
    occurrences (xs ++ ys) name = occurrences xs name ++ occurrences ys name := by
  rw [occurrences, List.filter_append, List.map_append]
  rfl

theorem occurrences_cons (e : N × Ms) (lane : List (N × Ms)) (name : N) :
    occurrences (e :: lane) name =
      if e.1 = name then e.2 :: occurrences lane name else occurrences lane name := by
  by_cases h : e.1 = name
  · rw [occurrences, List.filter_cons_of_pos (by simpa using h), if_pos h]
    rfl
  · rw [occurrences, List.filter_cons_of_neg (by simpa using h), if_neg h]
    rfl

omit [LinearOrder N] in
theorem carried_append (key : KeyFn V N) (xs ys : List (Token V)) :
    carried key (xs ++ ys) = carried key xs ++ carried key ys := List.filterMap_append

theorem mem_occurrences {lane : List (N × Ms)} {name : N} {t : Ms} :
    t ∈ occurrences lane name ↔ (name, t) ∈ lane := by
  rw [occurrences, List.mem_map]
  constructor
  · rintro ⟨⟨n, t⟩, h, rfl⟩
    obtain ⟨hmem, hn⟩ := List.mem_filter.mp h
    have : n = name := by simpa using hn
    exact this ▸ hmem
  · intro h
    exact ⟨(name, t), List.mem_filter.mpr ⟨h, by simp⟩, rfl⟩

/-! ## The name index -/

/-- The entry an index holds for a name with these timestamps. -/
def statOf (stamps : List Ms) : Option NameStat :=
  match stamps with
  | [] => none
  | t :: ts => some ⟨(t :: ts).length, ts.foldl min t⟩

theorem statOf_append_singleton (stamps : List Ms) (t : Ms) :
    statOf (stamps ++ [t]) = some (match statOf stamps with
      | some prev => ⟨prev.count + 1, if t < prev.minCreatedAt then t else prev.minCreatedAt⟩
      | none => ⟨1, t⟩) := by
  cases stamps with
  | nil => rfl
  | cons s ss =>
    simp only [statOf, List.cons_append, List.length_cons, List.length_append, List.length_nil,
      List.foldl_append, List.foldl_cons, List.foldl_nil]
    congr 2
    split
    next lt => exact min_eq_right (le_of_lt lt)
    next ge => exact min_eq_left (not_lt.mp ge)

theorem get?_countName (index : OrderedMap N NameStat) (name other : N) (ts : Ms) :
    (countName index name ts).get? other =
      if other = name then some (match index.get? name with
        | some prev => ⟨prev.count + 1, if ts < prev.minCreatedAt then ts else prev.minCreatedAt⟩
        | none => ⟨1, ts⟩)
      else index.get? other := by
  unfold countName
  cases index.get? name with
  | some prev => exact OrderedMap.get?_set _ _ _ _
  | none => exact OrderedMap.get?_set _ _ _ _

theorem buildNameIndexFrom_get? {key : KeyFn V N} {tokens : List (Token V)}
    {start index : OrderedMap N NameStat} {seen : List (N × Ms)}
    (built : buildNameIndexFrom key tokens start = .ok index)
    (hstart : ∀ name, start.get? name = statOf (occurrences seen name)) (name : N) :
    index.get? name = statOf (occurrences (seen ++ carried key tokens) name) := by
  induction tokens generalizing start seen with
  | nil =>
    cases built
    rw [hstart name, carried, List.filterMap_nil, List.append_nil]
  | cons token tokens ih =>
    rw [buildNameIndexFrom] at built
    cases hkey : key token.value with
    | error e =>
      rw [hkey] at built
      cases built
    | ok o =>
      rw [hkey] at built
      cases o with
      | none =>
        have skipped : carried key (token :: tokens) = carried key tokens := by
          rw [carried, List.filterMap_cons, hkey]
          rfl
        rw [skipped]
        exact ih built hstart
      | some found =>
        have counted : seen ++ carried key (token :: tokens) =
            (seen ++ [(found, token.createdAt)]) ++ carried key tokens := by
          rw [carried, List.filterMap_cons, hkey, List.append_assoc]
          rfl
        rw [counted]
        refine @ih _ (seen ++ [(found, token.createdAt)]) built fun other => ?_
        rw [get?_countName, occurrences_append, occurrences_cons]
        by_cases h : other = found
        · subst h
          rw [if_pos rfl, if_pos rfl, hstart other]
          exact (statOf_append_singleton _ _).symm
        · rw [if_neg h, if_neg (Ne.symm h), hstart other]
          exact congrArg statOf (List.append_nil _).symm

theorem buildNameIndex_get? {key : KeyFn V N} {tokens : List (Token V)}
    {index : OrderedMap N NameStat} (built : buildNameIndex tokens key = .ok index) (name : N) :
    index.get? name = statOf (occurrences (carried key tokens) name) := by
  rw [← List.nil_append (carried key tokens)]
  exact buildNameIndexFrom_get? built (fun _ => rfl) name

theorem statOf_eq_none_iff {stamps : List Ms} : statOf stamps = none ↔ stamps = [] := by
  cases stamps <;> simp [statOf]

theorem foldl_min_eq (ts : List Ms) (t : Ms) : ((ts.foldl min t : Ms) : WithTop Ms) =
    (t :: ts).minimum := by
  induction ts generalizing t with
  | nil => exact (List.minimum_singleton t).symm
  | cons s ss ih =>
    rw [List.foldl_cons, ih, List.minimum_cons, List.minimum_cons, List.minimum_cons,
      WithTop.coe_min, min_assoc]

theorem statOf_eq_some {stamps : List Ms} {s : NameStat} (h : statOf stamps = some s) :
    s.count = stamps.length ∧ ((s.minCreatedAt : Ms) : WithTop Ms) = stamps.minimum := by
  cases stamps with
  | nil => cases h
  | cons t ts =>
    cases h
    exact ⟨rfl, foldl_min_eq ts t⟩

/-! ## Selection from the indexes -/

/-- The index and the required count of each input describe its lane, numbered from `start`. -/
def Describes (inputs : List (OrderedMap N NameStat × Nat)) (lanes : Nat → List (N × Ms))
    (start : Nat) : Prop :=
  ∀ j index required, inputs[j]? = some (index, required) → 1 ≤ required ∧
    ∀ name, index.get? name = statOf (occurrences (lanes (start + j)) name)

theorem Describes.tail {input : OrderedMap N NameStat × Nat}
    {inputs : List (OrderedMap N NameStat × Nat)} {lanes : Nat → List (N × Ms)} {start : Nat}
    (h : Describes (input :: inputs) lanes start) : Describes inputs lanes (start + 1) := by
  intro j index required hj
  have := h (j + 1) index required (by simpa using hj)
  rwa [show start + (j + 1) = start + 1 + j by omega] at this

/-- An input holds `name` as often as it requires. -/
def Holds (inputs : List (OrderedMap N NameStat × Nat)) (lanes : Nat → List (N × Ms)) (start : Nat)
    (name : N) : Prop :=
  ∀ j index required, inputs[j]? = some (index, required) →
    required ≤ (occurrences (lanes (start + j)) name).length

theorem holds_cons {index : OrderedMap N NameStat} {required : Nat}
    {inputs : List (OrderedMap N NameStat × Nat)} {lanes : Nat → List (N × Ms)} {start : Nat}
    {name : N} : Holds ((index, required) :: inputs) lanes start name ↔
      required ≤ (occurrences (lanes start) name).length ∧ Holds inputs lanes (start + 1) name := by
  constructor
  · intro h
    refine ⟨h 0 index required rfl, fun j i r hj => ?_⟩
    have := h (j + 1) i r (by simpa using hj)
    rwa [show start + (j + 1) = start + 1 + j by omega] at this
  · rintro ⟨head, tail⟩ j i r hj
    cases j with
    | zero =>
      cases hj
      exact head
    | succ j =>
      have := tail j i r (by simpa using hj)
      rwa [show start + 1 + j = start + (j + 1) by omega] at this

theorem repTsFrom_some {inputs : List (OrderedMap N NameStat × Nat)} {lanes : Nat → List (N × Ms)}
    {start : Nat} (d : Describes inputs lanes start) {name : N} {rep r : Ms}
    (h : repTsFrom name inputs rep = some r) : Holds inputs lanes start name ∧
      (r : WithTop Ms) = min (rep : WithTop Ms) (oldestFrom lanes name start (inputs.map Prod.snd)) := by
  induction inputs generalizing start rep with
  | nil =>
    cases h
    exact ⟨fun j _ _ hj => by simp at hj, (min_top_right _).symm⟩
  | cons input inputs ih =>
    obtain ⟨index, required⟩ := input
    obtain ⟨_, stats⟩ := d 0 index required rfl
    rw [repTsFrom] at h
    split at h
    next => cases h
    next s hs =>
      obtain ⟨hcount, hmin⟩ := statOf_eq_some (((stats name).symm).trans hs)
      split at h
      next => cases h
      next enough =>
        obtain ⟨tail, hr⟩ := ih d.tail h
        refine ⟨holds_cons.mpr ⟨?_, tail⟩, ?_⟩
        · rw [Nat.add_zero] at hcount
          omega
        · rw [hr, WithTop.coe_min, hmin, min_assoc]
          rfl

theorem repTsFrom_none {inputs : List (OrderedMap N NameStat × Nat)} {lanes : Nat → List (N × Ms)}
    {start : Nat} (d : Describes inputs lanes start) {name : N} {rep : Ms}
    (h : repTsFrom name inputs rep = none) : ¬ Holds inputs lanes start name := by
  induction inputs generalizing start rep with
  | nil => cases h
  | cons input inputs ih =>
    obtain ⟨index, required⟩ := input
    obtain ⟨pos, stats⟩ := d 0 index required rfl
    rw [holds_cons]
    rintro ⟨head, tail⟩
    rw [repTsFrom] at h
    split at h
    next hs =>
      have := statOf_eq_none_iff.mp (((stats name).symm).trans hs)
      rw [Nat.add_zero] at this
      rw [this, List.length_nil] at head
      omega
    next s hs =>
      obtain ⟨hcount, _⟩ := statOf_eq_some (((stats name).symm).trans hs)
      rw [Nat.add_zero] at hcount
      split at h
      next => omega
      next => exact ih d.tail h tail

/-- A candidate among the preferences. -/
def asReady (b : Ms ×ₗ N) : ReadyEntry N := toLex ((ofLex b).1, (ofLex b).2)

theorem asReady_le {a b : Ms ×ₗ N} : asReady a ≤ asReady b ↔ a ≤ b := by
  rw [asReady, asReady, Prod.Lex.toLex_le_toLex, WithTop.coe_lt_coe, WithTop.coe_eq_coe,
    Prod.Lex.le_iff]

/-- What the candidate loop has found among the names it has seen. -/
structure BestAmong (seen : List N) (inputs : List (OrderedMap N NameStat × Nat))
    (lanes : Nat → List (N × Ms)) (best : Option (Ms ×ₗ N)) : Prop where
  holds : ∀ b ∈ best, Holds inputs lanes 0 (ofLex b).2 ∧
    asReady b = rank (inputs.map Prod.snd) lanes (ofLex b).2
  least : ∀ name ∈ seen, Holds inputs lanes 0 name →
    ∃ b ∈ best, asReady b ≤ rank (inputs.map Prod.snd) lanes name

/-- Every name an input list holds is old enough for the cap on timestamps to be invisible. -/
def Safe (inputs : List (OrderedMap N NameStat × Nat)) (lanes : Nat → List (N × Ms)) : Prop :=
  ∀ name, Holds inputs lanes 0 name →
    oldestFrom lanes name 0 (inputs.map Prod.snd) ≤ (MAX_SAFE_INTEGER : WithTop Ms)

theorem BestAmong.skip {seen : List N} {inputs : List (OrderedMap N NameStat × Nat)}
    {lanes : Nat → List (N × Ms)} {best : Option (Ms ×ₗ N)} (h : BestAmong seen inputs lanes best)
    {name : N} (no : ¬ Holds inputs lanes 0 name) : BestAmong (seen ++ [name]) inputs lanes best where
  holds := h.holds
  least := by
    intro other hother hold
    rcases List.mem_append.mp hother with hseen | hnew
    · exact h.least other hseen hold
    · obtain rfl := List.mem_singleton.mp hnew
      exact absurd hold no

theorem BestAmong.take {seen : List N} {inputs : List (OrderedMap N NameStat × Nat)}
    {lanes : Nat → List (N × Ms)} {best : Option (Ms ×ₗ N)} (h : BestAmong seen inputs lanes best)
    {c : Ms ×ₗ N} (hold : Holds inputs lanes 0 (ofLex c).2)
    (ranked : asReady c = rank (inputs.map Prod.snd) lanes (ofLex c).2) (below : ∀ b ∈ best, c ≤ b) :
    BestAmong (seen ++ [(ofLex c).2]) inputs lanes (some c) where
  holds := by
    intro b hb
    cases hb
    exact ⟨hold, ranked⟩
  least := by
    intro other hother holdOther
    rcases List.mem_append.mp hother with hseen | hnew
    · obtain ⟨b, hb, le⟩ := h.least other hseen holdOther
      exact ⟨c, rfl, le_trans (asReady_le.mpr (below b hb)) le⟩
    · obtain rfl := List.mem_singleton.mp hnew
      exact ⟨c, rfl, le_of_eq ranked⟩

theorem BestAmong.consider {seen : List N} {inputs : List (OrderedMap N NameStat × Nat)}
    {lanes : Nat → List (N × Ms)} {best : Option (Ms ×ₗ N)} (h : BestAmong seen inputs lanes best)
    (d : Describes inputs lanes 0) (safe : Safe inputs lanes)
    {i : Nat} {index : OrderedMap N NameStat} {required : Nat} (hi : inputs[i]? = some (index, required))
    {entry : N × NameStat} (mem : entry ∈ index.entries) :
    BestAmong (seen ++ [entry.1]) inputs lanes (considerName inputs required best entry) := by
  unfold considerName
  split
  next short =>
    refine h.skip fun hold => ?_
    have stat := ((d i index required hi).2 entry.1).symm.trans (index.get?_eq_some_iff.mpr mem)
    have enough := hold i index required hi
    rw [← (statOf_eq_some stat).1] at enough
    omega
  next =>
    split
    next hrep => exact h.skip (repTsFrom_none d hrep)
    next rep hrep =>
      obtain ⟨hold, hr⟩ := repTsFrom_some d hrep
      have ranked : asReady (toLex (rep, entry.1)) = rank (inputs.map Prod.snd) lanes entry.1 := by
        rw [min_eq_right (safe entry.1 hold)] at hr
        rw [rank, ← hr]
        rfl
      split
      next => exact h.take (c := toLex (rep, entry.1)) hold ranked fun b hb => by cases hb
      next b =>
        split
        next lt =>
          refine h.take (c := toLex (rep, entry.1)) hold ranked fun c hc => ?_
          cases hc
          exact le_of_lt lt
        next ge =>
          refine ⟨h.holds, fun name hname holdOther => ?_⟩
          rcases List.mem_append.mp hname with hseen | hnew
          · exact h.least name hseen holdOther
          · refine ⟨b, rfl, ?_⟩
            rw [List.mem_singleton.mp hnew, ← ranked, asReady_le]
            exact not_lt.mp ge

theorem bestAmong_foldl {seen : List N} {inputs : List (OrderedMap N NameStat × Nat)}
    {lanes : Nat → List (N × Ms)} {best : Option (Ms ×ₗ N)} (h : BestAmong seen inputs lanes best)
    (d : Describes inputs lanes 0) (safe : Safe inputs lanes)
    {i : Nat} {index : OrderedMap N NameStat} {required : Nat} (hi : inputs[i]? = some (index, required))
    (entries : List (N × NameStat)) (sub : ∀ e ∈ entries, e ∈ index.entries) :
    BestAmong (seen ++ entries.map Prod.fst) inputs lanes
      (entries.foldl (considerName inputs required) best) := by
  induction entries generalizing seen best with
  | nil => rwa [List.map_nil, List.append_nil]
  | cons e entries ih =>
    have next := h.consider d safe hi (sub e List.mem_cons_self)
    have := ih next fun x hx => sub x (List.mem_cons_of_mem _ hx)
    rwa [List.append_assoc, List.singleton_append] at this

/-- The best so far, if any, is a name that all inputs hold. -/
def HeldBest (inputs : List (OrderedMap N NameStat × Nat)) (lanes : Nat → List (N × Ms)) (best : Option (Ms ×ₗ N)) :
    Prop := ∀ b ∈ best, Holds inputs lanes 0 (ofLex b).2

theorem HeldBest.consider {inputs : List (OrderedMap N NameStat × Nat)} {lanes : Nat → List (N × Ms)}
    {best : Option (Ms ×ₗ N)} (h : HeldBest inputs lanes best) (d : Describes inputs lanes 0) (required : Nat)
    (entry : N × NameStat) : HeldBest inputs lanes (considerName inputs required best entry) := by
  unfold considerName
  split
  · exact h
  split
  next => exact h
  next rep counted =>
    have here : HeldBest inputs lanes (some (toLex (rep, entry.1))) := by
      intro b mem
      cases mem
      exact (repTsFrom_some d counted).1
    split
    next => exact here
    next b =>
      split
      · exact here
      · exact h

/-- Whatever the timestamps, what is selected is a name that all inputs hold. -/
theorem holds_of_selectMatchName {perPlace : List (OrderedMap N NameStat)} {requireds : List Nat}
    {lanes : Nat → List (N × Ms)} (d : Describes (perPlace.zip requireds) lanes 0) {name : N}
    (found : selectMatchName perPlace requireds = some name) : Holds (perPlace.zip requireds) lanes 0 name := by
  unfold selectMatchName at found
  dsimp only at found
  split at found
  next => cases found
  next index required _ =>
    obtain ⟨b, best, rfl⟩ := Option.map_eq_some_iff.mp found
    have start : HeldBest (perPlace.zip requireds) lanes none := fun _ mem => by cases mem
    exact List.foldlRecOn index.entries _ start (fun _ held entry _ => held.consider d required entry) b best

theorem seedIndex_lt {sizes : List Nat} (ne : sizes ≠ []) : seedIndex sizes < sizes.length := by
  have keep : ∀ (l : List Nat) (seed : Nat), (∀ i ∈ l, i < sizes.length) → seed < sizes.length →
      l.foldl (fun seed i => if sizes.getD i 0 < sizes.getD seed 0 then i else seed) seed <
        sizes.length := by
    intro l
    induction l with
    | nil => exact fun seed _ h => h
    | cons i l ih =>
      intro seed inside h
      rw [List.foldl_cons]
      refine ih _ (fun j hj => inside j (List.mem_cons_of_mem _ hj)) ?_
      split
      · exact inside i List.mem_cons_self
      · exact h
  have pos := List.length_pos_iff.mpr ne
  refine keep _ 0 (fun i hi => ?_) pos
  rw [List.mem_range'_1] at hi
  omega

section Select

variable {perPlace : List (OrderedMap N NameStat)} {requireds : List Nat} {lanes : Nat → List (N × Ms)}

theorem holds_zip_iff (sameLength : perPlace.length = requireds.length) (name : N) :
    Holds (perPlace.zip requireds) lanes 0 name ↔ Satisfied requireds lanes name := by
  constructor
  · intro h i required hi
    have lt : i < perPlace.length := by
      have := (List.getElem?_eq_some_iff.mp hi).1
      omega
    have := h i perPlace[i] required
      (List.getElem?_zip_eq_some.mpr ⟨List.getElem?_eq_getElem lt, hi⟩)
    rwa [Nat.zero_add] at this
  · intro h j index required hj
    rw [Nat.zero_add]
    exact h j required (List.getElem?_zip_eq_some.mp hj).2

theorem Satisfied.oldest_le {name : N} {bound : Ms} (h : Satisfied requireds lanes name)
    (ne : requireds ≠ []) (pos : ∀ required ∈ requireds, 1 ≤ required)
    (below : ∀ i < requireds.length, ∀ e ∈ lanes i, e.2 ≤ bound) :
    oldestFrom lanes name 0 requireds ≤ (bound : WithTop Ms) := by
  cases requireds with
  | nil => exact absurd rfl ne
  | cons required rest =>
    have enough := Nat.le_trans (pos required List.mem_cons_self) (h 0 required rfl)
    obtain ⟨t, ht⟩ := List.exists_mem_of_length_pos enough
    have small := below 0 (Nat.succ_pos _) _ (mem_occurrences.mp ht)
    exact le_trans (min_le_left _ _)
      (le_trans (List.minimum_le_of_mem' ht) (WithTop.coe_le_coe.mpr small))

/-- `selectMatchName` picks the name its lanes select, if every timestamp is a safe integer. -/
theorem selectMatchName_selects (sameLength : perPlace.length = requireds.length)
    (ne : requireds ≠ []) (pos : ∀ required ∈ requireds, 1 ≤ required)
    (d : Describes (perPlace.zip requireds) lanes 0)
    (small : ∀ i < requireds.length, ∀ e ∈ lanes i, e.2 ≤ MAX_SAFE_INTEGER) :
    Selects requireds lanes (selectMatchName perPlace requireds) := by
  have reqs : (perPlace.zip requireds).map Prod.snd = requireds := List.map_snd_zip (by omega)
  have safe : Safe (perPlace.zip requireds) lanes := by
    intro name hold
    rw [reqs]
    exact ((holds_zip_iff sameLength name).mp hold).oldest_le ne pos small
  have inside : seedIndex (perPlace.map OrderedMap.size) < perPlace.length := by
    have : seedIndex (perPlace.map OrderedMap.size) < _ := seedIndex_lt fun empty => by
      rw [List.map_eq_nil_iff] at empty
      rw [empty, List.length_nil] at sameLength
      exact ne (List.length_eq_zero_iff.mp sameLength.symm)
    rwa [List.length_map] at this
  have inside' : seedIndex (perPlace.map OrderedMap.size) < requireds.length := by omega
  have hseed : (perPlace.zip requireds)[seedIndex (perPlace.map OrderedMap.size)]? =
      some (perPlace[seedIndex (perPlace.map OrderedMap.size)],
        requireds[seedIndex (perPlace.map OrderedMap.size)]) :=
    List.getElem?_zip_eq_some.mpr
      ⟨List.getElem?_eq_getElem inside, List.getElem?_eq_getElem inside'⟩
  have start : BestAmong [] (perPlace.zip requireds) lanes none :=
    ⟨fun b hb => (Option.not_mem_none b hb).elim, fun name hname => (List.not_mem_nil hname).elim⟩
  have found := bestAmong_foldl start d safe hseed _ fun e he => he
  have listed : ∀ name, Satisfied requireds lanes name →
      name ∈ (perPlace[seedIndex (perPlace.map OrderedMap.size)].entries.map Prod.fst) := by
    intro name h
    by_contra absent
    obtain ⟨hpos, stats⟩ := d _ _ _ hseed
    have none := ((OrderedMap.get?_eq_none_iff _ name).mpr absent).symm.trans (stats name)
    have enough := (holds_zip_iff sameLength name).mpr h _ _ _ hseed
    rw [statOf_eq_none_iff.mp none.symm, List.length_nil] at enough
    omega
  unfold selectMatchName
  simp only [hseed]
  rw [List.nil_append] at found
  cases hbest : perPlace[seedIndex (perPlace.map OrderedMap.size)].entries.foldl
      (considerName (perPlace.zip requireds) requireds[seedIndex (perPlace.map OrderedMap.size)])
      none with
  | none =>
    intro name h
    rw [hbest] at found
    obtain ⟨b, hb, _⟩ := found.least name (listed name h) ((holds_zip_iff sameLength name).mpr h)
    cases hb
  | some b =>
    rw [hbest] at found
    obtain ⟨hold, ranked⟩ := found.holds b rfl
    rw [reqs] at ranked
    refine ⟨(holds_zip_iff sameLength _).mp hold, fun other h => ?_⟩
    obtain ⟨c, hc, le⟩ := found.least other (listed other h) ((holds_zip_iff sameLength _).mpr h)
    cases hc
    rw [reqs] at le
    rwa [← ranked]

end Select

end LibPetri.Verified
