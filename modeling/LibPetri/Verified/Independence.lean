import LibPetri.Verification.StubbornSets
import LibPetri.Verified.TokenGame

/-! # Independent transitions

A firing changes the places it writes, and what it does depends on the places it tests.  Transitions
that are not dependent fire in either order to the same effect.
-/

namespace LibPetri.Verified

open LibPetri.Basis LibPetri.Core LibPetri.Runtime LibPetri.Verification
open LibPetri.Verification.StubbornSets TokenGame

variable {V N : Type} {t u : Transition V N} {m m' : Counts} {o o' : Outcome} {p : PlaceName}

/-! ## Footprints -/

theorem input_of_find? {spec : In}
    (found : t.inputSpecs.find? (fun spec => decide (spec.place = p)) = some spec) :
    spec ∈ t.inputSpecs ∧ spec.place = p :=
  ⟨List.mem_of_find?_eq_some found, by simpa using List.find?_some found⟩

theorem consumption_eq_zero (untaken : p ∉ t.inputSpecs.map In.place) : consumption t m p = 0 := by
  unfold consumption
  cases found : t.inputSpecs.find? fun spec => decide (spec.place = p) with
  | none => rfl
  | some spec =>
    obtain ⟨mem, rfl⟩ := input_of_find? found
    exact absurd (List.mem_map_of_mem mem) untaken

/-- What a firing consumes from a place depends on that place alone. -/
theorem consumption_congr (same : m p = m' p) : consumption t m p = consumption t m' p := by
  unfold consumption
  rw [same]

/-- An outcome deposits what the inputs it tests determine. -/
theorem deposited_congr (same : ∀ q ∈ t.inputSpecs.map In.place, m q = m' q) (o : Outcome)
    (p : PlaceName) : deposited t m o p = deposited t m' o p := by
  have drained : consumption t m = consumption t m' := by
    funext q
    by_cases taken : q ∈ t.inputSpecs.map In.place
    · exact consumption_congr (same q taken)
    · rw [consumption_eq_zero taken, consumption_eq_zero taken]
  unfold deposited
  rw [drained]

theorem deposited_eq_zero (outcome : o ∈ outcomes t) (kept : p ∉ increases t) :
    deposited t m o p = 0 := by
  unfold deposited
  cases found : o.deposits.lookup p with
  | none => rfl
  | some d =>
    have entry := (OrderedMap.lookup_eq_some_iff o.nodup).mp found
    exact absurd (List.mem_flatMap.mpr ⟨o, outcome, List.mem_map_of_mem entry⟩) kept

/-- A place that is neither an input nor a reset keeps its tokens. -/
theorem intermediate_eq (kept : p ∉ decreases t) : intermediate t m p = m p := by
  simp only [decreases, List.mem_append, not_or] at kept
  unfold intermediate
  rw [if_neg kept.2, consumption_eq_zero kept.1, Nat.sub_zero]

theorem intermediate_le : intermediate t m p ≤ m p := by
  unfold intermediate
  split
  · exact Nat.zero_le _
  · exact Nat.sub_le _ _

/-- A firing changes the places it writes only. -/
theorem fire_eq (outcome : o ∈ outcomes t) (kept : p ∉ writes t) : fire t m o p = m p := by
  simp only [writes, List.mem_append, not_or] at kept
  unfold fire
  rw [intermediate_eq kept.1, deposited_eq_zero outcome kept.2, Nat.add_zero]

/-- What a firing makes of a place depends on that place and on its inputs. -/
theorem fire_congr (inputs : ∀ q ∈ t.inputSpecs.map In.place, m q = m' q) (same : m p = m' p)
    (o : Outcome) : fire t m o p = fire t m' o p := by
  have left : intermediate t m p = intermediate t m' p := by
    unfold intermediate
    rw [same, consumption_congr same]
  unfold fire
  rw [left, deposited_congr inputs]

/-! ## Enabling -/

theorem enabled_congr (same : ∀ q ∈ tests t, m q = m' q) (h : Enabled t m) : Enabled t m' := by
  simp only [tests, List.mem_append] at same
  refine ⟨fun spec mem => ?_, fun q mem => ?_, fun q mem => ?_⟩
  · rw [← same _ (.inl (.inl (List.mem_map_of_mem mem)))]
    exact h.inputs spec mem
  · rw [← same q (.inl (.inr mem))]
    exact h.reads q mem
  · rw [← same q (.inr mem)]
    exact h.inhibitors q mem

/-- A transition is enabled when none of its conditions is unsatisfied. -/
theorem enabled_iff_conditions :
    Enabled t m ↔ ∀ c ∈ conditions t, c.unsatisfied m = false := by
  have needs (c : Condition) : c ∈ conditions t ↔
      (∃ spec ∈ t.inputSpecs, c = ⟨spec.place, spec.requiredCount, false⟩) ∨
        (∃ q ∈ t.reads, c = ⟨q, 1, false⟩) ∨ ∃ q ∈ t.inhibitors, c = ⟨q, 0, true⟩ := by
    simp only [conditions, List.mem_append, List.mem_insertionSort, List.mem_map, eq_comm (a := c),
      or_assoc]
  constructor
  · intro h c mem
    rcases (needs c).mp mem with ⟨spec, inside, rfl⟩ | ⟨q, inside, rfl⟩ | ⟨q, inside, rfl⟩
    · simpa [Condition.unsatisfied] using h.inputs spec inside
    · simpa [Condition.unsatisfied] using Nat.ne_of_gt (h.reads q inside)
    · simpa [Condition.unsatisfied] using h.inhibitors q inside
  · intro h
    refine ⟨fun spec mem => ?_, fun q mem => ?_, fun q mem => ?_⟩
    · simpa [Condition.unsatisfied] using h _ ((needs _).mpr (.inl ⟨spec, mem, rfl⟩))
    · have := h _ ((needs _).mpr (.inr (.inl ⟨q, mem, rfl⟩)))
      simp only [Condition.unsatisfied, Bool.false_eq_true, ↓reduceIte, decide_eq_false_iff_not] at this
      exact Nat.le_of_not_lt this
    · simpa [Condition.unsatisfied] using h _ ((needs _).mpr (.inr (.inr ⟨q, mem, rfl⟩)))

/-! ## Independence -/

/-- Neither writes what the other tests, nor overwrites what the other writes. -/
structure Independent (t u : Transition V N) : Prop where
  tested : ∀ p ∈ writes t, p ∉ tests u
  tests : ∀ p ∈ writes u, p ∉ tests t
  overwritten : ∀ p ∈ writes t, p ∉ overwrites u
  overwrites : ∀ p ∈ writes u, p ∉ overwrites t

theorem independent_of_not_dependent (h : dependent t u = false) : Independent t u := by
  simp only [dependent, Bool.or_eq_false_iff, List.any_eq_false, decide_eq_true_eq] at h
  obtain ⟨⟨⟨tested, tests⟩, overwrites⟩, overwritten⟩ := h
  exact ⟨tested, fun p mem inside => tests p inside mem, overwritten,
    fun p mem inside => overwrites p inside mem⟩

theorem Independent.symm (h : Independent t u) : Independent u t :=
  ⟨h.tests, h.tested, h.overwrites, h.overwritten⟩

/-- An independent firing leaves what a transition tests. -/
theorem Independent.tests_eq (h : Independent t u) (outcome : o ∈ outcomes u) :
    ∀ q ∈ StubbornSets.tests t, fire u m o q = m q :=
  fun q mem => fire_eq outcome fun written => h.tests q written mem

theorem Independent.enabled_iff (h : Independent t u) (outcome : o ∈ outcomes u) :
    Enabled t (fire u m o) ↔ Enabled t m :=
  ⟨enabled_congr (h.tests_eq outcome), enabled_congr fun q mem => (h.tests_eq outcome q mem).symm⟩

theorem inputs_subset_tests {q : PlaceName} (mem : q ∈ t.inputSpecs.map In.place) :
    q ∈ StubbornSets.tests t :=
  List.mem_append_left _ (List.mem_append_left _ mem)

theorem Independent.inputs_eq (h : Independent t u) (outcome : o ∈ outcomes u) :
    ∀ q ∈ t.inputSpecs.map In.place, fire u m o q = m q :=
  fun q mem => h.tests_eq outcome q (inputs_subset_tests mem)

/-- Independent firings commute. -/
theorem Independent.fire_comm (h : Independent t u) (first : o ∈ outcomes t)
    (second : o' ∈ outcomes u) : fire u (fire t m o) o' = fire t (fire u m o') o := by
  funext p
  by_cases byFirst : p ∈ writes t
  · by_cases bySecond : p ∈ writes u
    · -- both write it, so both of them only add tokens
      have added {t : Transition V N} {o : Outcome} {m : Counts} (untested : p ∉ StubbornSets.tests t)
          (added : p ∉ StubbornSets.overwrites t) : fire t m o p = m p + deposited t m o p := by
        have untaken : p ∉ decreases t := by
          intro mem
          rcases List.mem_append.mp mem with taken | reset
          · exact untested (inputs_subset_tests taken)
          · exact added (List.mem_append_right _ reset)
        unfold fire
        rw [intermediate_eq untaken]
      have testedFirst := h.tests p bySecond
      have testedSecond := h.tested p byFirst
      have overFirst := h.overwrites p bySecond
      have overSecond := h.overwritten p byFirst
      rw [added testedSecond overSecond, added testedFirst overFirst, added testedFirst overFirst,
        added testedSecond overSecond, deposited_congr (h.inputs_eq second),
        deposited_congr (h.symm.inputs_eq first), Nat.add_right_comm]
    · rw [fire_eq second bySecond, fire_congr (h.inputs_eq second) (fire_eq second bySecond)]
  · rw [fire_eq first byFirst, fire_congr (h.symm.inputs_eq first) (fire_eq first byFirst)]

end LibPetri.Verified
