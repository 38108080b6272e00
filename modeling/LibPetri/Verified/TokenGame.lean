import LibPetri.Verification.StateClassGraph

/-! # The token game

The firing rule on token counts.  A transition is enabled when its inputs hold what they require, its
reads are marked and its inhibitors empty.  A firing consumes its inputs, drains its resets, and then
deposits one of its outcomes.
-/

namespace LibPetri.Verified.TokenGame

open LibPetri.Basis LibPetri.Core LibPetri.Runtime LibPetri.Verification

variable {V N : Type}

/-- The tokens in each place. -/
abbrev Counts := PlaceName → Nat

section Firing

variable (t : Transition V N) (m : Counts)

structure Enabled : Prop where
  inputs : ∀ spec ∈ t.inputSpecs, spec.requiredCount ≤ m spec.place
  reads : ∀ p ∈ t.reads, 1 ≤ m p
  inhibitors : ∀ p ∈ t.inhibitors, m p = 0

/-- The tokens a firing takes from a place through its input. -/
def consumption (p : PlaceName) : Nat :=
  match t.inputSpecs.find? fun spec => spec.place = p with
  | none => 0
  | some spec => StateClassGraph.inputConsumeCount spec (m p)

/-- The marking between the halves of a firing. -/
def intermediate : Counts := fun p => if p ∈ t.resets then 0 else m p - consumption t m p

/-- The tokens an outcome deposits into a place. -/
def deposited (o : Outcome) (p : PlaceName) : Nat :=
  match o.deposits.lookup p with
  | none => 0
  | some d => depositCount (consumption t m) d

def fire (o : Outcome) : Counts := fun p => intermediate t m p + deposited t m o p

end Firing

variable (net : PetriNet V N)

/-- A firing of one transition, with some outcome of it. -/
def Fires (m : Counts) (t : NetTransition net) (m' : Counts) : Prop :=
  Enabled (transitionAt t) m ∧ ∃ o ∈ outcomes (transitionAt t), m' = fire (transitionAt t) m o

def Step (m m' : Counts) : Prop := ∃ t, Fires net m t m'

/-- Markings some firing sequence leads to. -/
def ReachableMarking : Counts → Counts → Prop := Relation.ReflTransGen (Step net)

/-- No transition is enabled. -/
def Dead (m : Counts) : Prop := ∀ t : NetTransition net, ¬Enabled (transitionAt t) m

/-! ## The analysis plays the token game -/

section Refinement

variable {net} {env : Environment} (ignore : env.mode = .ignore)

include ignore

theorem supplied_eq_false (p : PlaceName) : StateClassGraph.supplied env p = false := by
  simp [StateClassGraph.supplied, ignore]

theorem checkPlaceEnabled_iff {p : PlaceName} {n : Nat} {m : MarkingState} :
    StateClassGraph.checkPlaceEnabled env p n m = true ↔ n ≤ m.tokens p := by
  unfold StateClassGraph.checkPlaceEnabled
  rw [ignore]
  split <;> exact decide_eq_true_iff

theorem isEnabled_iff {t : Transition V N} {m : MarkingState} :
    StateClassGraph.isEnabled env t m = true ↔ Enabled t m.tokens := by
  unfold StateClassGraph.isEnabled
  simp only [Bool.and_eq_true, List.all_eq_true, checkPlaceEnabled_iff ignore, Bool.not_eq_true']
  have empty (p : PlaceName) : m.hasTokens p = false ↔ m.tokens p = 0 := by
    rw [← Bool.not_eq_true, MarkingState.hasTokens_iff]
    omega
  simp only [empty]
  exact ⟨fun ⟨⟨inputs, reads⟩, inhibitors⟩ => ⟨inputs, reads, inhibitors⟩,
    fun h => ⟨⟨h.inputs, h.reads⟩, h.inhibitors⟩⟩

theorem mem_findEnabledTransitions {m : MarkingState} {t : NetTransition net} :
    t ∈ StateClassGraph.findEnabledTransitions net env m ↔ Enabled (transitionAt t) m.tokens := by
  unfold StateClassGraph.findEnabledTransitions
  rw [List.mem_filter, isEnabled_iff ignore]
  simp

omit ignore in
/-- A firing removes no more tokens than it has counted. -/
theorem consumption_le {spec : In} {n : Nat} (enough : spec.requiredCount ≤ n) :
    StateClassGraph.inputConsumeCount spec n ≤ n := by
  cases spec with
  | one => exact enough
  | exactly => exact enough
  | all => exact le_refl _
  | atLeast => exact le_refl _

theorem tokens_foldl_consumeInput {m builder : MarkingState} {specs : List In}
    (nodup : (specs.map In.place).Nodup)
    (enough : ∀ spec ∈ specs, spec.requiredCount ≤ m.tokens spec.place) (p : PlaceName) :
    (specs.foldl (StateClassGraph.consumeInput env m) builder).tokens p =
      builder.tokens p - match specs.find? fun spec => spec.place = p with
        | none => 0
        | some spec => StateClassGraph.inputConsumeCount spec (m.tokens p) := by
  induction specs generalizing builder with
  | nil => rfl
  | cons spec specs ih =>
    simp only [List.map_cons, List.nodup_cons] at nodup
    have here := enough spec List.mem_cons_self
    rw [List.foldl_cons, ih nodup.2 fun s mem => enough s (List.mem_cons_of_mem _ mem)]
    have removed : StateClassGraph.consumeInput env m builder spec =
        builder.removeTokens spec.place
          (StateClassGraph.inputConsumeCount spec (m.tokens spec.place)) := by
      unfold StateClassGraph.consumeInput
      simp only [supplied_eq_false ignore, Bool.false_eq_true, ↓reduceIte, not_lt.mpr here]
    rw [removed, MarkingState.tokens_removeTokens]
    by_cases ours : spec.place = p
    · -- no later input is on the same place
      subst ours
      have other : specs.find? (fun s => decide (s.place = spec.place)) = none := by
        refine List.find?_eq_none.mpr fun s mem same => nodup.1 ?_
        exact of_decide_eq_true same ▸ List.mem_map_of_mem mem
      simp [other]
    · have : ¬p = spec.place := fun same => ours same.symm
      simp [ours, this]

omit ignore in
theorem tokens_foldl_setTokens (resets : List PlaceName) (builder : MarkingState) (p : PlaceName) :
    (resets.foldl (fun builder q => builder.setTokens q 0) builder).tokens p =
      if p ∈ resets then 0 else builder.tokens p := by
  induction resets generalizing builder with
  | nil => rfl
  | cons q resets ih =>
    rw [List.foldl_cons, ih, MarkingState.tokens_setTokens]
    simp only [List.mem_cons]
    split
    · simp [*]
    · split <;> simp [*]

theorem tokens_consumeInputs {t : Transition V N} {m : MarkingState} (h : Enabled t m.tokens) :
    (StateClassGraph.consumeInputs env m t).tokens = intermediate t m.tokens := by
  funext p
  unfold StateClassGraph.consumeInputs intermediate
  rw [tokens_foldl_setTokens, tokens_foldl_consumeInput ignore t.inputs_nodup h.inputs]
  rfl

theorem drainedFrom_eq {t : Transition V N} {m : MarkingState} (h : Enabled t m.tokens)
    (p : PlaceName) : StateClassGraph.drainedFrom env m t p = consumption t m.tokens p := by
  unfold StateClassGraph.drainedFrom consumption
  cases found : t.inputSpecs.find? fun s => decide (s.place = p) with
  | none => rfl
  | some spec =>
    have place : spec.place = p := by simpa using List.find?_some found
    have enough := h.inputs spec (List.mem_of_find?_eq_some found)
    simp only [supplied_eq_false ignore, Bool.false_eq_true, ↓reduceIte, not_lt.mpr enough]
    rw [place]

omit ignore in
theorem tokens_foldl_addTokens {deposits : List (PlaceName × Deposit)}
    (nodup : (deposits.map Prod.fst).Nodup) (drained : PlaceName → Nat) (builder : MarkingState)
    (p : PlaceName) :
    (deposits.foldl (fun builder d => builder.addTokens d.1 (depositCount drained d.2))
      builder).tokens p =
      builder.tokens p + match deposits.lookup p with
        | none => 0
        | some d => depositCount drained d := by
  induction deposits generalizing builder with
  | nil => rfl
  | cons d deposits ih =>
    obtain ⟨q, d⟩ := d
    simp only [List.map_cons, List.nodup_cons] at nodup
    rw [List.foldl_cons, ih nodup.2, MarkingState.tokens_addTokens, List.lookup_cons]
    by_cases ours : p = q
    · subst ours
      have other := (OrderedMap.lookup_eq_none_iff deposits p).mpr nodup.1
      simp [other]
    · have : (p == q) = false := by simpa using ours
      simp [ours, this]

theorem tokens_produceOutputs {t : Transition V N} {m : MarkingState} (h : Enabled t m.tokens)
    (o : Outcome) :
    (StateClassGraph.produceOutputs env m (StateClassGraph.consumeInputs env m t) t o).tokens =
      fire t m.tokens o := by
  funext p
  unfold StateClassGraph.produceOutputs fire deposited
  rw [tokens_foldl_addTokens o.nodup, tokens_consumeInputs ignore h]
  congr 1
  cases o.deposits.lookup p with
  | none => rfl
  | some d =>
    cases d with
    | tokens => rfl
    | drained source => exact drainedFrom_eq ignore h source

/-- The analysis, evaluated on a marking, plays a firing. -/
theorem fires_produceOutputs {m : MarkingState} {t : NetTransition net} {o : Outcome}
    (enabled : StateClassGraph.isEnabled env (transitionAt t) m = true)
    (outcome : o ∈ outcomes (transitionAt t)) :
    Fires net m.tokens t (StateClassGraph.produceOutputs env m
      (StateClassGraph.consumeInputs env m (transitionAt t)) (transitionAt t) o).tokens := by
  have can := (isEnabled_iff ignore).mp enabled
  exact ⟨can, o, outcome, tokens_produceOutputs ignore can o⟩

theorem dead_iff {m : MarkingState} :
    Dead net m.tokens ↔ StateClassGraph.findEnabledTransitions net env m = [] := by
  rw [List.eq_nil_iff_forall_not_mem]
  exact forall_congr' fun t => not_congr (mem_findEnabledTransitions ignore).symm

end Refinement

end LibPetri.Verified.TokenGame
