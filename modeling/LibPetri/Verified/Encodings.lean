import LibPetri.Verified.FlatRuns

/-! # What the encoder's conditions say

Over terms that denote the counts of states, the conditions of a firing hold exactly when the transition
fires from one state to the other, those of an injection when it leads there, and those of a property
when the state violates it.
-/

namespace LibPetri.Verified

open LibPetri.Basis LibPetri.Basis.Smt LibPetri.Core LibPetri.Runtime LibPetri.Verification
open LibPetri.Verification.AbstractReplayer LibPetri.Verification.SmtEncoder

variable {S V : Type} {a : V → ℚ} {R : List ℚ → Prop}

/-- The terms have the values of natural numbers. -/
def Denotes {ι : Type} (a : V → ℚ) (terms : ι → Term V) (s : ι → Nat) : Prop :=
  ∀ i, (terms i).eval a = (s i : ℚ)

theorem eval_num (n : Int) : (num n : Term V).eval a = (n : ℚ) := by simp

/-! ## Steps -/

section Steps

variable {P : Nat} {s s' : AbstractState P} {mVars mpVars : Fin P → Term V}
  (now : Denotes a mVars s) (next : Denotes a mpVars s')

include now in
theorem holds_guardConditions {ft : FlatTransition S P} :
    (∀ f ∈ guardConditions ft mVars, f.HoldsWith a R) ↔ enabledA s ft = true := by
  unfold guardConditions
  simp only [List.forall_mem_append, List.forall_mem_map, List.mem_filter, List.mem_finRange,
    true_and, decide_eq_true_eq, Formula.ge, holds_le, holds_eq, eval_num, now _,
    enabledA_iff_conditions]
  norm_cast
  constructor
  · rintro ⟨⟨inputs, inhibitors⟩, reads⟩
    refine ⟨fun p => ?_, reads, inhibitors⟩
    rcases Nat.eq_zero_or_pos (ft.preVector p) with none | some
    · omega
    · exact inputs p some
  · rintro ⟨inputs, reads, inhibitors⟩
    exact ⟨⟨fun p _ => inputs p, inhibitors⟩, reads⟩

include now next in
theorem holds_updateCondition {ft : FlatTransition S P} (enabled : enabledA s ft = true)
    (i : Fin P) : (updateCondition ft mVars mpVars i).HoldsWith a R ↔ s' i = fireA s ft i := by
  have enough := (enabledA_iff_conditions.mp enabled).1 i
  unfold fireA updateCondition
  split
  · rw [holds_eq, eval_num, next]
    norm_cast
  · have value : s' i = s i - ft.preVector i + ft.postVector i ↔
        (s' i : ℚ) = s i + ((ft.postVector i : Int) - (ft.preVector i : Int) : Int) := by
      have integers : s' i = s i - ft.preVector i + ft.postVector i ↔
          (s' i : ℤ) = s i + ((ft.postVector i : ℤ) - ft.preVector i) := by omega
      rw [integers]
      exact_mod_cast Iff.rfl
    dsimp only
    rw [value]
    split
    · rw [holds_eq, next, eval_add]
      simp [now i]
    · split
      · rw [holds_eq, next, eval_sub, now, eval_num, Int.cast_neg, sub_neg_eq_add]
      next stays grows =>
        have zero : (ft.postVector i : Int) - (ft.preVector i : Int) = 0 := by omega
        rw [holds_eq, next, now, zero, Int.cast_zero, add_zero]

include now next in
theorem holds_firingConditions {ft : FlatTransition S P} :
    (∀ f ∈ firingConditions ft mVars mpVars, f.HoldsWith a R) ↔
      enabledA s ft = true ∧ s' = fireA s ft := by
  have nonneg (i : Fin P) : (Formula.ge (mpVars i) (num 0)).HoldsWith a R := by
    rw [holds_le, eval_num, next]
    positivity
  unfold firingConditions
  rw [List.forall_mem_append, List.forall_mem_append, List.forall_mem_map, List.forall_mem_map,
    holds_guardConditions now, funext_iff]
  simp only [List.mem_finRange, true_implies, nonneg, implies_true, and_true]
  exact and_congr_right fun enabled => forall_congr' fun i => holds_updateCondition now next enabled i

include now next in
theorem holds_injectionConditions {pid : Fin P} {bound : Option Nat} :
    (∀ f ∈ injectionConditions pid bound mVars mpVars, f.HoldsWith a R) ↔
      (bound.all fun k => s pid < k) = true ∧ s' = injectA s pid := by
  have room : (∀ k ∈ bound.toList, (Formula.lt (mVars pid) (num k)).HoldsWith a R) ↔
      (bound.all fun k => s pid < k) = true := by
    cases bound with
    | none => simp
    | some k => simp [now pid]
  have update (i : Fin P) : (if i = pid then Formula.eq (mpVars i) (.add [mVars i, num 1])
      else .eq (mpVars i) (mVars i)).HoldsWith a R ↔ s' i = injectA s pid i := by
    unfold injectA
    by_cases here : i = pid
    · subst here
      rw [if_pos rfl, Function.update_self, holds_eq, next, eval_add]
      simp only [List.map_cons, List.map_nil, List.sum_cons, List.sum_nil, now i, eval_num]
      norm_cast
    · rw [if_neg here, Function.update_of_ne here, holds_eq, next, now]
      norm_cast
  unfold injectionConditions
  rw [List.forall_mem_append, List.forall_mem_map, room, List.forall_mem_map, funext_iff]
  simp only [List.mem_finRange, true_implies, update]

end Steps

/-! ## Counters -/

section Counters

variable {T : Nat} {n n' : Fin T → Nat} {nVars npVars : Fin T → Term V}

/-- The counts after a move. -/
def counted (fired : Option (Fin T)) (n : Fin T → Nat) : Fin T → Nat :=
  fun k => if fired = some k then n k + 1 else n k

theorem holds_counterConditions (now : Denotes a nVars n) (next : Denotes a npVars n')
    {fired : Option (Fin T)} :
    (∀ f ∈ counterConditions fired nVars npVars, f.HoldsWith a R) ↔ n' = counted fired n := by
  have nonneg (k : Fin T) : (Formula.ge (npVars k) (num 0)).HoldsWith a R := by
    rw [holds_le, eval_num, next]
    positivity
  have update (k : Fin T) : (if fired = some k then Formula.eq (npVars k) (.add [nVars k, num 1])
      else .eq (npVars k) (nVars k)).HoldsWith a R ↔ n' k = counted fired n k := by
    unfold counted
    split
    · rw [holds_eq, next, eval_add]
      simp only [List.map_cons, List.map_nil, List.sum_cons, List.sum_nil, now k, eval_num]
      norm_cast
    · rw [holds_eq, next, now]
      norm_cast
  unfold counterConditions
  rw [List.forall_mem_append, List.forall_mem_map, List.forall_mem_map, funext_iff]
  simp only [List.mem_finRange, true_implies, update, nonneg, implies_true, and_true]

end Counters

theorem firingCounts_append {flatNet : FlatNet S} (labels : List (Option flatNet.Position))
    (l : Option flatNet.Position) :
    firingCounts (labels ++ [l]) = counted l (firingCounts labels) := by
  funext k
  unfold firingCounts counted
  rw [List.count_append, List.count_singleton]
  simp only [beq_iff_eq]
  split <;> rfl

/-! ## The step relation -/

section Relation

variable {flatNet : FlatNet S} {s s' : flatNet.State}

theorem mem_envBounds {pid : flatNet.Index} {max : Nat} :
    (pid, max) ∈ envBounds flatNet ↔
      (flatNet.placeAt pid, max) ∈ flatNet.environmentBounds.entries := by
  rw [← OrderedMap.get?_eq_some_iff, envBounds, List.mem_filterMap]
  constructor
  · rintro ⟨p, -, found⟩
    obtain ⟨b, at_, same⟩ := Option.map_eq_some_iff.mp found
    obtain ⟨rfl, rfl⟩ := Prod.mk.inj same
    exact at_
  · exact fun found => ⟨pid, List.mem_finRange _, by rw [found]; rfl⟩

theorem withinEnvBounds_iff :
    withinEnvBounds flatNet s = true ↔ ∀ e ∈ envBounds flatNet, s e.1 ≤ e.2 := by
  unfold withinEnvBounds environmentCaps
  rw [List.all_eq_true]
  simp only [Bool.not_eq_true', decide_eq_false_iff_not, not_lt]
  constructor
  · rintro within ⟨pid, max⟩ mem
    refine within (pid, max) (List.mem_filterMap.mpr ⟨_, mem_envBounds.mp mem, ?_⟩)
    rw [FlatNet.placeIndex_placeAt, Option.map_some]
  · rintro within ⟨pid, max⟩ mem
    obtain ⟨⟨name, cap⟩, entry, found⟩ := List.mem_filterMap.mp mem
    obtain ⟨p, at_, same⟩ := Option.map_eq_some_iff.mp found
    obtain ⟨rfl, rfl⟩ := Prod.mk.inj same
    obtain rfl := flatNet.placeIndex_eq_some.mp at_
    exact within (p, cap) (mem_envBounds.mpr entry)

theorem holds_envBoundConditions {mpVars : flatNet.Index → Term V} (next : Denotes a mpVars s') :
    (∀ f ∈ envBoundConditions flatNet mpVars, f.HoldsWith a R) ↔
      withinEnvBounds flatNet s' = true := by
  unfold envBoundConditions
  rw [List.forall_mem_map, withinEnvBounds_iff]
  refine forall₂_congr fun e _ => ?_
  rw [holds_le, next, eval_num]
  norm_cast

/-- The encoded relation holds of two states, and of counters where it speaks of them, exactly when some
move leads from one to the other and counts up. -/
theorem holds_encodeStepRelation {mVars mpVars : flatNet.Index → Term V}
    {nVars npVars : flatNet.Position → Term V} {n n' : flatNet.Position → Nat}
    (now : Denotes a mVars s) (next : Denotes a mpVars s') (count : Denotes a nVars n)
    (count' : Denotes a npVars n') (stateEquation : Bool) :
    (encodeStepRelation flatNet stateEquation mVars mpVars nVars npVars).HoldsWith a R ↔
      ∃ l, FlatMove flatNet s l s' ∧ (stateEquation = true → n' = counted l n) := by
  have counters (fired : Option flatNet.Position) :
      (∀ f ∈ (if stateEquation then counterConditions fired nVars npVars else []),
        f.HoldsWith a R) ↔ (stateEquation = true → n' = counted fired n) := by
    cases stateEquation with
    | false => simp
    | true => simpa using holds_counterConditions count count'
  unfold encodeStepRelation
  dsimp only
  rw [holds_disjoin]
  constructor
  · rintro ⟨f, mem, holds⟩
    rcases List.mem_append.mp mem with fired | injected
    · obtain ⟨k, -, rfl⟩ := List.mem_map.mp fired
      rw [holds_conjoin, List.forall_mem_append, List.forall_mem_append,
        holds_firingConditions now next, counters, holds_envBoundConditions next] at holds
      obtain ⟨⟨⟨enabled, rfl⟩, counted⟩, within⟩ := holds
      exact ⟨some k, .fire k enabled within, counted⟩
    · obtain ⟨⟨pid, bound⟩, resolved, rfl⟩ := List.mem_map.mp injected
      rw [holds_conjoin, List.forall_mem_append, holds_injectionConditions now next,
        counters] at holds
      obtain ⟨⟨room, rfl⟩, counted⟩ := holds
      exact ⟨none, .inject pid bound resolved room, counted⟩
  · rintro ⟨l, move, counted⟩
    cases move with
    | fire k enabled within =>
      refine ⟨_, List.mem_append_left _ (List.mem_map_of_mem (List.mem_finRange k)), ?_⟩
      rw [holds_conjoin, List.forall_mem_append, List.forall_mem_append,
        holds_firingConditions now next, counters, holds_envBoundConditions next]
      exact ⟨⟨⟨enabled, rfl⟩, counted⟩, within⟩
    | inject pid bound mem room =>
      refine ⟨_, List.mem_append_right _ (List.mem_map_of_mem mem), ?_⟩
      rw [holds_conjoin, List.forall_mem_append, holds_injectionConditions now next, counters]
      exact ⟨⟨room, rfl⟩, counted⟩

theorem mem_successorStates : s' ∈ (successors flatNet s).map Successor.state ↔ FlatStep flatNet s s' :=
  List.mem_map

/-- The step relation over variables for the counts of the two markings holds of exactly the successors
the replayer lists.  With the marking equation it also asks for the counters after the step, and there
are some for exactly the same pairs. -/
theorem stepRelation_successors (flatNet : FlatNet S) (s s' : flatNet.State) :
    ((encodeStepRelation flatNet false (fun p => .var (.inl p)) (fun p => .var (.inr p))
        (fun _ => num 0) (fun _ => num 0)).Holds (Sum.elim (fun p => (s p : ℚ)) fun p => (s' p : ℚ)) ↔
      s' ∈ (successors flatNet s).map Successor.state) ∧
    ∀ n : flatNet.Position → Nat,
      (∃ n' : flatNet.Position → Nat,
        (encodeStepRelation flatNet true (fun p => .var (.inl (.inl p)))
          (fun p => .var (.inl (.inr p))) (fun t => .var (.inr (.inl t)))
          (fun t => .var (.inr (.inr t)))).Holds
            (Sum.elim (Sum.elim (fun p => (s p : ℚ)) fun p => (s' p : ℚ))
              (Sum.elim (fun t => (n t : ℚ)) fun t => (n' t : ℚ)))) ↔
      s' ∈ (successors flatNet s).map Successor.state := by
  rw [mem_successorStates, flatStep_iff_move]
  constructor
  · have now : Denotes (Sum.elim (fun p => (s p : ℚ)) fun p => (s' p : ℚ))
        (fun p : flatNet.Index => .var (.inl p)) s := fun p => by simp
    have next : Denotes (Sum.elim (fun p => (s p : ℚ)) fun p => (s' p : ℚ))
        (fun p : flatNet.Index => .var (.inr p)) s' := fun p => by simp
    have none_ : Denotes (Sum.elim (fun p => (s p : ℚ)) fun p => (s' p : ℚ))
        (fun _ : flatNet.Position => num 0) fun _ => 0 := fun _ => by simp
    rw [Formula.Holds, holds_encodeStepRelation now next none_ none_]
    simp
  · intro n
    let values (n' : flatNet.Position → Nat) :=
      Sum.elim (Sum.elim (fun p => (s p : ℚ)) fun p => (s' p : ℚ))
        (Sum.elim (fun t => (n t : ℚ)) fun t => (n' t : ℚ))
    have encoded (n' : flatNet.Position → Nat) : (encodeStepRelation flatNet true
        (fun p => .var (.inl (.inl p))) (fun p => .var (.inl (.inr p)))
          (fun t => .var (.inr (.inl t))) (fun t => .var (.inr (.inr t)))).Holds (values n') ↔
        ∃ l, FlatMove flatNet s l s' ∧ (true = true → n' = counted l n) := by
      have now : Denotes (values n') (fun p => .var (.inl (.inl p))) s := fun p => by simp [values]
      have next : Denotes (values n') (fun p => .var (.inl (.inr p))) s' := fun p => by simp [values]
      have count : Denotes (values n') (fun t => .var (.inr (.inl t))) n := fun t => by simp [values]
      have count' : Denotes (values n') (fun t => .var (.inr (.inr t))) n' :=
        fun t => by simp [values]
      exact holds_encodeStepRelation now next count count' true
    simp only [values] at encoded
    simp only [encoded, true_implies]
    constructor
    · rintro ⟨n', l, move, -⟩
      exact ⟨l, move⟩
    · rintro ⟨l, move⟩
      exact ⟨counted l n, l, move, rfl⟩

end Relation

end LibPetri.Verified
