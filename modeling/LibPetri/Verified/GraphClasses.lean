import LibPetri.Verified.TokenGame
import LibPetri.Verified.Zones

/-! # The classes of a state class graph

Every class lists exactly the transitions its marking enables, in the order of the clocks of its
firing domain; its successors carry the markings of the token game.
-/

namespace LibPetri.Verified

open LibPetri.Basis LibPetri.Core LibPetri.Verification LibPetri.Verification.StateClassGraph

variable {V N : Type} {net : PetriNet V N}

/-! ## Orders -/

section Orders

variable {α : Type}

theorem permute_range (items : List α) : permute items (List.range items.length) = items := by
  unfold permute
  induction items using List.reverseRecOn with
  | nil => rfl
  | append_singleton items a ih =>
    rw [List.length_append, List.length_singleton, List.range_succ, List.filterMap_append]
    congr 1
    · rw [← List.filterMap_congr (f := fun k => items[k]?), ih]
      intro k mem
      rw [List.getElem?_append_left (List.mem_range.mp mem)]
    · simp

theorem permute_perm {items : List α} {order : List Nat}
    (h : order.Perm (List.range items.length)) : (permute items order).Perm items := by
  have := h.filterMap fun k => items[k]?
  rwa [show (List.range items.length).filterMap (fun k => items[k]?) = items from
    permute_range items] at this

theorem canonicalOrder_perm {ts : List (NetTransition net)} {order : List Nat}
    (h : canonicalOrder ts = some order) : order.Perm (List.range ts.length) := by
  unfold canonicalOrder at h
  dsimp only at h
  split at h
  · cases h
  · exact Option.some.inj h ▸ List.perm_insertionSort _ _

/-- The `k`-th of the permuted items is the one the order names. -/
theorem getElem?_permute {items : List α} {order : List Nat}
    (inside : ∀ k ∈ order, k < items.length) {i k : Nat} (at_ : order[i]? = some k) :
    (permute items order)[i]? = items[k]? := by
  induction order generalizing i with
  | nil => simp at at_
  | cons k' order ih =>
    have lt := inside k' List.mem_cons_self
    have head : permute items (k' :: order) = items[k'] :: permute items order := by
      simp [permute, List.getElem?_eq_getElem lt]
    rw [head]
    cases i with
    | zero =>
      obtain rfl : k' = k := by simpa using at_
      simp [List.getElem?_eq_getElem lt]
    | succ i =>
      rw [List.getElem?_cons_succ] at at_ ⊢
      exact ih (fun k mem => inside k (List.mem_cons_of_mem _ mem)) at_

theorem length_permute {items : List α} {order : List Nat}
    (inside : ∀ k ∈ order, k < items.length) : (permute items order).length = order.length := by
  induction order with
  | nil => rfl
  | cons k order ih =>
    have lt := inside k List.mem_cons_self
    have head : permute items (k :: order) = items[k] :: permute items order := by
      simp [permute, List.getElem?_eq_getElem lt]
    rw [head, List.length_cons, List.length_cons,
      ih fun k mem => inside k (List.mem_cons_of_mem _ mem)]

end Orders

/-! ## Enabled transitions -/

section Enabled

open TokenGame

variable {env : Environment}

/-- A class lists each transition its marking enables, once. -/
structure Listed (c : StateClass net) : Prop where
  nodup : c.enabledTransitions.Nodup
  enabled : ∀ t, t ∈ c.enabledTransitions ↔ Enabled (transitionAt t) c.marking.tokens

theorem mem_persistent {gate : Option (EnablingGate net)} {current : StateClass net}
    {fired u : NetTransition net} {intermediate : MarkingState}
    {newEnabledAll : List (NetTransition net)} :
    u ∈ permute current.enabledTransitions
        (persistentIndices env gate current fired intermediate newEnabledAll) ↔
      u ∈ current.enabledTransitions ∧ u ≠ fired ∧ u ∈ newEnabledAll ∧
        isEnabled env (transitionAt u) intermediate = true ∧
        (gate.all fun g => g.between u) = true := by
  simp only [permute, persistentIndices, List.mem_filterMap, List.mem_filter, List.mem_range]
  constructor
  · rintro ⟨k, ⟨-, holds⟩, at_⟩
    rw [at_] at holds
    exact ⟨List.mem_iff_getElem?.mpr ⟨k, at_⟩, by simpa [and_assoc] using holds⟩
  · rintro ⟨mem, holds⟩
    obtain ⟨k, at_⟩ := List.mem_iff_getElem?.mp mem
    refine ⟨k, ⟨(List.getElem?_eq_some_iff.mp at_).1, ?_⟩, at_⟩
    rw [at_]
    simpa [and_assoc] using holds

theorem persistentIndices_lt {gate : Option (EnablingGate net)} {current : StateClass net}
    {fired : NetTransition net} {intermediate : MarkingState}
    {newEnabledAll : List (NetTransition net)} :
    ∀ k ∈ persistentIndices env gate current fired intermediate newEnabledAll,
      k < current.enabledTransitions.length :=
  fun _ mem => List.mem_range.mp (List.mem_of_mem_filter mem)

theorem permute_sublist {α : Type} {items : List α} {p : Nat → Bool} :
    (permute items ((List.range items.length).filter p)).Sublist items := by
  have := (List.filter_sublist (p := p) (l := List.range items.length)).filterMap
    fun k => items[k]?
  rwa [show (List.range items.length).filterMap (fun k => items[k]?) = items from
    permute_range items] at this

/-- The transitions of a class in canonical order are those it was given. -/
theorem inCanonicalOrder_perm (marking : MarkingState) (domain : DBM)
    (enabled : List (NetTransition net)) :
    (inCanonicalOrder marking domain enabled).enabledTransitions.Perm enabled := by
  unfold inCanonicalOrder
  cases ordered : canonicalOrder enabled with
  | none => exact .refl _
  | some order => exact permute_perm (canonicalOrder_perm ordered)

@[simp] theorem marking_inCanonicalOrder (marking : MarkingState) (domain : DBM)
    (enabled : List (NetTransition net)) :
    (inCanonicalOrder marking domain enabled).marking = marking := by
  unfold inCanonicalOrder
  split <;> rfl

theorem initialStateClass_perm (untimed : Bool) (marking : MarkingState) :
    (initialStateClass net env untimed marking).enabledTransitions.Perm
      (findEnabledTransitions net env marking) := by
  unfold initialStateClass
  dsimp only
  cases ordered : canonicalOrder (findEnabledTransitions net env marking) with
  | none => exact .refl _
  | some order => exact permute_perm (canonicalOrder_perm ordered)

theorem computeSuccessor_perm (untimed : Bool) {current : StateClass net}
    (nodup : current.enabledTransitions.Nodup) (fired : VirtualTransition net) :
    (computeSuccessor env untimed none current fired).enabledTransitions.Perm
      (findEnabledTransitions net env (computeSuccessor env untimed none current fired).marking) := by
  unfold computeSuccessor
  dsimp only
  set intermediate := consumeInputs env current.marking (transitionAt fired.transition)
  set newMarking := produceOutputs env current.marking intermediate
    (transitionAt fired.transition) fired.outcome
  simp only [Option.all_none, List.filter_true, marking_inCanonicalOrder]
  set all := findEnabledTransitions net env newMarking
  set indices := persistentIndices env none current fired.transition intermediate all
  set persistent := permute current.enabledTransitions indices
  refine (inCanonicalOrder_perm _ _ _).trans ?_
  have new : all.Nodup := (List.nodup_finRange _).filter _
  have apart : ∀ u ∈ persistent, ∀ v ∈ all.filter (fun u => !persistent.contains u), u ≠ v := by
    intro u old v mem same
    have : v ∉ persistent := by simpa using (List.mem_filter.mp mem).2
    exact this (same ▸ old)
  refine (List.perm_ext_iff_of_nodup ?_ new).mpr fun t => ?_
  · exact List.nodup_append.mpr ⟨permute_sublist.nodup nodup, new.filter _, apart⟩
  · rw [List.mem_append, List.mem_filter]
    constructor
    · rintro (old | fresh)
      · exact (mem_persistent.mp old).2.2.1
      · exact fresh.1
    · intro mem
      by_cases old : t ∈ persistent
      · exact .inl old
      · exact .inr ⟨mem, by simpa using old⟩

theorem Listed.of_perm (ignore : env.mode = .ignore) {c : StateClass net}
    (perm : c.enabledTransitions.Perm (findEnabledTransitions net env c.marking)) : Listed c := by
  refine ⟨perm.nodup_iff.mpr ((List.nodup_finRange _).filter _), fun t => ?_⟩
  rw [perm.mem_iff, mem_findEnabledTransitions ignore]

theorem initialStateClass_listed (ignore : env.mode = .ignore) (untimed : Bool)
    (marking : MarkingState) : Listed (initialStateClass net env untimed marking) :=
  .of_perm ignore (initialStateClass_perm untimed marking)

theorem computeSuccessor_listed (ignore : env.mode = .ignore) (untimed : Bool)
    {current : StateClass net} (h : Listed current) (fired : VirtualTransition net) :
    Listed (computeSuccessor env untimed none current fired) :=
  .of_perm ignore (computeSuccessor_perm untimed h.nodup fired)

/-- The marking behind a firing is that of the token game. -/
theorem computeSuccessor_tokens (ignore : env.mode = .ignore) (untimed : Bool)
    (gate : Option (EnablingGate net)) {current : StateClass net} {fired : VirtualTransition net}
    (enabled : Enabled (transitionAt fired.transition) current.marking.tokens) :
    (computeSuccessor env untimed gate current fired).marking.tokens =
      fire (transitionAt fired.transition) current.marking.tokens fired.outcome := by
  unfold computeSuccessor
  rw [marking_inCanonicalOrder]
  exact tokens_produceOutputs ignore enabled fired.outcome

end Enabled

/-! ## Firing domains -/

section Domains

variable {R : Type} [Field R] [LinearOrder R] {ν ν' : NetTransition net → R}

/-- The times left of the transitions of a list, by position. -/
def readings (ν : NetTransition net → R) (ts : List (NetTransition net)) : Nat → R :=
  fun k => (ts[k]?.map ν).getD 0

omit [LinearOrder R] in
theorem readings_of_getElem? {ts : List (NetTransition net)} {k : Nat} {t : NetTransition net}
    (at_ : ts[k]? = some t) : readings ν ts k = ν t := by
  simp [readings, at_]

/-- The domain of a class contains the times left of its transitions. -/
structure InDomain (c : StateClass net) (ν : NetTransition net → R) : Prop where
  contains : Contains c.firingDomain (readings ν c.enabledTransitions)
  clocks : c.firingDomain.clockNames.length = c.enabledTransitions.length

theorem canonicalize_names {m : BoundMatrix} {names : List String} :
    (DBM.canonicalize m names).clockNames = names := by
  unfold DBM.canonicalize
  split <;> rfl

theorem letTimePass_names {d : DBM} : d.letTimePass.clockNames = d.clockNames := by
  unfold DBM.letTimePass
  split
  · rfl
  · exact canonicalize_names

theorem fireTransition_names {d : DBM} {f : Nat} {newClocks : List Clock} {persistent : List Nat}
    (nonempty : (d.fireTransition f newClocks persistent).isEmpty = false) :
    (d.fireTransition f newClocks persistent).clockNames =
      persistent.map (fun k => d.clockNames.getD k "") ++ newClocks.map Clock.name := by
  unfold DBM.fireTransition at nonempty ⊢
  cases already : d.isEmpty with
  | true => simp [already] at nonempty
  | false =>
    rw [if_neg Bool.false_ne_true]
    cases found : DBM.canonicalizeInPlace (DBM.constrain d.bounds f) with
    | none => simp [already, found, DBM.empty] at nonempty
    | some constrained => exact canonicalize_names

variable [IsStrictOrderedRing R]

/-- The reading of the transitions of a list once time has passed. -/
theorem letTimePass_readings {d : DBM} {ts : List (NetTransition net)} {δ : R}
    (h : Contains d (readings ν ts)) (clocks : d.clockNames.length = ts.length) (past : 0 ≤ δ)
    (room : ∀ t ∈ ts, δ ≤ ν t) : Contains d.letTimePass (readings (fun t => ν t - δ) ts) := by
  have reads (k : Nat) (lt : k < ts.length) : readings ν ts k = ν ts[k] :=
    readings_of_getElem? (List.getElem?_eq_getElem lt)
  have passed := letTimePass_contains h past fun k lt => by
    rw [reads k (clocks ▸ lt)]
    exact room _ (List.getElem_mem _)
  refine passed.congr fun k lt => ?_
  rw [letTimePass_names, clocks] at lt
  rw [reads k lt, readings_of_getElem? (List.getElem?_eq_getElem lt)]

/-- Putting a domain in canonical order and letting time pass. -/
theorem inCanonicalOrder_holds {marking : MarkingState} {domain : DBM}
    {enabled : List (NetTransition net)} {δ : R}
    (h : Contains domain (readings ν enabled))
    (clocks : domain.clockNames.length = enabled.length) (past : 0 ≤ δ)
    (room : ∀ t ∈ enabled, δ ≤ ν t) :
    InDomain (inCanonicalOrder marking domain enabled) fun t => ν t - δ := by
  unfold inCanonicalOrder
  cases ordered : canonicalOrder enabled with
  | none =>
    refine ⟨letTimePass_readings h clocks past room, ?_⟩
    dsimp only
    rw [letTimePass_names, clocks]
  | some order =>
    have perm := canonicalOrder_perm ordered
    have inside : ∀ k ∈ order, k < enabled.length := fun k mem =>
      List.mem_range.mp (perm.mem_iff.mp mem)
    have length : order.length = enabled.length := by simpa using perm.length_eq
    have permuted : Contains (domain.permuted order) (readings ν (permute enabled order)) := by
      refine permuted_contains h (length.trans clocks.symm) fun i k at_ => ?_
      have lt := inside k (List.mem_iff_getElem?.mpr ⟨i, at_⟩)
      refine ⟨clocks ▸ lt, ?_⟩
      have there := (getElem?_permute inside at_).trans (List.getElem?_eq_getElem lt)
      rw [readings_of_getElem? there, readings_of_getElem? (List.getElem?_eq_getElem lt)]
    have names : (domain.permuted order).clockNames.length = (permute enabled order).length := by
      unfold DBM.permuted
      rw [h.nonempty, length_permute inside]
      simp
    refine ⟨letTimePass_readings permuted names past fun t mem => ?_, ?_⟩
    · exact room t ((permute_perm perm).mem_iff.mp mem)
    · dsimp only
      rw [letTimePass_names, names]

theorem create_readings {untimed : Bool} {ts : List (NetTransition net)}
    (starts : ∀ t ∈ ts, Clock.Admits (clockOf untimed t) (ν t)) :
    Contains (DBM.create (ts.map (clockOf untimed))) (readings ν ts) := by
  refine create_contains fun k c at_ => ?_
  obtain ⟨t, there, rfl⟩ := Option.map_eq_some_iff.mp ((List.getElem?_map ..).symm.trans at_)
  rw [readings_of_getElem? there]
  exact starts t (List.mem_iff_getElem?.mpr ⟨k, there⟩)

theorem create_length (untimed : Bool) (ts : List (NetTransition net)) :
    (DBM.create (ts.map (clockOf untimed))).clockNames.length = ts.length := by
  rw [DBM.create, canonicalize_names]
  simp

theorem initialStateClass_holds {env : Environment} {untimed : Bool} {marking : MarkingState} {δ : R}
    (starts : ∀ t ∈ (initialStateClass net env untimed marking).enabledTransitions,
      Clock.Admits (clockOf untimed t) (ν t))
    (past : 0 ≤ δ)
    (room : ∀ t ∈ (initialStateClass net env untimed marking).enabledTransitions, δ ≤ ν t) :
    InDomain (initialStateClass net env untimed marking) fun t => ν t - δ := by
  refine ⟨letTimePass_readings (create_readings starts) (create_length _ _) past room, ?_⟩
  exact (congrArg List.length letTimePass_names).trans (create_length _ _)

/-- What the clocks read behind a firing: the persistent ones go on, the others start. -/
structure Continues (env : Environment) (untimed : Bool) (current : StateClass net)
    (fired : VirtualTransition net) (ν ν' : NetTransition net → R) : Prop where
  mem : fired.transition ∈ current.enabledTransitions
  first : ∀ t ∈ current.enabledTransitions, ν fired.transition ≤ ν t
  continues : ∀ t ∈ (computeSuccessor env untimed none current fired).enabledTransitions,
    if t ∈ current.enabledTransitions ∧ t ≠ fired.transition ∧
        isEnabled env (transitionAt t)
          (consumeInputs env current.marking (transitionAt fired.transition)) = true
    then ν' t = ν t - ν fired.transition
    else Clock.Admits (clockOf untimed t) (ν' t)

theorem computeSuccessor_holds {env : Environment} {untimed : Bool} {current : StateClass net}
    {fired : VirtualTransition net} {δ : R} (h : InDomain current ν)
    (continues : Continues env untimed current fired ν ν') (past : 0 ≤ δ)
    (room : ∀ t ∈ (computeSuccessor env untimed none current fired).enabledTransitions, δ ≤ ν' t) :
    InDomain (computeSuccessor env untimed none current fired) fun t => ν' t - δ := by
  obtain ⟨mem, first, continues⟩ := continues
  unfold computeSuccessor at continues room ⊢
  dsimp only at continues room ⊢
  simp only [Option.all_none, List.filter_true, (inCanonicalOrder_perm _ _ _).mem_iff]
    at continues room ⊢
  set intermediate := consumeInputs env current.marking (transitionAt fired.transition)
  set newMarking := produceOutputs env current.marking intermediate
    (transitionAt fired.transition) fired.outcome
  set all := findEnabledTransitions net env newMarking
  set indices := persistentIndices env none current fired.transition intermediate all
  set persistent := permute current.enabledTransitions indices
  set newly := all.filter fun u => !persistent.contains u
  have clocks := h.clocks
  have at_fired := List.getElem?_idxOf mem
  have firedReads : readings ν current.enabledTransitions
      (current.enabledTransitions.idxOf fired.transition) = ν fired.transition :=
    readings_of_getElem? at_fired
  have fires : RunsOut current.firingDomain (current.enabledTransitions.idxOf fired.transition)
      (newly.map (clockOf untimed)) indices (readings ν current.enabledTransitions)
      (readings ν' (persistent ++ newly)) := by
    refine ⟨?_, ?_, ?_, ?_⟩
    · rw [clocks]
      exact List.idxOf_lt_length_of_mem mem
    · intro k lt
      rw [clocks] at lt
      rw [firedReads, readings_of_getElem? (List.getElem?_eq_getElem lt)]
      exact first _ (List.getElem_mem _)
    · intro p k at_
      have inside : ∀ k ∈ indices, k < current.enabledTransitions.length := persistentIndices_lt
      have lt := inside k (List.mem_iff_getElem?.mpr ⟨p, at_⟩)
      have there := (getElem?_permute inside at_).trans (List.getElem?_eq_getElem lt)
      have old : current.enabledTransitions[k] ∈ persistent := List.mem_iff_getElem?.mpr ⟨p, there⟩
      have behind : (persistent ++ newly)[p]? = some current.enabledTransitions[k] := by
        rw [List.getElem?_append_left (List.getElem?_eq_some_iff.mp there).1]
        exact there
      obtain ⟨here, other, -, between, -⟩ := mem_persistent.mp old
      have reads := continues _ (List.mem_append_left _ old)
      rw [if_pos ⟨here, other, between⟩] at reads
      rw [clocks, firedReads, readings_of_getElem? behind, reads,
        readings_of_getElem? (List.getElem?_eq_getElem lt)]
      exact ⟨lt, rfl⟩
    · intro k c at_
      obtain ⟨t, there, rfl⟩ := Option.map_eq_some_iff.mp ((List.getElem?_map ..).symm.trans at_)
      have new : t ∈ newly := List.mem_iff_getElem?.mpr ⟨k, there⟩
      have behind : (persistent ++ newly)[indices.length + k]? = some t := by
        have length : persistent.length = indices.length := length_permute persistentIndices_lt
        rw [← length, List.getElem?_append_right (Nat.le_add_right _ _), Nat.add_sub_cancel_left]
        exact there
      have reads := continues t (List.mem_append_right _ new)
      rw [if_neg] at reads
      · rw [readings_of_getElem? behind]
        exact reads
      · rintro ⟨here, other, between⟩
        obtain ⟨enabled, absent⟩ := List.mem_filter.mp new
        have : t ∉ persistent := by simpa using absent
        exact this (mem_persistent.mpr ⟨here, other, enabled, between, rfl⟩)
  refine inCanonicalOrder_holds (fireTransition_contains h.contains fires) ?_ past room
  have fired := fireTransition_contains h.contains fires
  have length : persistent.length = indices.length := length_permute persistentIndices_lt
  rw [fireTransition_names fired.nonempty]
  simp [length]

end Domains

end LibPetri.Verified
