import LibPetri.Composition.PetriNetBuilder

/-! # What a composition adds

A composition rewrites the transitions of an instance onto the host, merges those of bound channels into the
caller's and adds the others.  The result is read off the call: the caller's other transitions, one merged
transition for each channel, and the rest of the instance.
-/

namespace LibPetri.Verified

open LibPetri.Basis LibPetri.Core LibPetri.Composition

variable {V N A : Type}

/-! ## The working map -/

/-- A transition of the instance and its copy on the places of the host. -/
structure Substituted (remap : Remap) (b b' : BoundTransition V N A) : Prop where
  transition : substitutePlaces b.transition remap = .ok b'.transition
  action : b'.action = b.action

theorem substituted_of_rewriteBound {pre : String} {remap : Remap} {portOf : OrderedMap PlaceName String}
    {b b' : BoundTransition V N A} (h : rewriteBound pre remap portOf b = .ok b') : Substituted remap b b' := by
  obtain ⟨_, _, h⟩ := exists_of_bind_eq_ok h
  obtain ⟨t, substituted, h⟩ := exists_of_bind_eq_ok h
  cases h
  exact ⟨substituted, rfl⟩

/-- An entry of the working map, for a transition of the instance. -/
def Staged (remap : Remap) (b : BoundTransition V N A) (e : String × BoundTransition V N A) : Prop :=
  e.1 = b.transition.name ∧ Substituted remap b e.2

/-- With distinct names each transition has an entry of its own. -/
theorem foldlM_staged {remap : Remap} {f : BoundTransition V N A → Except Thrown (BoundTransition V N A)}
    (rewrites : ∀ b b', f b = .ok b' → Substituted remap b b') {body : List (BoundTransition V N A)}
    {known staged : OrderedMap String (BoundTransition V N A)}
    (distinct : (known.keys ++ body.map fun b => b.transition.name).Nodup)
    (h : body.foldlM (fun known b => do
      let b' ← f b
      pure (known.set b.transition.name b')) known = .ok staged) :
    ∃ added, staged.entries = known.entries ++ added ∧ List.Forall₂ (Staged remap) body added := by
  induction body generalizing known with
  | nil =>
    cases h
    exact ⟨[], (List.append_nil _).symm, .nil⟩
  | cons b body ih =>
    rw [List.foldlM_cons] at h
    obtain ⟨next, first, rest⟩ := exists_of_bind_eq_ok h
    obtain ⟨b', rewritten, set⟩ := exists_of_bind_eq_ok first
    cases set
    have absent : known.get? b.transition.name = none := by
      rw [OrderedMap.get?_eq_none_iff]
      intro mem
      exact (List.nodup_append.mp distinct).2.2 _ mem _ (by simp) rfl
    have entries := OrderedMap.set_of_absent known b' absent
    have keys : (known.set b.transition.name b').keys = known.keys ++ [b.transition.name] := by
      rw [OrderedMap.keys, entries, List.map_append]
      rfl
    obtain ⟨added, same, each⟩ := ih (by rw [keys, List.append_assoc]; exact distinct) rest
    refine ⟨(b.transition.name, b') :: added, ?_, .cons ⟨rfl, rewrites b b' rewritten⟩ each⟩
    rw [same, entries, List.append_assoc]
    rfl

theorem staged_of_stage {inst : Instance V N A} {remap : Remap}
    {staged : OrderedMap String (BoundTransition V N A)}
    (distinct : (inst.renamedTransitions.map fun b => b.transition.name).Nodup)
    (h : stage inst remap = .ok staged) :
    List.Forall₂ (Staged remap) inst.renamedTransitions staged.entries := by
  have none_known : ((OrderedMap.empty : OrderedMap String (BoundTransition V N A)).keys ++
      inst.renamedTransitions.map fun b => b.transition.name).Nodup := distinct
  obtain ⟨added, same, each⟩ := foldlM_staged (fun _ _ => substituted_of_rewriteBound) none_known h
  rw [same]
  exact each

/-! ## Adding new objects -/

theorem transitions_addNew (B : PetriNetBuilder V N A) (b : BoundTransition V N A) :
    (B.addNew b).transitions = B.transitions ++ [⟨b, B.next⟩] := by
  refine if_neg fun mem => ?_
  exact absurd (B.refs_lt B.next mem) (Nat.lt_irrefl _)

theorem next_addNew (B : PetriNetBuilder V N A) (b : BoundTransition V N A) : (B.addNew b).next = B.next + 1 :=
  max_eq_right (Nat.le_succ _)

/-- An object for what was added. -/
def HeldBy (b : BoundTransition V N A) (o : TransitionObject V N A) : Prop := o.toBoundTransition = b

theorem transitions_foldl_addNew (bs : List (BoundTransition V N A)) (B : PetriNetBuilder V N A) :
    ∃ added, (bs.foldl PetriNetBuilder.addNew B).transitions = B.transitions ++ added ∧
      List.Forall₂ HeldBy bs added := by
  induction bs generalizing B with
  | nil => exact ⟨[], (List.append_nil _).symm, .nil⟩
  | cons b bs ih =>
    obtain ⟨added, same, each⟩ := ih (B.addNew b)
    refine ⟨⟨b, B.next⟩ :: added, ?_, .cons rfl each⟩
    rw [List.foldl_cons, same, transitions_addNew, List.append_assoc]
    rfl

theorem filter_filter_of_iff {α : Type} {p q r : α → Bool} (l : List α)
    (both : ∀ a, q a = true ∧ p a = true ↔ r a = true) : (l.filter p).filter q = l.filter r := by
  rw [List.filter_filter]
  refine List.filter_congr fun a _ => ?_
  rw [Bool.eq_iff_iff, Bool.and_eq_true]
  exact both a

/-! ## Channels -/

section Channels

variable (showMs : Ms → String) (inst : Instance V N A)

/-- The object a channel leaves: the caller's transition merged with the one that the channel exposes. -/
def Fused (staged : OrderedMap String (BoundTransition V N A)) (e : String × TransitionObject V N A)
    (o : TransitionObject V N A) : Prop :=
  ∃ name rewritten, inst.channelHandles.get? e.1 = some name ∧ staged.get? name = some rewritten ∧
    mergeTransitions showMs e.2.transition rewritten.transition e.2.transition.name = .ok o.transition ∧
    o.action = composeActions e.2.action rewritten.action

/-- What merging a list of channels makes of the builder and of the working map. -/
structure Fuses (channels : List (String × TransitionObject V N A)) (s s' : Merging V N A) : Prop where
  transitions : ∃ fused, s'.builder.transitions =
      s.builder.transitions.filter (fun o => o.ref ∉ channels.map fun e => e.2.ref) ++ fused ∧
    List.Forall₂ (Fused showMs inst s.rewrittenByName) channels fused
  rest : s'.rewrittenByName.entries = s.rewrittenByName.entries.filter fun e =>
    some e.1 ∉ channels.map fun c => inst.channelHandles.get? c.1
  size : s'.rewrittenByName.size + channels.length = s.rewrittenByName.size

variable {showMs inst}

theorem Fused.of_delete {staged : OrderedMap String (BoundTransition V N A)} {name : String}
    {e : String × TransitionObject V N A} {o : TransitionObject V N A}
    (h : Fused showMs inst (staged.delete name) e o) : Fused showMs inst staged e o := by
  obtain ⟨name', rewritten, handle, present, merged, action⟩ := h
  rw [OrderedMap.get?_delete] at present
  split at present
  · cases present
  · exact ⟨name', rewritten, handle, present, merged, action⟩

/-- One channel. -/
theorem mergeChannel_spec {s s' : Merging V N A} {e : String × TransitionObject V N A}
    (h : mergeChannel showMs inst s e = .ok s') :
    ∃ name o, inst.channelHandles.get? e.1 = some name ∧ Fused showMs inst s.rewrittenByName e o ∧
      o.ref = s.builder.next ∧ s'.builder.next = s.builder.next + 1 ∧
      s'.builder.transitions = s.builder.transitions.filter (fun o => o.ref ≠ e.2.ref) ++ [o] ∧
      s'.rewrittenByName = s.rewrittenByName.delete name ∧ (s.rewrittenByName.get? name).isSome := by
  rw [mergeChannel] at h
  split at h
  · cases h
  next name handle =>
    split at h
    · cases h
    next rewritten present =>
      obtain ⟨merged, merges, h⟩ := exists_of_bind_eq_ok h
      cases h
      refine ⟨name, ⟨⟨merged, composeActions e.2.action rewritten.action⟩, s.builder.next⟩, handle,
        ⟨name, rewritten, handle, present, merges, rfl⟩, rfl, ?_, ?_, rfl, ?_⟩
      · exact next_addNew _ _
      · exact transitions_addNew _ _
      · rw [present]
        rfl

/-- A run of the channel loop, by induction on the bindings: an object the loop has made is none of the
callers, so no later channel deletes it. -/
theorem foldlM_mergeChannel {channels : List (String × TransitionObject V N A)} {s s' : Merging V N A}
    (known : ∀ e ∈ channels, e.2.ref < s.builder.next)
    (h : channels.foldlM (mergeChannel showMs inst) s = .ok s') : Fuses showMs inst channels s s' := by
  induction channels generalizing s with
  | nil =>
    cases h
    refine ⟨⟨[], ?_, .nil⟩, ?_, rfl⟩
    · rw [List.append_nil]
      exact (List.filter_eq_self.mpr fun o _ => by simp).symm
    · exact (List.filter_eq_self.mpr fun e _ => by simp).symm
  | cons e channels ih =>
    rw [List.foldlM_cons] at h
    obtain ⟨mid, first, rest⟩ := exists_of_bind_eq_ok h
    obtain ⟨name, o, handle, fused, fresh, next, transitions, left, present⟩ := mergeChannel_spec first
    have later := ih (fun c mem => by
      rw [next]
      exact Nat.lt_succ_of_lt (known c (List.mem_cons_of_mem _ mem))) rest
    obtain ⟨objects, same, each⟩ := later.transitions
    refine ⟨⟨o :: objects, ?_, .cons fused (each.imp fun _ _ f => Fused.of_delete (left ▸ f))⟩, ?_, ?_⟩
    · have stays : ([o].filter fun o => o.ref ∉ channels.map fun c => c.2.ref) = [o] := by
        refine List.filter_eq_self.mpr fun o' mem => ?_
        rw [List.mem_singleton.mp mem]
        refine decide_eq_true fun inside => ?_
        obtain ⟨c, cmem, ref⟩ := List.mem_map.mp inside
        have := known c (List.mem_cons_of_mem _ cmem)
        omega
      rw [same, transitions, List.filter_append, stays, List.append_assoc]
      congr 1
      refine filter_filter_of_iff _ fun o' => ?_
      simp only [decide_eq_true_eq, List.map_cons, List.mem_cons, not_or, and_comm]
    · rw [later.rest, left, OrderedMap.delete]
      refine filter_filter_of_iff _ fun c => ?_
      simp only [decide_eq_true_eq, List.map_cons, List.mem_cons, not_or, and_comm, handle, Option.some_inj]
    · obtain ⟨rewritten, found⟩ := Option.isSome_iff_exists.mp present
      have smaller := OrderedMap.size_delete_of_present s.rewrittenByName found
      have size := later.size
      rw [left] at size
      rw [List.length_cons]
      omega

end Channels

/-! ## The whole composition -/

theorem filter_length_add {α : Type} (p : α → Bool) (l : List α) :
    (l.filter p).length + (l.filter fun a => !p a).length = l.length := by
  induction l with
  | nil => rfl
  | cons a l ih =>
    by_cases h : p a = true
    · rw [List.filter_cons_of_pos h, List.filter_cons_of_neg (by rw [h]; exact Bool.false_ne_true)]
      simp only [List.length_cons]
      omega
    · rw [List.filter_cons_of_neg h, List.filter_cons_of_pos (by simpa using h)]
      simp only [List.length_cons]
      omega

theorem exists_of_mem_right {α β : Type} {R : α → β → Prop} {l : List α} {l' : List β} (h : List.Forall₂ R l l')
    {b : β} (mem : b ∈ l') : ∃ a ∈ l, R a b := by
  induction h with
  | nil => cases mem
  | cons r _ ih =>
    rcases List.mem_cons.mp mem with rfl | mem
    · exact ⟨_, List.mem_cons_self, r⟩
    · obtain ⟨a, amem, r'⟩ := ih mem
      exact ⟨a, List.mem_cons_of_mem _ amem, r'⟩

theorem forall₂_comp {α β γ : Type} {R : α → β → Prop} {S : β → γ → Prop} {l : List α} {l' : List β} {l'' : List γ}
    (h : List.Forall₂ R l l') (h' : List.Forall₂ S l' l'') :
    List.Forall₂ (fun a c => ∃ b, R a b ∧ S b c) l l'' := by
  induction h generalizing l'' with
  | nil =>
    cases h'
    exact .nil
  | cons r _ ih =>
    cases h' with
    | cons s rest => exact .cons ⟨_, r, s⟩ (ih rest)

/-- The caller's transition of a channel, merged with the transition of the instance that it exposes. -/
def MergedInto (showMs : Ms → String) (remap : Remap) (body : List (BoundTransition V N A))
    (exposed : String → Option String) (e : String × TransitionObject V N A) (o : TransitionObject V N A) : Prop :=
  ∃ b ∈ body, exposed e.1 = some b.transition.name ∧ ∃ t, Renamed remap b.transition t ∧
    mergeTransitions showMs e.2.transition t e.2.transition.name = .ok o.transition ∧
    o.action = composeActions e.2.action b.action

/-- A transition of the instance on the places of the host, otherwise unchanged. -/
def Moved (remap : Remap) (b : BoundTransition V N A) (o : TransitionObject V N A) : Prop :=
  Renamed remap b.transition o.transition ∧ o.action = b.action

/-- What the caller had and has not bound, one merged transition for each channel, and what is left of the
instance.  The last equation counts. -/
def Composed (showMs : Ms → String) (B B' : PetriNetBuilder V N A) (body : List (BoundTransition V N A))
    (channels : List (String × TransitionObject V N A)) (exposed : String → Option String) : Prop :=
  ∃ remap merged moved,
    B'.transitions = B.transitions.filter (fun o => o.ref ∉ channels.map fun e => e.2.ref) ++ merged ++ moved ∧
    List.Forall₂ (MergedInto showMs remap body exposed) channels merged ∧
    List.Forall₂ (Moved remap)
      (body.filter fun b => some b.transition.name ∉ channels.map fun e => exposed e.1) moved ∧
    B'.transitions.length + (channels.filter fun e => e.2.ref ∈ B.refs).length =
      B.transitions.length + body.length

/-- Each bound transition that the builder held leaves it once. -/
theorem length_filter_bound (B : PetriNetBuilder V N A) {channels : List (String × TransitionObject V N A)}
    (single : (channels.map fun e => e.2.ref).Nodup) :
    (B.transitions.filter fun o => o.ref ∉ channels.map fun e => e.2.ref).length +
      (channels.filter fun e => e.2.ref ∈ B.refs).length = B.transitions.length := by
  have perm : ((B.transitions.filter fun o => o.ref ∈ channels.map fun e => e.2.ref).map TransitionObject.ref).Perm
      ((channels.filter fun e => e.2.ref ∈ B.refs).map fun e => e.2.ref) := by
    refine (List.perm_ext_iff_of_nodup (B.kept_nodup _) ((List.filter_sublist.map _).nodup single)).mpr fun ref => ?_
    simp only [List.mem_map, List.mem_filter, decide_eq_true_eq, PetriNetBuilder.refs]
    constructor
    · rintro ⟨o, ⟨mem, e, emem, same⟩, rfl⟩
      exact ⟨e, ⟨emem, o, mem, same.symm⟩, same⟩
    · rintro ⟨e, ⟨emem, o, mem, same⟩, rfl⟩
      exact ⟨o, ⟨mem, e, emem, same.symm⟩, same⟩
  have counted := perm.length_eq
  rw [List.length_map, List.length_map] at counted
  rw [← counted, Nat.add_comm]
  convert filter_length_add (fun o : TransitionObject V N A => decide (o.ref ∈ channels.map fun e => e.2.ref))
    B.transitions using 3
  refine List.filter_congr fun o _ => ?_
  rw [decide_not]

section Instances

variable {showMs : Ms → String} {B B' : PetriNetBuilder V N A} {inst : Instance V N A}
  (channelBindings : OrderedMap String (TransitionObject V N A))

theorem applyComposition_joined {mergeMap : Remap}
    (known : ∀ e ∈ channelBindings.entries, e.2.ref < B.next)
    (single : (channelBindings.entries.map fun e => e.2.ref).Nodup)
    (distinct : (inst.renamedTransitions.map fun b => b.transition.name).Nodup)
    (h : applyComposition showMs B inst mergeMap channelBindings = .ok B') :
    Composed showMs B B' inst.renamedTransitions channelBindings.entries inst.channelHandles.get? := by
  obtain ⟨_, -, h⟩ := exists_of_bind_eq_ok h
  obtain ⟨staged, stages, h⟩ := exists_of_bind_eq_ok h
  obtain ⟨fusing, merges, h⟩ := exists_of_bind_eq_ok h
  cases h
  have body := staged_of_stage distinct stages
  have fuses := foldlM_mergeChannel known merges
  obtain ⟨merged, transitions, fused⟩ := fuses.transitions
  have transitions : fusing.builder.transitions =
      B.transitions.filter (fun o => o.ref ∉ channelBindings.entries.map fun e => e.2.ref) ++ merged := transitions
  obtain ⟨moved, added, held⟩ := transitions_foldl_addNew fusing.rewrittenByName.values fusing.builder
  refine ⟨mergeMap, merged, moved, ?_, fused.imp ?_, ?_, ?_⟩
  · rw [added, transitions]
  · rintro e o ⟨name, rewritten, handle, present, merges, action⟩
    obtain ⟨b, mem, named, copied⟩ := exists_of_mem_right body (OrderedMap.get?_eq_some_iff _ |>.mp present)
    have named : name = b.transition.name := named
    refine ⟨b, mem, ?_, rewritten.transition, renamed_of_substitutePlaces copied.transition, merges, ?_⟩
    · rw [handle, named]
    · rw [action, copied.action]
  · have left := List.rel_filter (p := fun b => decide (some b.transition.name ∉
        channelBindings.entries.map fun e => inst.channelHandles.get? e.1))
      (q := fun e => decide (some e.1 ∉ channelBindings.entries.map fun e => inst.channelHandles.get? e.1))
      (fun b e (s : Staged mergeMap b e) => by simp only [s.1]) body
    rw [OrderedMap.values, fuses.rest, List.forall₂_map_left_iff] at held
    refine (forall₂_comp left held).imp ?_
    rintro b o ⟨e, ⟨-, copied⟩, held⟩
    have held : o.toBoundTransition = e.2 := held
    refine ⟨?_, ?_⟩
    · rw [held]
      exact renamed_of_substitutePlaces copied.transition
    · rw [held, copied.action]
  · have removed := length_filter_bound B single
    have size : fusing.rewrittenByName.entries.length + channelBindings.entries.length = staged.entries.length :=
      fuses.size
    have sizes := body.length_eq
    have fresh := fused.length_eq
    have rest := held.length_eq
    rw [OrderedMap.values, List.length_map] at rest
    rw [added, transitions, List.length_append, List.length_append]
    omega

theorem composeInternal_joined {portMappings : OrderedMap String PlaceName}
    (known : ∀ e ∈ channelBindings.entries, e.2.ref < B.next)
    (single : (channelBindings.entries.map fun e => e.2.ref).Nodup)
    (distinct : (inst.renamedTransitions.map fun b => b.transition.name).Nodup)
    (h : composeInternal showMs B inst portMappings channelBindings = .ok B') :
    Composed showMs B B' inst.renamedTransitions channelBindings.entries inst.channelHandles.get? := by
  obtain ⟨_, -, h⟩ := exists_of_bind_eq_ok h
  exact applyComposition_joined _ known single distinct h

omit channelBindings in
theorem composeAuto_joined (distinct : (inst.renamedTransitions.map fun b => b.transition.name).Nodup)
    (h : composeAuto showMs B inst = .ok B') :
    Composed showMs B B' inst.renamedTransitions [] inst.channelHandles.get? := by
  rw [composeAuto] at h
  split at h
  · cases h
  split at h
  · exact composeInternal_joined OrderedMap.empty (fun _ => nofun) List.nodup_nil distinct h
  · exact applyComposition_joined OrderedMap.empty (fun _ => nofun) List.nodup_nil distinct h

end Instances

/-! ## Direct composition -/

theorem transitions_foldl_place (places : List PlaceName) (B : PetriNetBuilder V N A) :
    (places.foldl PetriNetBuilder.place B).transitions = B.transitions := by
  induction places generalizing B with
  | nil => rfl
  | cons p places ih =>
    rw [List.foldl_cons, ih]
    rfl

theorem foldlM_addSubstituted {mergeMap : Remap} {body : List (BoundTransition V N A)}
    {B B' : PetriNetBuilder V N A} (h : body.foldlM (addSubstituted mergeMap) B = .ok B') :
    ∃ moved, B'.transitions = B.transitions ++ moved ∧ List.Forall₂ (Moved mergeMap) body moved := by
  induction body generalizing B with
  | nil =>
    cases h
    exact ⟨[], (List.append_nil _).symm, .nil⟩
  | cons b body ih =>
    rw [List.foldlM_cons] at h
    obtain ⟨mid, first, rest⟩ := exists_of_bind_eq_ok h
    obtain ⟨t, substituted, first⟩ := exists_of_bind_eq_ok first
    cases first
    obtain ⟨moved, transitions, each⟩ := ih rest
    rw [transitions_addNew] at transitions
    refine ⟨⟨⟨t, b.action⟩, B.next⟩ :: moved, ?_, .cons ⟨renamed_of_substitutePlaces substituted, rfl⟩ each⟩
    rw [transitions, List.append_assoc]
    rfl

theorem composeDirect_joined {showMs : Ms → String} {B B' : PetriNetBuilder V N A} {sub : SubnetDef V N A}
    (h : composeDirect B sub = .ok B') : Composed showMs B B' sub.transitions [] fun _ => none := by
  obtain ⟨_, -, h⟩ := exists_of_bind_eq_ok h
  obtain ⟨_, -, h⟩ := exists_of_bind_eq_ok h
  obtain ⟨_, -, h⟩ := exists_of_bind_eq_ok h
  obtain ⟨moved, transitions, each⟩ := foldlM_addSubstituted h
  rw [transitions_foldl_place] at transitions
  refine ⟨sharedPlaces B sub, [], moved, ?_, .nil, ?_, ?_⟩
  · rw [transitions, List.append_nil, List.map_nil, List.filter_eq_self.mpr fun o _ => decide_eq_true List.not_mem_nil]
  · rw [List.map_nil, List.filter_eq_self.mpr fun b _ => decide_eq_true List.not_mem_nil]
    exact each
  · rw [transitions, List.length_append, each.length_eq]
    rfl

/-! ## Every call -/

/-- The transitions of the instance or of the subnet that joins. -/
def bodyOf : ComposeArgs V N A → List (BoundTransition V N A)
  | .direct sub => sub.transitions
  | .auto inst => inst.renamedTransitions
  | .mapped inst _ => inst.renamedTransitions
  | .bound inst _ => inst.renamedTransitions

/-- The channel of a binding, with the caller's transition. -/
def channelOf : Binding V N A → Option (String × TransitionObject V N A)
  | .port _ _ => none
  | .channel channelName callerTransition => some (channelName, callerTransition)

/-- The channels a call binds, each to a transition of the caller. -/
def channelsOf : ComposeArgs V N A → List (String × TransitionObject V N A)
  | .bound _ bindings => bindings.filterMap channelOf
  | .direct _ => []
  | .auto _ => []
  | .mapped _ _ => []

/-- The name of the transition that a channel exposes. -/
def exposedBy : ComposeArgs V N A → String → Option String
  | .direct _ => fun _ => none
  | .auto inst => inst.channelHandles.get?
  | .mapped inst _ => inst.channelHandles.get?
  | .bound inst _ => inst.channelHandles.get?

/-- No two transitions of an instance share a name. -/
def NamesApart : ComposeArgs V N A → Prop
  | .direct _ => True
  | .auto inst => (inst.renamedTransitions.map fun b => b.transition.name).Nodup
  | .mapped inst _ => (inst.renamedTransitions.map fun b => b.transition.name).Nodup
  | .bound inst _ => (inst.renamedTransitions.map fun b => b.transition.name).Nodup

theorem entries_of_record {bindings : List (Binding V N A)} {b b' : ComposeBindings V N A}
    (h : bindings.foldlM ComposeBindings.record b = .ok b') :
    b'.channelBindings.entries = b.channelBindings.entries ++ bindings.filterMap channelOf := by
  induction bindings generalizing b with
  | nil =>
    cases h
    exact (List.append_nil _).symm
  | cons binding bindings ih =>
    rw [List.foldlM_cons] at h
    obtain ⟨mid, first, rest⟩ := exists_of_bind_eq_ok h
    rw [ih rest]
    cases binding with
    | port portName callerPlace =>
      rw [ComposeBindings.record] at first
      split at first
      · cases first
      · cases first
        rfl
    | channel channelName callerTransition =>
      rw [ComposeBindings.record] at first
      split at first
      · cases first
      next free =>
        cases first
        rw [OrderedMap.set_of_absent _ _ (Option.not_isSome_iff_eq_none.mp free), List.append_assoc]
        rfl

/-- A call that is not rejected, binds no transition to two channels, and brings transitions of distinct
names: what it leaves in the builder. -/
theorem compose_joined (showMs : Ms → String) (B : PetriNetBuilder V N A) (args : ComposeArgs V N A)
    (known : ∀ e ∈ channelsOf args, e.2.ref < B.next) (single : ((channelsOf args).map fun e => e.2.ref).Nodup)
    (apart : NamesApart args) : ∀ B', compose showMs B args = .ok B' →
      Composed showMs B B' (bodyOf args) (channelsOf args) (exposedBy args) := by
  intro B' h
  cases args with
  | direct sub => exact composeDirect_joined h
  | auto inst => exact composeAuto_joined apart h
  | mapped inst portMappings => exact composeInternal_joined OrderedMap.empty (fun _ => nofun) List.nodup_nil apart h
  | bound inst bindings =>
    obtain ⟨b, recorded, h⟩ := exists_of_bind_eq_ok h
    have entries : b.channelBindings.entries = bindings.filterMap channelOf := entries_of_record recorded
    have joined := composeInternal_joined b.channelBindings (by rw [entries]; exact known)
      (by rw [entries]; exact single) apart h
    rw [entries] at joined
    exact joined

/-! ## A worker with two channels -/

/-- A transition without arcs. -/
def arcless (name : String) : Transition Unit Unit where
  name := name
  inputSpecs := []
  outputSpec := none
  inhibitors := []
  reads := []
  resets := []
  timing := .immediate
  priority := 0
  placeAlias := []
  matchSpec := none
  inputs_nodup := List.nodup_nil
  required_pos := nofun
  timing_valid := trivial
  keys_nodup := unmatched_nodup
  keys_inputs := unmatched_inputs []

def worker : SubnetDef Unit Unit Unit :=
  ⟨"worker", [], [⟨arcless "ask", []⟩, ⟨arcless "answer", []⟩], [], OrderedMap.empty,
    toMap [("ask", "ask"), ("answer", "answer")]⟩

/-- The worker under the prefix "s". -/
def workerInstance : Instance Unit Unit Unit :=
  ⟨"s", worker, [], [⟨arcless "s/ask", []⟩, ⟨arcless "s/answer", []⟩], OrderedMap.empty,
    toMap [("ask", "s/ask"), ("answer", "s/answer")]⟩

example : worker.instantiate "s" = .ok workerInstance := rfl

/-- A transition of the caller. -/
def serve : TransitionObject Unit Unit Unit := ⟨⟨arcless "serve", []⟩, 0⟩

/-- A host that has the transition, and one that has not. -/
def serving : PetriNetBuilder Unit Unit Unit := (PetriNetBuilder.new "host").transition serve

def notServing : PetriNetBuilder Unit Unit Unit := { PetriNetBuilder.new "host" with next := 1, refs_lt := nofun }

def unprinted (_ : Ms) : String := ""

def askOnly : ComposeArgs Unit Unit Unit := .bound workerInstance [.channel "ask" serve]

theorem compose_joined_worker : ∃ B', compose unprinted serving askOnly = .ok B' ∧
    Composed unprinted serving B' (bodyOf askOnly) (channelsOf askOnly) (exposedBy askOnly) := by
  refine ⟨_, rfl, compose_joined unprinted serving askOnly ?_ ?_ ?_ _ rfl⟩
  · rintro e mem
    cases List.mem_singleton.mp mem
    decide
  · decide
  · show ["s/ask", "s/answer"].Nodup
    decide

/-- Both channels bound to one transition of the caller. -/
def bothChannels : ComposeArgs Unit Unit Unit :=
  .bound workerInstance [.channel "ask" serve, .channel "answer" serve]

/-- A transition bound to two channels is in the result twice, and one that the builder did not have joins it:
neither count is what the host had and the instance brings, less the channels. -/
theorem compose_miscounted :
    (∃ B', compose unprinted serving bothChannels = .ok B' ∧
      B'.transitions.map (fun o => o.transition.name) = ["serve", "serve"] ∧
      B'.transitions.length + (channelsOf bothChannels).length ≠
        serving.transitions.length + (bodyOf bothChannels).length) ∧
    ∃ B', compose unprinted notServing askOnly = .ok B' ∧
      B'.transitions.length + (channelsOf askOnly).length ≠
        notServing.transitions.length + (bodyOf askOnly).length :=
  ⟨⟨_, rfl, by decide, by decide⟩, _, rfl, by decide⟩

end LibPetri.Verified
