import LibPetri.Verified.TimedClasses
import LibPetri.Verified.ZoneKeys

/-! # What deduplication drops

Classes with one marking list the same transitions in the same order, where names tell transitions
apart; their keys then differ as soon as one pair of bounds is rendered differently.  Where every timing
is a whole number of milliseconds nothing is rounded, and a class is dropped only for an identical one.
-/

namespace LibPetri.Verified

open LibPetri.Basis LibPetri.Core LibPetri.Verification LibPetri.Verification.StateClassGraph
open BoundMatrix

variable {V N : Type} {net : PetriNet V N} {env : Environment} {untimed : Bool}

/-! ## Canonical order -/

section Order

variable (net) in
/-- Names tell the transitions of the net apart. -/
def NamedApart : Prop :=
  ∀ s t : NetTransition net, (transitionAt s).name = (transitionAt t).name → s = t

/-- In ascending order of the names. -/
def InOrder (ts : List (NetTransition net)) : Prop :=
  ts.Pairwise fun s t => (transitionAt s).name ≤ (transitionAt t).name

/-- The name the order of an enabled set looks up. -/
def nameAt (ts : List (NetTransition net)) (i : Nat) : String :=
  (ts[i]?.map fun t => (transitionAt t).name).getD ""

theorem nameAt_of_getElem? {ts : List (NetTransition net)} {i : Nat} {t : NetTransition net}
    (at_ : ts[i]? = some t) : nameAt ts i = (transitionAt t).name := by
  simp [nameAt, at_]

theorem inOrder_of_none {ts : List (NetTransition net)} (ordered : canonicalOrder ts = none) :
    InOrder ts := by
  have adjacent : ∀ i < ts.length - 1, nameAt ts i ≤ nameAt ts (i + 1) := by
    unfold canonicalOrder at ordered
    dsimp only at ordered
    split at ordered
    next all => exact fun i lt => by simpa [nameAt] using List.all_eq_true.mp all i (List.mem_range.mpr lt)
    next => cases ordered
  have chain : (ts.map fun t => (transitionAt t).name).IsChain (· ≤ ·) := by
    rw [List.isChain_iff_getElem]
    intro i lt
    rw [List.length_map] at lt
    have step := adjacent i (by omega)
    rw [nameAt_of_getElem? (List.getElem?_eq_getElem (by omega)),
      nameAt_of_getElem? (List.getElem?_eq_getElem lt)] at step
    simpa using step
  exact List.pairwise_map.mp (List.isChain_iff_pairwise.mp chain)

theorem pairwise_permute {α : Type} {R : α → α → Prop} {items : List α} {order : List Nat}
    (related : order.Pairwise fun i j => ∀ a b, items[i]? = some a → items[j]? = some b → R a b) :
    (permute items order).Pairwise R := by
  unfold permute
  rw [List.pairwise_filterMap]
  exact related.imp fun h a at_ b at' => h a b at_ at'

theorem inOrder_permute {ts : List (NetTransition net)} {order : List Nat}
    (ordered : canonicalOrder ts = some order) : InOrder (permute ts order) := by
  unfold canonicalOrder at ordered
  dsimp only at ordered
  split at ordered
  next => cases ordered
  next =>
    obtain rfl := Option.some.inj ordered
    refine pairwise_permute ((List.pairwise_insertionSort
      (fun a b => nameAt ts a ≤ nameAt ts b) (List.range ts.length)).imp ?_)
    intro i j le a b at_ at'
    rwa [nameAt_of_getElem? at_, nameAt_of_getElem? at'] at le

theorem inCanonicalOrder_inOrder (marking : MarkingState) (domain : DBM)
    (enabled : List (NetTransition net)) :
    InOrder (inCanonicalOrder marking domain enabled).enabledTransitions := by
  unfold inCanonicalOrder
  cases ordered : canonicalOrder enabled with
  | none => exact inOrder_of_none ordered
  | some order => exact inOrder_permute ordered

/-- Where names tell them apart there is one order of the same transitions. -/
theorem eq_of_inOrder (apart : NamedApart net) {ts us : List (NetTransition net)} (perm : ts.Perm us)
    (h : InOrder ts) (h' : InOrder us) : ts = us :=
  List.Perm.eq_of_pairwise
    (fun s t _ _ le le' => apart s t (le_antisymm le le')) h h' perm

end Order

/-! ## Shapes -/

section Shapes

theorem canonicalize_dim {m : BoundMatrix} {names : List String}
    (nonempty : (DBM.canonicalize m names).isEmpty = false) :
    (DBM.canonicalize m names).bounds.dim = m.dim := by
  unfold DBM.canonicalize at nonempty ⊢
  cases found : DBM.canonicalizeInPlace m with
  | none =>
    rw [found] at nonempty
    cases nonempty
  | some canon =>
    unfold DBM.canonicalizeInPlace at found
    dsimp only at found
    split at found
    · cases found
    · exact Option.some.inj found ▸ dim_tighten m

theorem letTimePass_dim {d : DBM} (nonempty : d.letTimePass.isEmpty = false) :
    d.letTimePass.bounds.dim = d.bounds.dim := by
  have before := isEmpty_of_letTimePass nonempty
  unfold DBM.letTimePass at nonempty ⊢
  rw [before, if_neg Bool.false_ne_true] at nonempty ⊢
  exact canonicalize_dim nonempty

theorem fireTransition_dim {d : DBM} {f : Nat} {newClocks : List Clock} {persistent : List Nat}
    (nonempty : (d.fireTransition f newClocks persistent).isEmpty = false) :
    (d.fireTransition f newClocks persistent).bounds.dim =
      persistent.length + newClocks.length + 1 := by
  unfold DBM.fireTransition at nonempty ⊢
  cases already : d.isEmpty with
  | true => simp [already] at nonempty
  | false =>
    rw [already, if_neg Bool.false_ne_true] at nonempty
    rw [if_neg Bool.false_ne_true]
    cases found : DBM.canonicalizeInPlace (DBM.constrain d.bounds f) with
    | none =>
      rw [found] at nonempty
      cases nonempty
    | some constrained =>
      rw [found] at nonempty
      exact canonicalize_dim nonempty

theorem map_names_permute {ts : List (NetTransition net)} {order : List Nat}
    (inside : ∀ k ∈ order, k < ts.length) :
    order.map (fun k => (ts.map fun t => (transitionAt t).name).getD k "") =
      (permute ts order).map fun t => (transitionAt t).name := by
  induction order with
  | nil => rfl
  | cons k order ih =>
    have lt := inside k List.mem_cons_self
    have head : permute ts (k :: order) = ts[k] :: permute ts order := by
      simp [permute, List.getElem?_eq_getElem lt]
    rw [head, List.map_cons, List.map_cons, ih fun j mem => inside j (List.mem_cons_of_mem _ mem)]
    simp [List.getD_eq_getElem?_getD, List.getElem?_eq_getElem lt]

/-- A domain with one clock for each transition of a list, named like it. -/
structure ClocksOf (ts : List (NetTransition net)) (d : DBM) : Prop where
  nonempty : d.isEmpty = false
  names : d.clockNames = ts.map fun t => (transitionAt t).name
  dim : d.bounds.dim = ts.length + 1

theorem ClocksOf.ext {ts : List (NetTransition net)} {d e : DBM} (h : ClocksOf ts d)
    (h' : ClocksOf ts e)
    (same : ∀ i < d.bounds.dim, ∀ j < d.bounds.dim, d.bounds.get i j = e.bounds.get i j) : d = e := by
  have bounds := ext_get (h.dim.trans h'.dim.symm) same
  have names := h.names.trans h'.names.symm
  have flag := h.nonempty.trans h'.nonempty.symm
  cases d
  cases e
  simp only at bounds names flag
  rw [bounds, names, flag]

theorem letTimePass_clocksOf {ts : List (NetTransition net)} {d : DBM} (h : ClocksOf ts d)
    (nonempty : d.letTimePass.isEmpty = false) : ClocksOf ts d.letTimePass :=
  ⟨nonempty, letTimePass_names.trans h.names, (letTimePass_dim nonempty).trans h.dim⟩

theorem permuted_clocksOf {ts : List (NetTransition net)} {d : DBM} (h : ClocksOf ts d)
    {order : List Nat} (perm : order.Perm (List.range ts.length)) :
    ClocksOf (permute ts order) (d.permuted order) := by
  have inside : ∀ k ∈ order, k < ts.length := fun k mem => List.mem_range.mp (perm.mem_iff.mp mem)
  refine ⟨(permuted_isEmpty d order).trans h.nonempty, ?_, ?_⟩
  · rw [← map_names_permute inside, ← h.names]
    simp [DBM.permuted, h.nonempty]
  · rw [(permute_perm perm).length_eq]
    simp [DBM.permuted, h.nonempty, h.dim]

theorem inCanonicalOrder_clocksOf {marking : MarkingState} {domain : DBM}
    {enabled : List (NetTransition net)} (h : ClocksOf enabled domain)
    (nonempty : (inCanonicalOrder marking domain enabled).firingDomain.isEmpty = false) :
    ClocksOf (inCanonicalOrder marking domain enabled).enabledTransitions
      (inCanonicalOrder marking domain enabled).firingDomain := by
  unfold inCanonicalOrder at nonempty ⊢
  cases ordered : canonicalOrder enabled with
  | none =>
    rw [ordered] at nonempty
    exact letTimePass_clocksOf h nonempty
  | some order =>
    rw [ordered] at nonempty
    exact letTimePass_clocksOf (permuted_clocksOf h (canonicalOrder_perm ordered)) nonempty

theorem create_clocksOf (untimed : Bool) (ts : List (NetTransition net))
    (nonempty : (DBM.create (ts.map (clockOf untimed))).isEmpty = false) :
    ClocksOf ts (DBM.create (ts.map (clockOf untimed))) := by
  refine ⟨nonempty, ?_, ?_⟩
  · unfold DBM.create
    rw [canonicalize_names, List.map_map]
    rfl
  · unfold DBM.create at nonempty ⊢
    rw [canonicalize_dim nonempty]
    simp [DBM.initialBounds]

/-- What holds of every class of an exploration: it lists what its marking enables, in order of the
names, with one clock for each. -/
structure Shaped (env : Environment) (c : StateClass net) : Prop where
  perm : c.enabledTransitions.Perm (findEnabledTransitions net env c.marking)
  inOrder : InOrder c.enabledTransitions
  clocks : ClocksOf c.enabledTransitions c.firingDomain

theorem Shaped.nodup {c : StateClass net} (h : Shaped env c) : c.enabledTransitions.Nodup :=
  h.perm.nodup_iff.mpr ((List.nodup_finRange _).filter _)

theorem initialStateClass_shaped (untimed : Bool) (marking : MarkingState) :
    Shaped env (initialStateClass net env untimed marking) := by
  have nonempty : (initialStateClass net env untimed marking).firingDomain.isEmpty = false :=
    initialStateClass_nonempty untimed marking
  refine ⟨initialStateClass_perm untimed marking, ?_, ?_⟩
  · unfold initialStateClass
    dsimp only
    cases ordered : canonicalOrder (findEnabledTransitions net env marking) with
    | none => exact inOrder_of_none ordered
    | some order => exact inOrder_permute ordered
  · exact letTimePass_clocksOf (create_clocksOf untimed _ (isEmpty_of_letTimePass nonempty)) nonempty

theorem computeSuccessor_clocksOf {current : StateClass net} (h : Shaped env current)
    {fired : NetTransition net} {intermediate : MarkingState} {all newly : List (NetTransition net)}
    (nonempty : (current.firingDomain.fireTransition (current.enabledTransitions.idxOf fired)
      (newly.map (clockOf untimed))
      (persistentIndices env none current fired intermediate all)).isEmpty = false) :
    ClocksOf (permute current.enabledTransitions
        (persistentIndices env none current fired intermediate all) ++ newly)
      (current.firingDomain.fireTransition (current.enabledTransitions.idxOf fired)
        (newly.map (clockOf untimed))
        (persistentIndices env none current fired intermediate all)) := by
  refine ⟨nonempty, ?_, ?_⟩
  · rw [fireTransition_names nonempty, h.clocks.names, map_names_permute persistentIndices_lt,
      List.map_append, List.map_map]
    rfl
  · rw [fireTransition_dim nonempty]
    simp [length_permute persistentIndices_lt]

theorem computeSuccessor_shaped {current : StateClass net} (h : Shaped env current)
    {fired : VirtualTransition net}
    (nonempty : (computeSuccessor env untimed none current fired).firingDomain.isEmpty = false) :
    Shaped env (computeSuccessor env untimed none current fired) := by
  refine ⟨computeSuccessor_perm untimed h.nodup fired, inCanonicalOrder_inOrder _ _ _, ?_⟩
  unfold computeSuccessor at nonempty ⊢
  obtain ⟨before, -⟩ := inCanonicalOrder_domain nonempty
  exact inCanonicalOrder_clocksOf (computeSuccessor_clocksOf h before) nonempty

end Shapes

/-! ## Keys -/

section Keys

theorem toString_eq_of_tokens {m m' : MarkingState} (same : m.tokens = m'.tokens) :
    m.toString = m'.toString := by
  have perm : m.tokenCounts.entries.Perm m'.tokenCounts.entries := by
    refine (List.perm_ext_iff_of_nodup (List.Nodup.of_map _ m.tokenCounts.nodup)
      (List.Nodup.of_map _ m'.tokenCounts.nodup)).mpr fun e => ?_
    rw [MarkingState.mem_entries_iff, MarkingState.mem_entries_iff, same]
  have sorted (es : List (PlaceName × Nat)) :
      (Runtime.sortByName es).Pairwise fun a b => a.1 ≤ b.1 :=
    List.pairwise_insertionSort (fun a b : PlaceName × Nat => a.1 ≤ b.1) es
  have lists : Runtime.sortByName m.tokenCounts.entries = Runtime.sortByName m'.tokenCounts.entries := by
    refine List.Perm.eq_of_pairwise (fun a b mem mem' le le' => ?_) (sorted _) (sorted _)
      (((List.perm_insertionSort _ _).trans perm).trans (List.perm_insertionSort _ _).symm)
    have here := MarkingState.mem_entries_iff.mp (MarkingState.mem_sortByName.mp mem)
    have there := MarkingState.mem_entries_iff.mp (MarkingState.mem_sortByName.mp mem')
    have name : a.1 = b.1 := le_antisymm le le'
    exact Prod.ext name (by rw [← here.1, ← there.1, name, same])
  unfold MarkingState.toString
  rw [lists]

/-- Matrices of one size have the same text where their bounds round alike. -/
theorem map_formatBound_eq_iff {m m' : BoundMatrix} (dim : m.dim = m'.dim) :
    m.entries.map DBM.formatBound = m'.entries.map DBM.formatBound ↔
      ∀ i < m.dim, ∀ j < m.dim, RoundsAlike (m.get i j) (m'.get i j) := by
  have length := m.length_eq
  have length' := m'.length_eq
  rw [← dim] at length'
  constructor
  · intro same i hi j hj
    have lt := index_lt hi hj
    have texts := congrArg (fun l : List String => l[i * m.dim + j]?) same
    simp only [List.getElem?_map, List.getElem?_eq_getElem (length ▸ lt),
      List.getElem?_eq_getElem (length' ▸ lt), Option.map_some, Option.some.injEq] at texts
    have alike := formatBound_eq_iff.mp texts
    unfold BoundMatrix.get
    rwa [← dim, List.getD_eq_getElem _ _ (length ▸ lt), List.getD_eq_getElem _ _ (length' ▸ lt)]
  · intro alike
    refine List.ext_getElem (by simp [length, length']) fun n lt lt' => ?_
    rw [List.length_map] at lt lt'
    have inside : n < m.dim * m.dim := length ▸ lt
    have pos : 0 < m.dim := Nat.pos_of_mul_pos_left (Nat.zero_lt_of_lt inside)
    have at_ := alike (n / m.dim) (Nat.div_lt_of_lt_mul inside) (n % m.dim) (Nat.mod_lt _ pos)
    unfold BoundMatrix.get at at_
    rw [← dim, Nat.div_add_mod', List.getD_eq_getElem _ _ lt, List.getD_eq_getElem _ _ lt'] at at_
    rw [List.getElem_map, List.getElem_map]
    exact formatBound_eq_iff.mpr at_

/-- Keys of zones of the same transitions are equal where the bounds round alike. -/
theorem zoneKey_eq_iff {ts : List (NetTransition net)} {d e : DBM} (h : ClocksOf ts d)
    (h' : ClocksOf ts e) :
    d.zoneKey = e.zoneKey ↔ ∀ i < d.bounds.dim, ∀ j < d.bounds.dim,
      RoundsAlike (d.bounds.get i j) (e.bounds.get i j) := by
  have dim : d.bounds.dim = e.bounds.dim := h.dim.trans h'.dim.symm
  rw [← map_formatBound_eq_iff dim]
  unfold DBM.zoneKey
  rw [h.nonempty, h'.nonempty, if_neg Bool.false_ne_true, if_neg Bool.false_ne_true, h.names, h'.names]
  constructor
  · intro same
    have some_ (m : BoundMatrix) (pos : 0 < m.dim) : m.entries.map DBM.formatBound ≠ [] := by
      rw [← List.length_pos_iff, List.length_map, m.length_eq]
      exact Nat.mul_pos pos pos
    rw [String.intercalate_cons_of_ne_nil (some_ _ (by rw [h.dim]; exact Nat.succ_pos _)),
      String.intercalate_cons_of_ne_nil (some_ _ (by rw [h'.dim]; exact Nat.succ_pos _))] at same
    have same := congrArg String.toList ((String.append_right_inj _).mp same)
    rw [String.toList_intercalate, String.toList_intercalate] at same
    have free (m : BoundMatrix) : ∀ part ∈ (m.entries.map DBM.formatBound).map String.toList,
        '|' ∉ part := by
      intro part mem
      obtain ⟨text, text_mem, rfl⟩ := List.mem_map.mp mem
      obtain ⟨b, -, rfl⟩ := List.mem_map.mp text_mem
      exact delimiter_not_mem_formatBound b
    have texts := intercalate_singleton_inj (free d.bounds) (free e.bounds)
      (by simp [d.bounds.length_eq, e.bounds.length_eq, dim]) same
    exact List.map_injective_iff.mpr (fun _ _ => String.toList_inj.mp) texts
  · intro same
    rw [same]

/-- The keys of two classes of an exploration with one marking. -/
theorem classKey_eq_iff (apart : NamedApart net) {c d : StateClass net} (hc : Shaped env c)
    (hd : Shaped env d) (same : c.marking.tokens = d.marking.tokens) :
    c.enabledTransitions = d.enabledTransitions ∧
      (classKey c = classKey d ↔ ∀ i < c.firingDomain.bounds.dim, ∀ j < c.firingDomain.bounds.dim,
        RoundsAlike (c.firingDomain.bounds.get i j) (d.firingDomain.bounds.get i j)) := by
  have found : findEnabledTransitions net env c.marking = findEnabledTransitions net env d.marking := by
    simp only [findEnabledTransitions, isEnabled, checkPlaceEnabled, MarkingState.hasTokens, same]
  have listed : c.enabledTransitions = d.enabledTransitions :=
    eq_of_inOrder apart (hc.perm.trans (found ▸ hd.perm.symm)) hc.inOrder hd.inOrder
  refine ⟨listed, ?_⟩
  rw [← zoneKey_eq_iff hc.clocks (listed ▸ hd.clocks)]
  unfold classKey
  rw [toString_eq_of_tokens same, String.append_right_inj]

end Keys

/-! ## Whole milliseconds -/

section Units

variable {G : AddSubgroup ℚ}

theorem inCanonicalOrder_inUnits {marking : MarkingState} {domain : DBM}
    {enabled : List (NetTransition net)} (h : ClocksOf enabled domain) (units : InUnits G domain) :
    InUnits G (inCanonicalOrder marking domain enabled).firingDomain := by
  unfold inCanonicalOrder
  cases ordered : canonicalOrder enabled with
  | none => exact letTimePass_inUnits units
  | some order =>
    have perm := canonicalOrder_perm ordered
    have length : domain.clockNames.length = enabled.length := by simp [h.names]
    refine letTimePass_inUnits (permuted_inUnits units (by rw [h.dim, length]) ?_ ?_)
    · simpa [length] using perm.length_eq
    · intro k mem
      rw [length]
      exact List.mem_range.mp (perm.mem_iff.mp mem)

variable (starts : ∀ t : NetTransition net, Clock.InUnits G (clockOf untimed t))

include starts

theorem starts_inUnits (ts : List (NetTransition net)) :
    ∀ c ∈ ts.map (clockOf untimed), Clock.InUnits G c := by
  intro c mem
  obtain ⟨t, -, rfl⟩ := List.mem_map.mp mem
  exact starts t

theorem initialStateClass_inUnits (marking : MarkingState) :
    InUnits G (initialStateClass net env untimed marking).firingDomain :=
  letTimePass_inUnits (create_inUnits (starts_inUnits starts _))

theorem computeSuccessor_inUnits {current : StateClass net} (h : Shaped env current)
    (units : InUnits G current.firingDomain) {fired : VirtualTransition net}
    (mem : fired.transition ∈ current.enabledTransitions)
    (nonempty : (computeSuccessor env untimed none current fired).firingDomain.isEmpty = false) :
    InUnits G (computeSuccessor env untimed none current fired).firingDomain := by
  unfold computeSuccessor at nonempty ⊢
  obtain ⟨before, -⟩ := inCanonicalOrder_domain nonempty
  have length : current.firingDomain.clockNames.length = current.enabledTransitions.length := by
    simp [h.clocks.names]
  refine inCanonicalOrder_inUnits (computeSuccessor_clocksOf h before) ?_
  refine fireTransition_inUnits (units h.clocks.nonempty) (by rw [h.clocks.dim, length]) ?_
    (starts_inUnits starts _) ?_ h.clocks.nonempty
  · rw [length]
    exact List.idxOf_lt_length_of_mem mem
  · rw [length]
    exact persistentIndices_lt

end Units

variable (net) in
/-- Every timing starts and ends at a whole number of milliseconds. -/
def WholeMilliseconds : Prop :=
  ∀ t : NetTransition net, (∃ n : ℤ, (transitionAt t).timing.earliest = n) ∧
    ∃ n : ℤ, (transitionAt t).timing.latest = n

theorem WholeMilliseconds.clockOf (whole : WholeMilliseconds net) (untimed : Bool)
    (t : NetTransition net) : Clock.InUnits milliseconds (clockOf untimed t) := by
  have timing : (∃ n : ℤ, (if untimed then Timing.immediate else (transitionAt t).timing).earliest = n) ∧
      ∃ n : ℤ, (if untimed then Timing.immediate else (transitionAt t).timing).latest = n := by
    split
    · exact ⟨⟨0, by norm_num [Timing.earliest]⟩, 365 * 100 * 24 * 60 * 60 * 1000, by
        norm_num [Timing.latest, MAX_DURATION_MS]⟩
    · exact whole t
  obtain ⟨⟨n, first⟩, m, last⟩ := timing
  refine ⟨mem_milliseconds.mpr ⟨n, ?_⟩, fun q found => mem_milliseconds.mpr ⟨m, ?_⟩⟩
  · rw [← first]
    rfl
  · rw [← last]
    exact (WithTop.coe_inj.mp found).symm

/-! ## Derived classes -/

section Derived

variable {initialMarking : MarkingState} {stubborn : Bool}

variable (net env untimed stubborn initialMarking) in
/-- The classes firings lead to, where none is dropped. -/
def Derived : StateClass net → Prop :=
  Relation.ReflTransGen (fun c x => ∃ l, (l, x) ∈ successors env untimed stubborn c)
    (initialStateClass net env untimed initialMarking)

theorem Derived.shaped {c : StateClass net}
    (h : Derived net env untimed initialMarking stubborn c) : Shaped env c := by
  induction h with
  | refl => exact initialStateClass_shaped untimed initialMarking
  | tail _ step ih =>
    obtain ⟨l, mem⟩ := step
    obtain ⟨vt, -, -, rfl, nonempty⟩ := successors_computeSuccessor mem
    exact computeSuccessor_shaped ih nonempty

theorem Derived.inUnits {G : AddSubgroup ℚ}
    (starts : ∀ t : NetTransition net, Clock.InUnits G (clockOf untimed t)) {c : StateClass net}
    (h : Derived net env untimed initialMarking stubborn c) : InUnits G c.firingDomain := by
  induction h with
  | refl => exact initialStateClass_inUnits starts initialMarking
  | tail before step ih =>
    obtain ⟨l, mem⟩ := step
    obtain ⟨vt, listed, -, rfl, nonempty⟩ := successors_computeSuccessor mem
    exact computeSuccessor_inUnits starts (Derived.shaped before) ih listed nonempty

theorem tokens_consumeInputs_le (m : MarkingState) (t : Transition V N) {p : PlaceName} :
    (consumeInputs env m t).tokens p ≤ m.tokens p := by
  have inputs (specs : List In) (builder : MarkingState) :
      (specs.foldl (consumeInput env m) builder).tokens p ≤ builder.tokens p := by
    induction specs generalizing builder with
    | nil => exact le_refl _
    | cons spec specs ih =>
      refine (ih _).trans ?_
      unfold consumeInput
      dsimp only
      split
      · exact le_refl _
      · split
        · exact le_refl _
        · rw [MarkingState.tokens_removeTokens]
          split <;> omega
  have resets (ps : List PlaceName) (builder : MarkingState) :
      (ps.foldl (fun builder p => builder.setTokens p 0) builder).tokens p ≤ builder.tokens p := by
    induction ps generalizing builder with
    | nil => exact le_refl _
    | cons q ps ih =>
      refine (ih _).trans ?_
      rw [MarkingState.tokens_setTokens]
      split <;> omega
  exact (resets _ _).trans (inputs _ _)

theorem marked_of_produceOutputs {m intermediate : MarkingState} {t : Transition V N} {o : Outcome}
    {p : PlaceName} (pos : 0 < (produceOutputs env m intermediate t o).tokens p) :
    0 < intermediate.tokens p ∨ p ∈ o.deposits.map Prod.fst := by
  unfold produceOutputs at pos
  generalize o.deposits = deposits at pos ⊢
  induction deposits generalizing intermediate with
  | nil => exact .inl pos
  | cons d ds ih =>
    rcases ih pos with kept | later
    · rw [MarkingState.tokens_addTokens] at kept
      by_cases here : p = d.1
      · exact .inr (here ▸ List.mem_cons_self)
      · rw [if_neg here] at kept
        exact .inl kept
    · exact .inr (List.mem_cons_of_mem _ later)

theorem Derived.of_mem {c : StateClass net} {maxClasses : Nat} {g : StateClassGraph net}
    (built : build net initialMarking maxClasses env ⟨untimed, stubborn⟩ = .ok g) (mem : c ∈ g.classes) :
    Derived net env untimed initialMarking stubborn c :=
  (explored_of_build built).induction (I := Derived net env untimed initialMarking stubborn) .refl
    (fun _ l _ before succ => .tail before ⟨l, succ⟩) c mem

/-- Only places of the net come to be marked. -/
theorem Derived.named {c : StateClass net} (h : Derived net env untimed initialMarking stubborn c) :
    ∀ p, 0 < c.marking.tokens p → Named net initialMarking p := by
  induction h with
  | refl => exact fun p pos => .inr (MarkingState.mem_placesWithTokens.mpr pos)
  | tail _ step ih =>
    obtain ⟨l, mem⟩ := step
    obtain ⟨vt, -, outcome, rfl, -⟩ := successors_computeSuccessor mem
    intro p pos
    rw [computeSuccessor, marking_inCanonicalOrder] at pos
    rcases marked_of_produceOutputs pos with kept | produced
    · exact ih p (lt_of_lt_of_le kept (tokens_consumeInputs_le _ _))
    · exact outputPlaces_named _ vt.transition (outcomes_places outcome p produced)

end Derived

/-! ## Deduplication -/

/-- One marking, one clock order and one zone. -/
structure Identical (c d : StateClass net) : Prop where
  marking : c.marking.tokens = d.marking.tokens
  enabled : c.enabledTransitions = d.enabledTransitions
  domain : c.firingDomain = d.firingDomain

section Dedup

variable {initialMarking : MarkingState} {stubborn : Bool} (apart : NamedApart net)

include apart

/-- Derived classes with one marking whose keys agree have one zone, unless bounds that differ are
rendered alike. -/
theorem key_collision_iff {c d : StateClass net}
    (hc : Derived net env untimed initialMarking stubborn c)
    (hd : Derived net env untimed initialMarking stubborn d)
    (same : c.marking.tokens = d.marking.tokens) :
    c.enabledTransitions = d.enabledTransitions ∧
      ((classKey c = classKey d → c.firingDomain = d.firingDomain) ↔
        (c.firingDomain = d.firingDomain ∨
          ∃ i < c.firingDomain.bounds.dim, ∃ j < c.firingDomain.bounds.dim,
            ¬RoundsAlike (c.firingDomain.bounds.get i j) (d.firingDomain.bounds.get i j))) := by
  obtain ⟨listed, keys⟩ := classKey_eq_iff apart hc.shaped hd.shaped same
  refine ⟨listed, ?_⟩
  rw [keys]
  constructor
  · intro exact_
    by_cases alike : ∀ i < c.firingDomain.bounds.dim, ∀ j < c.firingDomain.bounds.dim,
        RoundsAlike (c.firingDomain.bounds.get i j) (d.firingDomain.bounds.get i j)
    · exact .inl (exact_ alike)
    · right
      push Not at alike
      exact alike
  · rintro (equal | ⟨i, hi, j, hj, apart⟩) alike
    · exact equal
    · exact absurd (alike i hi j hj) apart

/-- Where timings are whole milliseconds, one key means one class. -/
theorem identical_of_key (whole : WholeMilliseconds net) {c d : StateClass net}
    (hc : Derived net env untimed initialMarking stubborn c)
    (hd : Derived net env untimed initialMarking stubborn d)
    (same : c.marking.tokens = d.marking.tokens) (key : classKey c = classKey d) : Identical c d := by
  obtain ⟨listed, keys⟩ := classKey_eq_iff apart hc.shaped hd.shaped same
  refine ⟨same, listed, hc.shaped.clocks.ext (listed ▸ hd.shaped.clocks) ?_⟩
  have units := hc.inUnits (whole.clockOf untimed) hc.shaped.clocks.nonempty
  have units' := hd.inUnits (whole.clockOf untimed) hd.shaped.clocks.nonempty
  have dim : c.firingDomain.bounds.dim = d.firingDomain.bounds.dim := by
    rw [hc.shaped.clocks.dim, hd.shaped.clocks.dim, listed]
  intro i hi j hj
  exact (keys.mp key i hi j hj).eq (units i hi j hj) (units' i (dim ▸ hi) j (dim ▸ hj))

end Dedup

/-! ## A token on two ways, and a delay -/

theorem hundred_exact (scale : ℚ) (nonneg : 0 ≤ scale) (small : scale ≤ 1) :
    (Timing.exact (100 * scale)).Valid :=
  ⟨by positivity, by unfold MAX_DURATION_MS; linarith⟩

theorem hundred_window (scale : ℚ) (nonneg : 0 ≤ scale) :
    (Timing.window 0 (100 * scale)).Valid :=
  ⟨le_refl _, by norm_num [MAX_DURATION_MS], by positivity⟩

theorem thousand_exact (scale : ℚ) (nonneg : 0 ≤ scale) (small : scale ≤ 1) :
    (Timing.exact (1000 * scale)).Valid :=
  ⟨by positivity, by unfold MAX_DURATION_MS; linarith⟩

/-- Two ways from `s` to `m`, one after a hundred units and one within them, and a delay of a thousand
units on `r`. -/
def twoWaysNet (scale : ℚ) (nonneg : 0 ≤ scale) (small : scale ≤ 1) : PetriNet Unit Unit :=
  netOf ["s", "r", "m", "done"]
    [{ immediateTransition "a" (some "s") [] (some "m") with
        timing := .exact (100 * scale)
        timing_valid := hundred_exact scale nonneg small },
     { immediateTransition "b" (some "s") [] (some "m") with
        timing := .window 0 (100 * scale)
        timing_valid := hundred_window scale nonneg },
     { immediateTransition "d" (some "r") [] (some "done") with
        timing := .exact (1000 * scale)
        timing_valid := thousand_exact scale nonneg small }]

def twoWaysMarking : MarkingState := (MarkingState.empty.addTokens "s" 1).addTokens "r" 1

theorem one_nonneg : (0 : ℚ) ≤ 1 := by norm_num

theorem milli_nonneg : (0 : ℚ) ≤ 1 / 1000 := by norm_num

theorem milli_small : (1 / 1000 : ℚ) ≤ 1 := by norm_num

/-- In milliseconds. -/
def wholeNet : PetriNet Unit Unit := twoWaysNet 1 one_nonneg (le_refl 1)

/-- In microseconds. -/
def fractionalNet : PetriNet Unit Unit := twoWaysNet (1 / 1000) milli_nonneg milli_small

/-- The classes behind the first firing. -/
def behindFirst (net : PetriNet Unit Unit) : List (EdgeLabel net × StateClass net) :=
  successors closedEnvironment false false (initialStateClass net closedEnvironment false twoWaysMarking)

def twoWaysGraph (net : PetriNet Unit Unit) : StateClassGraph net :=
  Exploration.build classKey (successors closedEnvironment false false) 10
    (initialStateClass net closedEnvironment false twoWaysMarking)

theorem fractional_second : 1 < (behindFirst fractionalNet).length := by decide +kernel

theorem fractional_first : 0 < (behindFirst fractionalNet).length :=
  Nat.lt_trans Nat.zero_lt_one fractional_second

/-- Behind the way that takes its time. -/
def exactWay : StateClass fractionalNet := ((behindFirst fractionalNet).get ⟨0, fractional_first⟩).2

/-- Behind the way that may be taken earlier. -/
def windowWay : StateClass fractionalNet := ((behindFirst fractionalNet).get ⟨1, fractional_second⟩).2

end LibPetri.Verified
