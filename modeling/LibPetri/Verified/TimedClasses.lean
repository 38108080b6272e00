import LibPetri.Verification.ScgVerifier
import LibPetri.Verified.ReducedGraph
import LibPetri.Verified.ZoneUnits

/-! # The classes of a timed graph

A class whose domain has readings, one of which runs out first, goes on; so an expanded class rests only
where its marking enables nothing.  In a graph whose clocks run in units above `EPSILON` the domain of
every class is canonical, and so has readings.
-/

namespace LibPetri.Verified

open LibPetri.Basis LibPetri.Core LibPetri.Verification LibPetri.Verification.StateClassGraph
open BoundMatrix TokenGame

variable {V N : Type} {net : PetriNet V N} {env : Environment} {untimed : Bool}

/-! ## Clocks -/

theorem timing_earliest_le {timing : Timing} (valid : timing.Valid) :
    timing.earliest ≤ timing.latest := by
  cases timing with
  | immediate => norm_num [Timing.earliest, Timing.latest, MAX_DURATION_MS]
  | deadline => exact le_of_lt valid
  | delayed => exact valid.2
  | window => exact valid.2.2
  | exact => exact le_refl _

theorem clockOf_proper (untimed : Bool) (t : NetTransition net) :
    Clock.Proper (clockOf untimed t) := by
  have valid : (if untimed then Timing.immediate else (transitionAt t).timing).Valid := by
    split
    · trivial
    · exact (transitionAt t).timing_valid
  have start := Timing.earliest_nonneg valid
  have order := timing_earliest_le valid
  unfold clockOf
  refine ⟨?_, WithTop.coe_le_coe.mpr ?_⟩
  · dsimp only
    positivity
  · dsimp only
    linarith

/-- A class lists what its marking enables, in the order of the clocks of its domain. -/
structure Clocked (c : StateClass net) : Prop where
  listed : Listed c
  nonempty : c.firingDomain.isEmpty = false
  clocks : c.firingDomain.clockNames.length = c.enabledTransitions.length

theorem permuted_isEmpty (d : DBM) (order : List Nat) : (d.permuted order).isEmpty = d.isEmpty := by
  unfold DBM.permuted
  cases already : d.isEmpty with
  | true => rw [if_pos rfl, already]
  | false => rfl

theorem isEmpty_of_letTimePass {d : DBM} (nonempty : d.letTimePass.isEmpty = false) :
    d.isEmpty = false := by
  unfold DBM.letTimePass at nonempty
  cases already : d.isEmpty with
  | true => rwa [already, if_pos rfl, already] at nonempty
  | false => rfl

/-- The domain behind a firing, in canonical order. -/
theorem inCanonicalOrder_domain {marking : MarkingState} {domain : DBM}
    {enabled : List (NetTransition net)}
    (nonempty : (inCanonicalOrder marking domain enabled).firingDomain.isEmpty = false) :
    domain.isEmpty = false ∧ (domain.clockNames.length = enabled.length →
      (inCanonicalOrder marking domain enabled).firingDomain.clockNames.length =
        (inCanonicalOrder marking domain enabled).enabledTransitions.length) := by
  unfold inCanonicalOrder at nonempty ⊢
  cases ordered : canonicalOrder enabled with
  | none =>
    rw [ordered] at nonempty
    exact ⟨isEmpty_of_letTimePass nonempty, fun length => by dsimp only; rw [letTimePass_names, length]⟩
  | some order =>
    rw [ordered] at nonempty
    have before := isEmpty_of_letTimePass nonempty
    rw [permuted_isEmpty] at before
    have perm := canonicalOrder_perm ordered
    refine ⟨before, fun _ => ?_⟩
    dsimp only
    rw [letTimePass_names, length_permute fun k mem => List.mem_range.mp (perm.mem_iff.mp mem)]
    simp [DBM.permuted, before]

theorem initialStateClass_holds_lower (untimed : Bool) (marking : MarkingState) :
    InDomain (initialStateClass net env untimed marking) fun t => (clockOf untimed t).lower - 0 :=
  initialStateClass_holds (ν := fun t => ((clockOf untimed t).lower : ℚ))
    (fun t _ => by simpa using (clockOf_proper untimed t).admits_lower (R := ℚ)) (le_refl _)
    fun t _ => (clockOf_proper untimed t).lower_nonneg

theorem initialStateClass_nonempty (untimed : Bool) (marking : MarkingState) :
    (initialStateClass net env untimed marking).firingDomain.isEmpty = false :=
  (initialStateClass_holds_lower untimed marking).contains.nonempty

theorem initialStateClass_clocked (ignore : env.mode = .ignore) (marking : MarkingState) :
    Clocked (initialStateClass net env untimed marking) :=
  ⟨initialStateClass_listed ignore untimed marking, initialStateClass_nonempty untimed marking,
    (initialStateClass_holds_lower untimed marking).clocks⟩

/-- What one expansion does: every successor is a firing that does not empty the domain. -/
theorem successors_computeSuccessor {stubborn : Bool} {c x : StateClass net} {l : EdgeLabel net}
    (mem : (l, x) ∈ successors env untimed stubborn c) :
    ∃ vt : VirtualTransition net, vt.transition ∈ c.enabledTransitions ∧
      vt.outcome ∈ outcomes (transitionAt vt.transition) ∧
      x = computeSuccessor env untimed none c vt ∧
      (computeSuccessor env untimed none c vt).firingDomain.isEmpty = false := by
  obtain ⟨t, chosen, mem⟩ := List.mem_flatMap.mp mem
  obtain ⟨vt, expanded, found⟩ := List.mem_filterMap.mp mem
  obtain ⟨k, lt, rfl⟩ := List.mem_mapIdx.mp expanded
  dsimp only at found
  split at found
  · cases found
  next nonempty =>
    obtain ⟨-, rfl⟩ := Prod.mk.inj (Option.some.inj found)
    rw [Bool.not_eq_true] at nonempty
    exact ⟨_, expand_subset chosen, List.getElem_mem lt, rfl, nonempty⟩

/-- The clocks behind a firing. -/
theorem computeSuccessor_clocks {current : StateClass net} {fired : VirtualTransition net}
    (nonempty : (computeSuccessor env untimed none current fired).firingDomain.isEmpty = false) :
    (computeSuccessor env untimed none current fired).firingDomain.clockNames.length =
      (computeSuccessor env untimed none current fired).enabledTransitions.length := by
  unfold computeSuccessor at nonempty ⊢
  obtain ⟨before, clocks⟩ := inCanonicalOrder_domain nonempty
  refine clocks ?_
  rw [fireTransition_names before]
  simp [length_permute persistentIndices_lt]

theorem successors_clocked (ignore : env.mode = .ignore) {stubborn : Bool} {c x : StateClass net}
    (h : Clocked c) {l : EdgeLabel net} (mem : (l, x) ∈ successors env untimed stubborn c) :
    Clocked x := by
  obtain ⟨vt, -, -, rfl, nonempty⟩ := successors_computeSuccessor mem
  exact ⟨computeSuccessor_listed ignore untimed h.listed vt, nonempty, computeSuccessor_clocks nonempty⟩

/-! ## Going on -/

/-- A class with readings that enables something has a successor. -/
theorem exists_successor {c : StateClass net} (h : Clocked c) {θ : Nat → ℚ}
    (contains : Contains c.firingDomain θ) (some_ : c.enabledTransitions ≠ []) :
    ∃ l x, (l, x) ∈ successors env untimed false c := by
  classical
  let ν (t : NetTransition net) : ℚ := θ (c.enabledTransitions.idxOf t)
  have domain : InDomain c ν := by
    refine ⟨contains.congr fun k lt => ?_, h.clocks⟩
    rw [h.clocks] at lt
    rw [readings_of_getElem? (List.getElem?_eq_getElem lt)]
    exact congrArg θ (h.listed.nodup.idxOf_getElem k lt).symm
  -- the transition that runs out first, with its first outcome
  obtain ⟨t, mem, first⟩ := c.enabledTransitions.toFinset.exists_min_image ν
    (by rwa [List.toFinset_nonempty_iff])
  rw [List.mem_toFinset] at mem
  obtain ⟨o, outcome⟩ := List.exists_mem_of_ne_nil _ (outcomes_ne_nil (transitionAt t))
  obtain ⟨k, lt, rfl⟩ := List.mem_iff_getElem.mp outcome
  let vt : VirtualTransition net := ⟨t, k, (outcomes (transitionAt t))[k]⟩
  let goesOn (u : NetTransition net) : Prop := u ∈ c.enabledTransitions ∧ u ≠ t ∧
    isEnabled env (transitionAt u) (consumeInputs env c.marking (transitionAt t)) = true
  let ν' (u : NetTransition net) : ℚ := if goesOn u then ν u - ν t else (clockOf untimed u).lower
  have continues : Continues env untimed c vt ν ν' := by
    refine ⟨mem, fun u listed => first u (List.mem_toFinset.mpr listed), fun u _ => ?_⟩
    by_cases on : goesOn u
    · rw [if_pos on]
      exact if_pos on
    · rw [if_neg on]
      have starts : ν' u = (clockOf untimed u).lower := if_neg on
      rw [starts]
      simpa using (clockOf_proper untimed u).admits_lower (R := ℚ)
  have later : ∀ u ∈ (computeSuccessor env untimed none c vt).enabledTransitions, 0 ≤ ν' u := by
    intro u _
    by_cases on : goesOn u
    · have reads : ν' u = ν u - ν t := if_pos on
      rw [reads, sub_nonneg]
      exact first u (List.mem_toFinset.mpr on.1)
    · have starts : ν' u = (clockOf untimed u).lower := if_neg on
      rw [starts]
      exact (clockOf_proper untimed u).lower_nonneg
  have nonempty := (computeSuccessor_holds domain continues (le_refl 0) later).contains.nonempty
  refine ⟨(t, k), computeSuccessor env untimed none c vt, List.mem_flatMap.mpr ⟨t, mem, ?_⟩⟩
  refine List.mem_filterMap.mpr ⟨vt, List.mem_mapIdx.mpr ⟨k, lt, rfl⟩, ?_⟩
  dsimp only
  rw [nonempty, if_neg Bool.false_ne_true]

/-! ## Units -/

variable (net) in
/-- The clocks of the exploration run in units above `EPSILON`. -/
structure RunsInUnits (untimed : Bool) (G : AddSubgroup ℚ) : Prop where
  above : AboveEpsilon G
  clocks : ∀ t : NetTransition net, Clock.InUnits G (clockOf untimed t)

/-- A class with a canonical domain in units. -/
structure Regular (G : AddSubgroup ℚ) (c : StateClass net) : Prop where
  clocked : Clocked c
  canonical : Canonical c.firingDomain
  units : InUnits G c.firingDomain

theorem permuted_canonical {d : DBM} (h : Canonical d) {order : List Nat}
    (perm : order.Perm (List.range d.clockNames.length)) : Canonical (d.permuted order) := by
  have dim := h.dim
  have length : order.length = d.clockNames.length := by simpa using perm.length_eq
  have bounds : (d.permuted order).bounds = .ofFn d.bounds.dim fun i j =>
      d.bounds.get (DBM.reindex order i) (DBM.reindex order j) := by
    simp [DBM.permuted, h.nonempty]
  have index (i : Nat) (hi : i < d.bounds.dim) : DBM.reindex order i < d.bounds.dim := by
    cases i with
    | zero => exact dim ▸ Nat.succ_pos _
    | succ i =>
      have at_ := List.getElem?_eq_getElem (show i < order.length by omega)
      have mem := List.mem_range.mp (perm.mem_iff.mp (List.getElem_mem (l := order) (n := i) (by omega)))
      rw [reindex_succ at_, dim]
      exact Nat.succ_lt_succ mem
  refine ⟨(permuted_isEmpty d order).trans h.nonempty, ?_, ?_⟩
  · rw [bounds, dim_ofFn, dim]
    simp [DBM.permuted, h.nonempty, length]
  · rw [bounds]
    refine ⟨fun i hi => ?_, fun i hi k hk j hj => ?_⟩
    · rw [dim_ofFn] at hi
      rw [get_ofFn _ hi hi]
      exact h.closed.diagonal _ (index i hi)
    · rw [dim_ofFn] at hi hk hj
      rw [get_ofFn _ hi hj, get_ofFn _ hi hk, get_ofFn _ hk hj]
      exact h.closed.triangle _ (index i hi) _ (index k hk) _ (index j hj)

/-- Putting a canonical domain in canonical order keeps it canonical. -/
theorem inCanonicalOrder_regular {G : AddSubgroup ℚ} {marking : MarkingState} {domain : DBM}
    {enabled : List (NetTransition net)} (h : Canonical domain) (units : InUnits G domain)
    (length : domain.clockNames.length = enabled.length)
    (room : ∃ θ : Nat → ℚ, Contains domain θ ∧ ∀ k < domain.clockNames.length, 0 ≤ θ k) :
    Canonical (inCanonicalOrder marking domain enabled).firingDomain ∧
      InUnits G (inCanonicalOrder marking domain enabled).firingDomain := by
  unfold inCanonicalOrder
  cases ordered : canonicalOrder enabled with
  | none => exact ⟨(letTimePass_exact (R := ℚ) h room).1, letTimePass_inUnits units⟩
  | some order =>
    have perm := canonicalOrder_perm ordered
    rw [← length] at perm
    have inside : ∀ k ∈ order, k < domain.clockNames.length := fun k mem =>
      List.mem_range.mp (perm.mem_iff.mp mem)
    have same : order.length = domain.clockNames.length := by simpa using perm.length_eq
    have reordered := permuted_canonical h perm
    obtain ⟨θ, contains, nonneg⟩ := room
    have names : (domain.permuted order).clockNames.length = order.length := by
      simp [DBM.permuted, h.nonempty]
    have moved : Contains (domain.permuted order) fun i => θ (order.getD i 0) :=
      permuted_contains contains same fun i k at_ => ⟨inside k (List.mem_of_getElem? at_), by
        simp [List.getD_eq_getElem?_getD, at_]⟩
    have room' : ∃ θ' : Nat → ℚ, Contains (domain.permuted order) θ' ∧
        ∀ k < (domain.permuted order).clockNames.length, 0 ≤ θ' k := by
      refine ⟨_, moved, fun k lt => ?_⟩
      rw [names] at lt
      have at_ := List.getElem?_eq_getElem lt
      simpa [List.getD_eq_getElem?_getD, at_] using nonneg _ (inside _ (List.getElem_mem lt))
    exact ⟨(letTimePass_exact (R := ℚ) reordered room').1,
      letTimePass_inUnits (permuted_inUnits units h.dim same inside)⟩

theorem create_canonical {clocks : List Clock} (proper : ∀ c ∈ clocks, Clock.Proper c) :
    Canonical (DBM.create clocks) ∧ (DBM.create clocks).clockNames = clocks.map Clock.name ∧
      ∃ θ : Nat → ℚ, Contains (DBM.create clocks) θ ∧ ∀ k, 0 ≤ θ k := by
  have admits (k : Nat) (c : Clock) (at_ : clocks[k]? = some c) :
      Clock.Admits c ((clocks[k]?.map fun c => (c.lower : ℚ)).getD 0) := by
    rw [at_]
    simpa using (proper c (List.mem_of_getElem? at_)).admits_lower (R := ℚ)
  have zero : ∀ i < (DBM.initialBounds clocks).dim, (DBM.initialBounds clocks).get i i = 0 := by
    intro i hi
    rw [DBM.initialBounds, dim_ofFn] at hi
    rw [DBM.initialBounds, get_ofFn _ hi hi]
    cases i with
    | zero => rfl
    | succ i => exact if_pos rfl
  obtain ⟨canonical, names, -⟩ := canonicalize_exact (clocks.map Clock.name)
    (by simp [DBM.initialBounds]) zero (initialBounds_solves admits)
  refine ⟨canonical, names, _, create_contains admits, fun k => ?_⟩
  cases at_ : clocks[k]? with
  | none => simp
  | some c => simpa using (proper c (List.mem_of_getElem? at_)).lower_nonneg

theorem initialStateClass_regular (ignore : env.mode = .ignore) {G : AddSubgroup ℚ}
    (runs : RunsInUnits net untimed G) (marking : MarkingState) :
    Regular G (initialStateClass net env untimed marking) := by
  have proper (ts : List (NetTransition net)) :
      ∀ c ∈ ts.map (clockOf untimed), Clock.Proper c := by
    intro c mem
    obtain ⟨t, -, rfl⟩ := List.mem_map.mp mem
    exact clockOf_proper untimed t
  obtain ⟨canonical, -, θ, contains, nonneg⟩ := create_canonical
    (proper (initialStateClass net env untimed marking).enabledTransitions)
  refine ⟨initialStateClass_clocked ignore marking, ?_, ?_⟩
  · exact (letTimePass_exact (R := ℚ) canonical ⟨θ, contains, fun k _ => nonneg k⟩).1
  · refine letTimePass_inUnits (create_inUnits fun c mem => ?_)
    obtain ⟨t, -, rfl⟩ := List.mem_map.mp mem
    exact runs.clocks t

/-- Behind a firing that does not empty it, a canonical domain in units is one again. -/
theorem computeSuccessor_regular (ignore : env.mode = .ignore) {G : AddSubgroup ℚ}
    (runs : RunsInUnits net untimed G) {c : StateClass net} (h : Regular G c)
    {fired : VirtualTransition net} (mem : fired.transition ∈ c.enabledTransitions)
    (nonempty : (computeSuccessor env untimed none c fired).firingDomain.isEmpty = false) :
    Regular G (computeSuccessor env untimed none c fired) := by
  have clocked : Clocked (computeSuccessor env untimed none c fired) :=
    ⟨computeSuccessor_listed ignore untimed h.clocked.listed fired, nonempty,
      computeSuccessor_clocks nonempty⟩
  suffices Canonical (computeSuccessor env untimed none c fired).firingDomain ∧
      InUnits G (computeSuccessor env untimed none c fired).firingDomain from
    ⟨clocked, this.1, this.2⟩
  unfold computeSuccessor at nonempty ⊢
  obtain ⟨goesOn, -⟩ := inCanonicalOrder_domain nonempty
  dsimp only at goesOn ⊢
  have clocks := h.clocked.clocks
  have bound : c.enabledTransitions.idxOf fired.transition < c.firingDomain.clockNames.length := by
    rw [clocks]
    exact List.idxOf_lt_length_of_mem mem
  have units := h.units h.canonical.nonempty
  have proper (ts : List (NetTransition net)) :
      ∀ s ∈ ts.map (clockOf untimed), Clock.Proper s := by
    intro s mem
    obtain ⟨t, -, rfl⟩ := List.mem_map.mp mem
    exact clockOf_proper untimed t
  have starts (ts : List (NetTransition net)) :
      ∀ s ∈ ts.map (clockOf untimed), Clock.InUnits G s := by
    intro s mem
    obtain ⟨t, -, rfl⟩ := List.mem_map.mp mem
    exact runs.clocks t
  simp only [Option.all_none, List.filter_true] at goesOn ⊢
  generalize consumeInputs env c.marking (transitionAt fired.transition) = intermediate at goesOn ⊢
  generalize findEnabledTransitions net env _ = newEnabledAll at goesOn ⊢
  have inside : ∀ k ∈ persistentIndices env none c fired.transition intermediate newEnabledAll,
      k < c.firingDomain.clockNames.length := clocks ▸ persistentIndices_lt
  have first := exists_first_of_fireTransition h.canonical units runs.above bound goesOn
  obtain ⟨canonical, names, readings⟩ :=
    fireTransition_exact (R := ℚ) h.canonical bound (proper _) inside first
  refine inCanonicalOrder_regular canonical (fireTransition_inUnits units h.canonical.dim bound
    (starts _) inside h.canonical.nonempty) ?_ ?_
  · rw [names]
    simp [length_permute persistentIndices_lt]
  · obtain ⟨θ, contains, first⟩ := first
    obtain ⟨θ', runsOut, nonneg⟩ := exists_runsOut bound (proper _) inside first
    refine ⟨θ', (readings θ').mpr ⟨θ, contains, runsOut⟩, ?_⟩
    rw [names, List.length_append, List.length_map, List.length_map]
    exact nonneg

theorem successors_regular (ignore : env.mode = .ignore) {G : AddSubgroup ℚ}
    (runs : RunsInUnits net untimed G) {stubborn : Bool} {c x : StateClass net} (h : Regular G c)
    {l : EdgeLabel net} (mem : (l, x) ∈ successors env untimed stubborn c) : Regular G x := by
  obtain ⟨vt, listed, -, rfl, nonempty⟩ := successors_computeSuccessor mem
  exact computeSuccessor_regular ignore runs h listed nonempty

/-! ## Classes of a graph -/

theorem explored_of_build {initialMarking : MarkingState} {stubborn : Bool} {maxClasses : Nat}
    {g : StateClassGraph net}
    (built : build net initialMarking maxClasses env ⟨untimed, stubborn⟩ = .ok g) :
    Exploration.Explored classKey (successors env untimed stubborn)
      (initialStateClass net env untimed initialMarking) g := by
  unfold build at built
  split at built
  · cases built
  · obtain rfl := Except.ok.inj built
    exact Exploration.build_explored

/-! ## Rest -/

section Graph

variable {initialMarking : MarkingState} {maxClasses : Nat} {stubborn : Bool}
  {g : StateClassGraph net} (ignore : env.mode = .ignore)
  (built : build net initialMarking maxClasses env ⟨untimed, stubborn⟩ = .ok g)

include ignore built

theorem classes_clocked : ∀ c ∈ g.classes, Clocked c :=
  (explored_of_build built).induction (initialStateClass_clocked ignore initialMarking)
    fun _ _ _ h mem => successors_clocked ignore h mem

theorem classes_regular {G : AddSubgroup ℚ} (runs : RunsInUnits net untimed G) :
    ∀ c ∈ g.classes, Regular G c :=
  (explored_of_build built).induction (initialStateClass_regular ignore runs initialMarking)
    fun _ _ _ h mem => successors_regular ignore runs h mem

/-- An expanded class whose domain has readings has no successor where its marking enables nothing.  The
reduction is for explorations that ignore the timing. -/
theorem outgoing_nil_iff_dead (reduced : stubborn = true → AtOnce net untimed) {i : Nat}
    {c : StateClass net} (at_ : g.classes[i]? = some c) (expanded : i < g.expanded)
    (readings : ∃ θ : Nat → ℚ, Contains c.firingDomain θ) :
    ScgVerifier.outgoingBranchEdges g i = [] ↔ Dead net c.marking.tokens := by
  have explored := explored_of_build built
  have mem := List.mem_iff_getElem?.mpr ⟨i, at_⟩
  have clocked := classes_clocked ignore built c mem
  have row := List.getElem?_eq_getElem expanded
  obtain ⟨c', there, leads⟩ := explored.leads i _ row
  obtain rfl := Option.some.inj (at_.symm.trans there)
  have same : ScgVerifier.outgoingBranchEdges g i = [] ↔ successors env untimed stubborn c = [] := by
    unfold ScgVerifier.outgoingBranchEdges
    rw [row, Option.getD_some]
    exact ⟨fun nil => by simpa [nil] using leads, fun nil => by simpa [nil] using leads⟩
  rw [same]
  constructor
  · intro nothing t enabled
    have some_ : c.enabledTransitions ≠ [] :=
      List.ne_nil_of_mem ((clocked.listed.enabled t).mpr enabled)
    obtain ⟨l, x, succ⟩ : ∃ l x, (l, x) ∈ successors env untimed stubborn c := by
      cases stubborn with
      | false =>
        obtain ⟨θ, contains⟩ := readings
        exact exists_successor clocked contains some_
      | true =>
        -- a selected transition is enabled and may fire now
        have atOnce := reduced rfl
        have playable := (classes_untimed ignore atOnce built c mem).playable
        obtain ⟨T, -, ⟨u, member, on⟩, exact_⟩ := select_closed c.marking some_
        have chosen : u ∈ expand true c := (exact_ u).mpr ⟨member, on⟩
        obtain ⟨o, outcome⟩ := List.exists_mem_of_ne_nil _ (outcomes_ne_nil (transitionAt u))
        obtain ⟨k, found⟩ := List.mem_iff_getElem?.mp outcome
        exact ⟨(u, k), _, (mem_successors ignore atOnce playable).mpr ⟨chosen, o, found, rfl⟩⟩
    rw [nothing] at succ
    cases succ
  · intro dead
    rw [List.eq_nil_iff_forall_not_mem]
    rintro ⟨l, x⟩ succ
    obtain ⟨t, chosen, -⟩ := List.mem_flatMap.mp succ
    exact dead t ((clocked.listed.enabled t).mp (expand_subset chosen))

/-- An expanded class rests where its marking enables only what may be reaped. -/
theorem classView_isQuiescent_iff (reduced : stubborn = true → AtOnce net untimed)
    (reapable : List String) {i : Nat} {c : StateClass net} (at_ : g.classes[i]? = some c)
    (expanded : i < g.expanded) (readings : ∃ θ : Nat → ℚ, Contains c.firingDomain θ) :
    (ScgVerifier.classView g reapable).isQuiescent i = true ↔
      ∀ t : NetTransition net, Enabled (transitionAt t) c.marking.tokens →
        (transitionAt t).name ∈ reapable := by
  have clocked := classes_clocked ignore built c (List.mem_iff_getElem?.mpr ⟨i, at_⟩)
  simp only [ScgVerifier.classView, at_, expanded, decide_true, Bool.true_and, Bool.or_eq_true,
    decide_eq_true_eq, outgoing_nil_iff_dead ignore built reduced at_ expanded readings,
    Bool.and_eq_true, Option.map_some, Option.any_some, List.all_eq_true,
    clocked.listed.enabled]
  constructor
  · rintro (dead | ⟨-, all⟩)
    · exact fun t enabled => absurd enabled (dead t)
    · exact all
  · intro all
    by_cases none : reapable = []
    · refine .inl fun t enabled => ?_
      have := all t enabled
      rw [none] at this
      cases this
    · exact .inr ⟨none, all⟩

end Graph

end LibPetri.Verified
