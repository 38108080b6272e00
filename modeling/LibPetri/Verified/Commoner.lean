import LibPetri.Basis.Siphons
import LibPetri.Verification.StructuralCheck
import LibPetri.Verified.FlatRuns

/-! # Deadlock freedom from siphons and traps

The branching search finds exactly the minimal siphons, the contraction ends in the largest trap, and a
net of ordinary transitions whose minimal siphons hold marked traps reaches no dead marking.
-/

namespace LibPetri.Verified

open LibPetri.Basis LibPetri.Core LibPetri.Runtime LibPetri.Verification
open LibPetri.Verification.AbstractReplayer LibPetri.Verification.StructuralCheck

variable {S : Type} (flatNet : FlatNet S)

def flatIns (t : flatNet.Position) (p : flatNet.Index) : Prop :=
  0 < (flatNet.transition t).preVector p

def flatOuts (t : flatNet.Position) (p : flatNet.Index) : Prop :=
  0 < (flatNet.transition t).postVector p

/-- The siphons of a flat net. -/
abbrev FlatSiphon (siphon : Finset flatNet.Index) : Prop :=
  Siphon (flatIns flatNet) (flatOuts flatNet) (siphon : Set flatNet.Index)

/-- The traps of a flat net. -/
abbrev FlatTrap (trap : Finset flatNet.Index) : Prop :=
  Trap (flatIns flatNet) (flatOuts flatNet) (trap : Set flatNet.Index)

abbrev MinimalFlatSiphon (siphon : Finset flatNet.Index) : Prop :=
  MinimalSiphon (flatIns flatNet) (flatOuts flatNet) siphon

variable {flatNet}

/-! ## The siphon search -/

theorem violating_eq_none {siphon : Finset flatNet.Index} :
    violating flatNet siphon = none ↔ FlatSiphon flatNet siphon := by
  unfold violating
  rw [List.find?_eq_none]
  simp only [decide_eq_true_eq, not_and, not_not]
  constructor
  · exact fun all t outputs => all _ (flatNet.transition_mem t) outputs
  · intro siphon ft mem outputs
    obtain ⟨t, rfl⟩ := flatNet.mem_transitions.mp mem
    exact siphon t outputs

/-- What a search has found: siphons, none of them a part of a later one. -/
structure Found (search : SiphonSearch flatNet) : Prop where
  siphons : ∀ f ∈ search.found, f.Nonempty ∧ FlatSiphon flatNet f
  apart : search.found.Pairwise fun f g => ¬f ⊆ g

/-- What growing a set adds to a search: every minimal siphon around the set. -/
structure Grown (siphon : Finset flatNet.Index) (search search' : SiphonSearch flatNet) : Prop where
  found : Found search'
  keeps : search.found ⊆ search'.found
  around : ∀ M, MinimalFlatSiphon flatNet M → siphon ⊆ M → M ∈ search'.found

/-- Growing one set after the other. -/
theorem foldlM_grown {α : Type} {f : SiphonSearch flatNet → α → Option (SiphonSearch flatNet)}
    (setOf : α → Finset flatNet.Index)
    (step : ∀ a s s', f s a = some s' → Found s → Grown (setOf a) s s') {as : List α}
    {s s' : SiphonSearch flatNet} (run : as.foldlM f s = some s') (ok : Found s) :
    Found s' ∧ s.found ⊆ s'.found ∧
      ∀ a ∈ as, ∀ M, MinimalFlatSiphon flatNet M → setOf a ⊆ M → M ∈ s'.found := by
  induction as generalizing s with
  | nil =>
    obtain rfl := Option.some.inj run
    exact ⟨ok, fun _ => id, fun a mem => by cases mem⟩
  | cons a as ih =>
    rw [List.foldlM_cons] at run
    obtain ⟨s₁, first, rest⟩ := Option.bind_eq_some_iff.mp run
    have grown := step a s s₁ first ok
    obtain ⟨found, keeps, around⟩ := ih rest grown.found
    refine ⟨found, fun f mem => keeps (grown.keeps mem), fun b mem M minimal within => ?_⟩
    rcases List.mem_cons.mp mem with rfl | mem
    · exact keeps (grown.around M minimal within)
    · exact around b mem M minimal within

theorem grow_grown {budget : WithTop ℕ} {depth : Nat} {siphon : Finset flatNet.Index}
    {search search' : SiphonSearch flatNet}
    (run : grow flatNet budget depth siphon search = some search') (ok : Found search)
    (some_ : siphon.Nonempty) : Grown siphon search search' := by
  induction depth generalizing siphon search search' with
  | zero => cases run
  | succ depth ih =>
    unfold grow at run
    dsimp only at run
    have ok' : Found { search with nodes := search.nodes + 1 } := ⟨ok.siphons, ok.apart⟩
    split at run
    · cases run
    split at run
    next known =>
      -- a minimal siphon around the set is the one found inside it
      obtain rfl := Option.some.inj run
      obtain ⟨f, mem, within⟩ := known
      refine ⟨ok', fun _ => id, fun M minimal around => ?_⟩
      have le := minimal.le_of_le (ok.siphons f mem) (within.trans around)
      obtain rfl : M = f := le_antisymm le (within.trans around)
      exact mem
    next new =>
      cases producer : violating flatNet siphon with
      | none =>
        rw [producer] at run
        obtain rfl := Option.some.inj run
        have own := violating_eq_none.mp producer
        refine ⟨⟨fun f mem => ?_, ?_⟩, fun f mem => List.mem_append_left _ mem,
          fun M minimal around => ?_⟩
        · rcases List.mem_append.mp mem with mem | mem
          · exact ok.siphons f mem
          · obtain rfl := List.mem_singleton.mp mem
            exact ⟨some_, own⟩
        · refine List.pairwise_append.mpr ⟨ok.apart, List.pairwise_singleton _ _, fun f mem g last => ?_⟩
          obtain rfl := List.mem_singleton.mp last
          exact fun within => new ⟨f, mem, within⟩
        · have le := minimal.le_of_le ⟨some_, own⟩ around
          obtain rfl : M = siphon := le_antisymm le around
          simp
      | some ft =>
        rw [producer] at run
        dsimp only at run
        obtain ⟨found, keeps, around⟩ := foldlM_grown (fun q => insert q siphon)
          (fun q s s' step ok => ih step ok (Finset.insert_nonempty q siphon)) run ok'
        refine ⟨found, keeps, fun M minimal within => ?_⟩
        -- the branch on an input inside the siphon leads to it
        obtain ⟨t, rfl⟩ := flatNet.mem_transitions.mp (List.mem_of_find?_eq_some producer)
        have violates := List.find?_some producer
        simp only [decide_eq_true_eq] at violates
        obtain ⟨⟨p, mem, output⟩, -⟩ := violates
        obtain ⟨q, inside, input⟩ := minimal.prop.2 t ⟨p, within mem, output⟩
        refine around q ?_ M minimal (Finset.insert_subset inside within)
        simpa [inputsOf, flatIns] using input

theorem mem_minimalOnes_iff {found : List (Finset flatNet.Index)} {siphon : Finset flatNet.Index} :
    siphon ∈ minimalOnes flatNet found ↔ ∃ i, found[i]? = some siphon ∧
      ∀ (j : Nat) (other : Finset flatNet.Index), found[j]? = some other → j ≠ i →
        ¬other ⊆ siphon := by
  unfold minimalOnes
  simp only [List.mem_map, List.mem_filter, Bool.not_eq_true', List.any_eq_false, Prod.exists,
    List.mem_zipIdx_iff_getElem?, Bool.and_eq_true, decide_eq_true_eq, not_and, Prod.forall, ne_eq]
  constructor
  · rintro ⟨own, i, ⟨at_, apart⟩, rfl⟩
    exact ⟨i, at_, fun j other there ne => apart other j there ne⟩
  · rintro ⟨i, at_, apart⟩
    exact ⟨siphon, i, ⟨at_, fun other j there ne => apart j other there ne⟩, rfl⟩

/-- A search that finds all of them leaves exactly the minimal siphons. -/
theorem mem_minimalOnes {search : SiphonSearch flatNet} (ok : Found search)
    (all : ∀ M, MinimalFlatSiphon flatNet M → M ∈ search.found) (siphon : Finset flatNet.Index) :
    siphon ∈ minimalOnes flatNet search.found ↔ MinimalFlatSiphon flatNet siphon := by
  rw [mem_minimalOnes_iff]
  constructor
  · rintro ⟨i, at_, apart⟩
    obtain ⟨some_, own⟩ := ok.siphons siphon (List.mem_iff_getElem?.mpr ⟨i, at_⟩)
    obtain ⟨M, within, minimal⟩ := exists_minimalSiphon some_ own
    obtain ⟨j, there⟩ := List.mem_iff_getElem?.mp (all M minimal)
    by_cases same : j = i
    · subst same
      obtain rfl := Option.some.inj (at_.symm.trans there)
      exact minimal
    · exact absurd within (apart j M there same)
  · intro minimal
    obtain ⟨i, at_⟩ := List.mem_iff_getElem?.mp (all siphon minimal)
    refine ⟨i, at_, fun j other there ne within => ?_⟩
    have le := minimal.le_of_le (ok.siphons other (List.mem_iff_getElem?.mpr ⟨j, there⟩)) within
    obtain rfl : siphon = other := le_antisymm le within
    obtain ⟨here, same⟩ := List.getElem?_eq_some_iff.mp at_
    obtain ⟨here', same'⟩ := List.getElem?_eq_some_iff.mp there
    have apart := List.pairwise_iff_getElem.mp ok.apart
    rcases Nat.lt_or_gt_of_ne ne with lt | lt
    · exact apart j i here' here lt (by rw [same, same'])
    · exact apart i j here here' lt (by rw [same, same'])

theorem minimalOnes_nodup {search : SiphonSearch flatNet} (ok : Found search) :
    (minimalOnes flatNet search.found).Nodup := by
  have sub : (minimalOnes flatNet search.found).Sublist search.found := by
    have := (List.filter_sublist (l := search.found.zipIdx)
      (p := fun s => !search.found.zipIdx.any fun other => other.2 ≠ s.2 && other.1 ⊆ s.1)).map Prod.fst
    rwa [List.zipIdx_map_fst] at this
  refine sub.nodup (ok.apart.imp fun {f g} apart same => ?_)
  subst same
  exact apart (Finset.Subset.refl _)

/-- **The siphon search is exact.** -/
theorem findMinimalSiphons_exact {budget : WithTop ℕ} {siphons : List (Finset flatNet.Index)}
    (found : findMinimalSiphons flatNet budget = some siphons) :
    siphons.Nodup ∧ ∀ M, M ∈ siphons ↔ MinimalFlatSiphon flatNet M := by
  unfold findMinimalSiphons at found
  obtain ⟨search, run, rfl⟩ := Option.map_eq_some_iff.mp found
  have start : Found (⟨0, []⟩ : SiphonSearch flatNet) :=
    ⟨(fun f mem => by cases mem), List.Pairwise.nil⟩
  obtain ⟨ok, -, around⟩ := foldlM_grown (fun p => {p})
    (fun p s s' step ok => grow_grown step ok (Finset.singleton_nonempty p)) run start
  refine ⟨minimalOnes_nodup ok, fun M => mem_minimalOnes ok (fun M minimal => ?_) M⟩
  obtain ⟨p, mem⟩ := minimal.prop.1
  exact around p (List.mem_finRange p) M minimal (Finset.singleton_subset_iff.mpr mem)

/-! ## The search ends -/

theorem isSome_foldlM {α σ : Type} {f : σ → α → Option σ} {as : List α}
    (step : ∀ a ∈ as, ∀ s, (f s a).isSome = true) (s : σ) : (as.foldlM f s).isSome = true := by
  induction as generalizing s with
  | nil => rfl
  | cons a as ih =>
    obtain ⟨s₁, first⟩ := Option.isSome_iff_exists.mp (step a List.mem_cons_self s)
    rw [List.foldlM_cons, first]
    exact ih (fun b mem => step b (List.mem_cons_of_mem _ mem)) s₁

/-- Without a budget nothing cuts the search off: every level adds a place. -/
theorem grow_isSome {depth : Nat} {siphon : Finset flatNet.Index}
    (enough : flatNet.places.length < siphon.card + depth) (search : SiphonSearch flatNet) :
    (grow flatNet ⊤ depth siphon search).isSome = true := by
  induction depth generalizing siphon search with
  | zero =>
    have := siphon.card_le_univ
    rw [Fintype.card_fin] at this
    omega
  | succ depth ih =>
    unfold grow
    dsimp only
    rw [if_neg not_top_lt]
    split
    · rfl
    · cases producer : violating flatNet siphon with
      | none => rfl
      | some ft =>
        refine isSome_foldlM (fun q mem s => ih ?_ s) _
        have violates := List.find?_some producer
        simp only [decide_eq_true_eq] at violates
        have new : q ∉ siphon := fun inside =>
          violates.2 ⟨q, inside, by simpa [inputsOf] using mem⟩
        rw [Finset.card_insert_of_notMem new]
        omega

theorem findMinimalSiphons_isSome : (findMinimalSiphons flatNet ⊤).isSome = true := by
  unfold findMinimalSiphons
  rw [Option.isSome_map]
  exact isSome_foldlM (fun p _ s => grow_isSome (by rw [Finset.card_singleton]; omega) s) _

/-! ## The largest trap -/

theorem satisfies_iff {trap : Finset flatNet.Index} {p : flatNet.Index} :
    satisfies flatNet trap p = true ↔
      ∀ t, flatIns flatNet t p → ∃ q ∈ trap, flatOuts flatNet t q := by
  unfold satisfies
  rw [List.all_eq_true]
  simp only [decide_eq_true_eq]
  constructor
  · exact fun all t => all _ (flatNet.transition_mem t)
  · intro all ft mem
    obtain ⟨t, rfl⟩ := flatNet.mem_transitions.mp mem
    exact all t

theorem contract_spec {passes : Nat} {places : Finset flatNet.Index} (enough : places.card ≤ passes) :
    FlatTrap flatNet (contract flatNet passes places) ∧ contract flatNet passes places ⊆ places ∧
      ∀ Q ⊆ places, FlatTrap flatNet Q → Q ⊆ contract flatNet passes places := by
  induction passes generalizing places with
  | zero =>
    obtain rfl := Finset.card_eq_zero.mp (Nat.le_zero.mp enough)
    unfold contract
    exact ⟨fun t ⟨p, mem, _⟩ => by simp at mem, Finset.Subset.refl _, fun Q within _ => within⟩
  | succ passes ih =>
    unfold contract
    dsimp only
    split
    next stable =>
      refine ⟨fun t ⟨p, mem, input⟩ => ?_, Finset.Subset.refl _, fun Q within _ => within⟩
      have kept := (Finset.filter_eq_self.mp stable) p (Finset.mem_coe.mp mem)
      obtain ⟨q, inside, output⟩ := satisfies_iff.mp kept t input
      exact ⟨q, Finset.mem_coe.mpr inside, output⟩
    next drops =>
      have fewer : (places.filter fun p => satisfies flatNet places p).card < places.card :=
        Finset.card_lt_card (Finset.filter_ssubset.mpr (by
          by_contra all
          push Not at all
          exact drops (Finset.filter_eq_self.mpr all)))
      obtain ⟨trap, within, largest⟩ := ih (Nat.le_of_lt_succ (Nat.lt_of_lt_of_le fewer enough))
      refine ⟨trap, within.trans (Finset.filter_subset _ _), fun Q inside own => largest Q ?_ own⟩
      intro p mem
      refine Finset.mem_filter.mpr ⟨inside mem, satisfies_iff.mpr fun t input => ?_⟩
      obtain ⟨q, member, output⟩ := own t ⟨p, Finset.mem_coe.mpr mem, input⟩
      exact ⟨q, inside (Finset.mem_coe.mp member), output⟩

/-- **The contraction ends in the largest trap.** -/
theorem findMaximalTrapIn_largest (places : Finset flatNet.Index) :
    FlatTrap flatNet (findMaximalTrapIn flatNet places) ∧
      findMaximalTrapIn flatNet places ⊆ places ∧
        ∀ Q ⊆ places, FlatTrap flatNet Q → Q ⊆ findMaximalTrapIn flatNet places :=
  contract_spec (le_refl _)

/-! ## Deadlock freedom -/

section Ordinary

variable (ordinary : commonerApplies flatNet = true)

include ordinary

theorem commonerApplies_spec (t : flatNet.Position) :
    (flatNet.transition t).readPlaces = [] ∧ (flatNet.transition t).inhibitorPlaces = [] ∧
      (flatNet.transition t).resetPlaces = [] ∧
        ∀ p, (flatNet.transition t).consumeAll p = false ∧ (flatNet.transition t).preVector p ≤ 1 := by
  have own := List.all_eq_true.mp ordinary _ (flatNet.transition_mem t)
  simp only [Bool.and_eq_true, decide_eq_true_eq, List.all_eq_true, Bool.not_eq_true'] at own
  exact ⟨own.1.1.1, own.1.1.2, own.1.2, fun p => own.2 p (List.mem_finRange p)⟩

/-- Nothing but an empty input disables an ordinary transition. -/
theorem enabledA_of_ready {s : flatNet.State} {t : flatNet.Position}
    (ready : ∀ p, flatIns flatNet t p → 0 < s p) : enabledA s (flatNet.transition t) = true := by
  obtain ⟨reads, inhibitors, -, weights⟩ := commonerApplies_spec ordinary t
  rw [enabledA_iff_conditions, reads, inhibitors]
  refine ⟨fun p => ?_, (fun p mem => by cases mem), (fun p mem => by cases mem)⟩
  have weight := (weights p).2
  rcases Nat.eq_zero_or_pos ((flatNet.transition t).preVector p) with zero | pos
  · omega
  · have := ready p pos
    omega

/-- A move of an ordinary net keeps a marked trap marked. -/
theorem trap_stays_marked {Q : Finset flatNet.Index} (trap : FlatTrap flatNet Q)
    {s s' : flatNet.State} (step : FlatStep flatNet s s')
    (marked : Marked s (Q : Set flatNet.Index)) : Marked s' (Q : Set flatNet.Index) := by
  obtain ⟨l, move⟩ := flatStep_iff_move.mp step
  cases move with
  | fire t enabled within =>
    obtain ⟨-, -, resets, weights⟩ := commonerApplies_spec ordinary t
    refine trap.stays_marked (t := t) ⟨fun p none_ => ?_, fun p output => ?_⟩ marked
    · have zero : (flatNet.transition t).preVector p = 0 := Nat.le_zero.mp (Nat.le_of_not_lt none_)
      simp [fireA, resets, (weights p).1, zero]
    · have pos : 0 < (flatNet.transition t).postVector p := output
      simp only [fireA, resets, (weights p).1, List.not_mem_nil, decide_false, Bool.or_self,
        Bool.false_eq_true, ↓reduceIte]
      omega
  | inject pid bound resolves room =>
    refine marked.of_le fun p => ?_
    unfold injectA
    by_cases here : p = pid
    · subst here
      rw [Function.update_self]
      omega
    · rw [Function.update_of_ne here]

theorem trap_marked {Q : Finset flatNet.Index} (trap : FlatTrap flatNet Q) {s₀ s : flatNet.State}
    (reach : FlatReachable flatNet s₀ s) (marked : Marked s₀ (Q : Set flatNet.Index)) :
    Marked s (Q : Set flatNet.Index) := by
  induction reach with
  | refl => exact marked
  | tail _ step ih => exact trap_stays_marked ordinary trap step ih

end Ordinary

/-- What the check has seen where it reports no potential deadlock. -/
theorem structuralCheck_spec {initial : MarkingState}
    (answer : structuralCheck flatNet initial = .noPotentialDeadlock) :
    flatNet.transitions ≠ [] ∧ ∀ M, MinimalFlatSiphon flatNet M →
      Marked (flatNet.vectorize initial) (findMaximalTrapIn flatNet M : Set flatNet.Index) := by
  unfold structuralCheck at answer
  dsimp only at answer
  split at answer
  · cases answer
  next transitions =>
    refine ⟨transitions, fun M minimal => ?_⟩
    split at answer
    next empty =>
      obtain ⟨p, -⟩ := minimal.prop.1
      exact absurd p.isLt (by omega)
    · split at answer
      · cases answer
      · cases found : findMinimalSiphons flatNet SIPHON_SEARCH_BUDGET with
        | none =>
          rw [found] at answer
          cases answer
        | some siphons =>
          rw [found] at answer
          dsimp only at answer
          split at answer
          · cases answer
          next clear =>
            have mem := ((findMinimalSiphons_exact found).2 M).mpr minimal
            have own := List.find?_eq_none.mp clear M mem
            simp only [Bool.or_eq_true, decide_eq_true_eq, Bool.not_eq_true', not_or,
              Bool.not_eq_false] at own
            obtain ⟨p, inside, token⟩ := of_decide_eq_true own.2
            exact ⟨p, Finset.mem_coe.mpr inside, token⟩

/-- **Deadlock freedom from structure.**  Where the check reports no potential deadlock of a net of ordinary
transitions, every reachable marking enables one; the siphon search is exact where it is not cut off, and
nothing but its budget cuts it off; the contraction ends in the largest trap. -/
theorem structuralCheck_sound (flatNet : FlatNet S) :
    (commonerApplies flatNet = true → ∀ initial,
        structuralCheck flatNet initial = .noPotentialDeadlock →
          ∀ s, FlatReachable flatNet (flatNet.vectorize initial) s →
            ∃ t, enabledA s (flatNet.transition t) = true) ∧
      (∀ budget siphons, findMinimalSiphons flatNet budget = some siphons →
        siphons.Nodup ∧ ∀ M, M ∈ siphons ↔ MinimalFlatSiphon flatNet M) ∧
      (findMinimalSiphons flatNet ⊤).isSome = true ∧
      ∀ places, FlatTrap flatNet (findMaximalTrapIn flatNet places) ∧
        findMaximalTrapIn flatNet places ⊆ places ∧
          ∀ Q ⊆ places, FlatTrap flatNet Q → Q ⊆ findMaximalTrapIn flatNet places := by
  refine ⟨fun ordinary initial answer s reach => ?_, fun budget siphons => findMinimalSiphons_exact,
    findMinimalSiphons_isSome, findMaximalTrapIn_largest⟩
  obtain ⟨transitions, marked⟩ := structuralCheck_spec answer
  have : Nonempty flatNet.Position := ⟨⟨0, List.length_pos_iff.mpr transitions⟩⟩
  have traps : ∀ U : Set flatNet.Index, U.Nonempty → Siphon (flatIns flatNet) (flatOuts flatNet) U →
      ∃ Q ⊆ U, Trap (flatIns flatNet) (flatOuts flatNet) Q ∧ Marked s Q :=
    traps_of_minimal fun M minimal =>
      have ⟨trap, within, _⟩ := findMaximalTrapIn_largest M
      ⟨findMaximalTrapIn flatNet M, within, trap, trap_marked ordinary trap reach (marked M minimal)⟩
  obtain ⟨t, ready⟩ := exists_ready traps
  exact ⟨t, enabledA_of_ready ordinary ready⟩

/-! ## A token that goes round -/

theorem roundNet_nodup : ["a", "b"].Nodup := by decide

/-- One token moves from `a` to `b` and back. -/
def roundNet : FlatNet Unit where
  places := ["a", "b"]
  transitions :=
    [⟨"go", (), none, ![1, 0], ![0, 1], [], [], [], fun _ => false, false⟩,
     ⟨"back", (), none, ![0, 1], ![1, 0], [], [], [], fun _ => false, false⟩]
  environmentBounds := OrderedMap.empty
  environmentInjection := OrderedMap.empty
  places_nodup := roundNet_nodup
  bounds_injected := nothing_injected

theorem structuralCheck_sound_round : ∀ s, FlatReachable roundNet
    (roundNet.vectorize (MarkingState.empty.addTokens "a" 1)) s →
      ∃ t, enabledA s (roundNet.transition t) = true :=
  (structuralCheck_sound roundNet).1 (by decide +kernel) _ (by decide +kernel)

end LibPetri.Verified
