import LibPetri.Verification.BranchOutcomes

/-! # The places of outcomes

Every place an outcome deposits into is an output place of the transition.
-/

namespace LibPetri.Verified

open LibPetri.Basis LibPetri.Core LibPetri.Runtime LibPetri.Verification

variable {V N : Type}

theorem mem_mergeClaim {p : PlaceName} {merged claim : List PlaceName} :
    p ∈ mergeClaim merged claim ↔ p ∈ merged ∨ p ∈ claim := by
  unfold mergeClaim
  induction claim generalizing merged with
  | nil => simp
  | cons name claim ih =>
    rw [List.foldl_cons, ih, List.mem_cons]
    split
    next known =>
      constructor
      · rintro (old | new)
        · exact .inl old
        · exact .inr (.inr new)
      · rintro (old | rfl | new)
        · exact .inl old
        · exact .inl known
        · exact .inr new
    next => simp only [List.mem_append, List.mem_singleton, or_assoc]

theorem mem_crossProduct {a b : List (List PlaceName)} {set : List PlaceName} :
    set ∈ Verification.crossProduct a b ↔ ∃ x ∈ a, ∃ y ∈ b, mergeClaim x y = set := by
  simp [Verification.crossProduct]

mutual

theorem enumerateBranches_places {out : Out} {branch : List PlaceName}
    (h : branch ∈ enumerateBranches out) : ∀ p ∈ branch, p ∈ out.collectPlaces := by
  cases out with
  | place q => simp_all [enumerateBranches, Out.collectPlaces]
  | forwardInput source target => simp_all [enumerateBranches, Out.collectPlaces]
  | timeout afterMs child =>
    simp only [enumerateBranches, Out.collectPlaces] at h ⊢
    exact enumerateBranches_places h
  | and children =>
    simp only [enumerateBranches, Out.collectPlaces] at h ⊢
    intro p mem
    obtain ⟨set, start, extra⟩ := enumerateAnd_places h p mem
    exact extra.resolve_left (by simp_all)
  | xor children =>
    simp only [enumerateBranches, Out.collectPlaces] at h ⊢
    exact enumerateXor_places h

theorem enumerateAnd_places {children : List Out} {result : List (List PlaceName)}
    {branch : List PlaceName} (h : branch ∈ enumerateAnd children result) :
    ∀ p ∈ branch, ∃ set ∈ result, p ∈ set ∨ p ∈ Out.collectPlacesAll children := by
  cases children with
  | nil =>
    intro p mem
    exact ⟨branch, h, .inl mem⟩
  | cons child children =>
    simp only [enumerateAnd, Out.collectPlacesAll] at h ⊢
    intro p mem
    obtain ⟨set, inside, place⟩ := enumerateAnd_places h p mem
    obtain ⟨x, hx, y, hy, rfl⟩ := mem_crossProduct.mp inside
    refine ⟨x, hx, ?_⟩
    rcases place with merged | later
    · rcases mem_mergeClaim.mp merged with old | new
      · exact .inl old
      · exact .inr (List.mem_append_left _ (enumerateBranches_places hy p new))
    · exact .inr (List.mem_append_right _ later)

theorem enumerateXor_places {children : List Out} {branch : List PlaceName}
    (h : branch ∈ enumerateXor children) : ∀ p ∈ branch, p ∈ Out.collectPlacesAll children := by
  cases children with
  | nil => simp [enumerateXor] at h
  | cons child children =>
    simp only [enumerateXor, Out.collectPlacesAll, List.mem_append] at h ⊢
    intro p mem
    rcases h with here | later
    · exact .inl (enumerateBranches_places here p mem)
    · exact .inr (enumerateXor_places later p mem)

end

/-! ## Timeouts -/

mutual

theorem findTimeout_places {out child : Out} {afterMs : Ms}
    (h : out.findTimeout = some (afterMs, child)) :
    ∀ p ∈ child.collectPlaces, p ∈ out.collectPlaces := by
  cases out with
  | place q => cases h
  | forwardInput source target => cases h
  | timeout ms inner =>
    simp only [Out.findTimeout, Option.some.injEq, Prod.mk.injEq] at h
    obtain ⟨-, rfl⟩ := h
    simp [Out.collectPlaces]
  | and children =>
    simp only [Out.findTimeout, Out.collectPlaces] at h ⊢
    exact findTimeoutAll_places h
  | xor children =>
    simp only [Out.findTimeout, Out.collectPlaces] at h ⊢
    exact findTimeoutAll_places h

theorem findTimeoutAll_places {children : List Out} {child : Out} {afterMs : Ms}
    (h : Out.findTimeoutAll children = some (afterMs, child)) :
    ∀ p ∈ child.collectPlaces, p ∈ Out.collectPlacesAll children := by
  cases children with
  | nil => cases h
  | cons first rest =>
    simp only [Out.findTimeoutAll, Out.collectPlacesAll, List.mem_append] at h ⊢
    intro p mem
    cases found : first.findTimeout with
    | some timeout =>
      rw [found] at h
      obtain rfl := Option.some.inj h
      exact .inl (findTimeout_places found p mem)
    | none =>
      rw [found] at h
      exact .inr (findTimeoutAll_places h p mem)

end

theorem mem_keys_set {m : OrderedMap PlaceName Deposit} {p q : PlaceName} {d : Deposit} :
    p ∈ (m.set q d).keys ↔ p = q ∨ p ∈ m.keys := by
  rw [OrderedMap.keys_set]
  split
  next present =>
    constructor
    · exact .inr
    · rintro (rfl | mem)
      · exact present
      · exact mem
  next => simp [or_comm]

mutual

theorem timeoutDeposits_places (t : Transition V N) {out : Out} {acc : OrderedMap PlaceName Deposit}
    {p : PlaceName} (h : p ∈ (timeoutDeposits t out acc).keys) :
    p ∈ acc.keys ∨ p ∈ out.collectPlaces := by
  cases out with
  | place q =>
    rcases mem_keys_set.mp h with rfl | old
    · exact .inr (by simp [Out.collectPlaces])
    · exact .inl old
  | forwardInput source target =>
    simp only [timeoutDeposits] at h
    split at h
    · exact .inl h
    · rcases mem_keys_set.mp h with rfl | old
      · exact .inr (by simp [Out.collectPlaces])
      · exact .inl old
  | timeout ms child =>
    simp only [timeoutDeposits, Out.collectPlaces] at h ⊢
    exact timeoutDeposits_places t h
  | and children =>
    simp only [timeoutDeposits, Out.collectPlaces] at h ⊢
    exact timeoutDepositsAll_places t h
  | xor children => exact .inl h

theorem timeoutDepositsAll_places (t : Transition V N) {children : List Out}
    {acc : OrderedMap PlaceName Deposit} {p : PlaceName}
    (h : p ∈ (timeoutDepositsAll t children acc).keys) :
    p ∈ acc.keys ∨ p ∈ Out.collectPlacesAll children := by
  cases children with
  | nil => exact .inl h
  | cons child children =>
    simp only [timeoutDepositsAll, Out.collectPlacesAll, List.mem_append] at h ⊢
    rcases timeoutDepositsAll_places t h with old | later
    · rcases timeoutDeposits_places t old with acc | here
      · exact .inl acc
      · exact .inr (.inl here)
    · exact .inr (.inr later)

end

/-! ## Outcomes -/

theorem mem_makeOutcome {deposits : OrderedMap PlaceName Deposit} {p : PlaceName} :
    p ∈ (makeOutcome deposits).deposits.map Prod.fst ↔ p ∈ deposits.keys :=
  ((List.perm_insertionSort _ deposits.entries).map Prod.fst).mem_iff

theorem mem_keys_foldl_set {branch : List PlaceName} {m : OrderedMap PlaceName Deposit}
    {p : PlaceName} :
    p ∈ (branch.foldl (fun deposits p => deposits.set p (.tokens 1)) m).keys ↔
      p ∈ m.keys ∨ p ∈ branch := by
  induction branch generalizing m with
  | nil => simp
  | cons q branch ih =>
    rw [List.foldl_cons, ih, mem_keys_set, List.mem_cons]
    tauto

theorem mem_branchOutcome {branch : List PlaceName} {p : PlaceName} :
    p ∈ (branchOutcome branch).deposits.map Prod.fst ↔ p ∈ branch := by
  unfold branchOutcome
  rw [mem_makeOutcome, mem_keys_foldl_set]
  simp [OrderedMap.keys, OrderedMap.empty]

theorem emptyOutcome_deposits : emptyOutcome.deposits = [] := rfl

theorem actionOutcomes_places {spec : Out} {o : Outcome} (h : o ∈ actionOutcomes spec) :
    ∀ p ∈ o.deposits.map Prod.fst, p ∈ spec.collectPlaces := by
  intro p mem
  unfold actionOutcomes at h
  dsimp only at h
  split at h
  · rw [List.mem_singleton.mp h] at mem
    cases mem
  · obtain ⟨branch, inside, rfl⟩ := List.mem_map.mp h
    exact enumerateBranches_places inside p (mem_branchOutcome.mp mem)

theorem timeoutOutcome_places {t : Transition V N} {child : Out} :
    ∀ p ∈ (timeoutOutcome t child).deposits.map Prod.fst, p ∈ child.collectPlaces := by
  intro p mem
  rw [timeoutOutcome, mem_makeOutcome] at mem
  exact (timeoutDeposits_places t mem).resolve_left (by simp [OrderedMap.keys, OrderedMap.empty])

theorem outcomes_places {t : Transition V N} {o : Outcome} (h : o ∈ outcomes t) :
    ∀ p ∈ o.deposits.map Prod.fst, p ∈ t.outputPlaces := by
  intro p mem
  cases spec : t.outputSpec with
  | none =>
    simp only [outcomes, spec, List.mem_singleton] at h
    subst h
    cases mem
  | some out =>
    simp only [Transition.outputPlaces, spec, Option.map_some, Option.getD_some]
    rcases (mem_outcomes spec).mp h with action | ⟨afterMs, child, timed, rfl⟩
    · exact actionOutcomes_places action p mem
    · have found : out.findTimeout = some (afterMs, child) := by
        simpa [Transition.actionTimeout, spec] using timed
      exact findTimeout_places found p (timeoutOutcome_places p mem)

end LibPetri.Verified
