import Mathlib

/-! # Activities

A family of activities, each idle or under way, and a weight for each.  Starting one adds its weight to what is under
way, stopping it takes the weight off again.
-/

namespace LibPetri.Basis

variable {ι α : Type} [Fintype ι] {going : ι → Option α} {weight weight' : ι → Nat}

/-- The weights of the activities under way. -/
def underWay (going : ι → Option α) (weight : ι → Nat) : Nat := ∑ i, (going i).elim 0 fun _ => weight i

theorem underWay_idle (idle : ∀ i, going i = none) : underWay going weight = 0 :=
  Finset.sum_eq_zero fun i _ => by rw [idle i]; rfl

/-- The weights of idle activities do not matter. -/
theorem underWay_congr (same : ∀ i, (going i).isSome = true → weight i = weight' i) :
    underWay going weight = underWay going weight' := by
  apply Finset.sum_congr rfl
  intro i _
  cases active : going i with
  | none => rfl
  | some a => exact same i (by rw [active]; rfl)

theorem underWay_zero (light : ∀ i, (going i).isSome = true → weight i = 0) : underWay going weight = 0 := by
  apply Finset.sum_eq_zero
  intro i _
  cases active : going i with
  | none => rfl
  | some a => exact light i (by rw [active]; rfl)

variable [DecidableEq ι] {i : ι}

theorem underWay_update (going : ι → Option α) (weight : ι → Nat) (i : ι) (o : Option α) :
    underWay (Function.update going i o) weight + (going i).elim 0 (fun _ => weight i) =
      underWay going weight + o.elim 0 fun _ => weight i := by
  have others : ∑ j ∈ Finset.univ.erase i, ((Function.update going i o) j).elim 0 (fun _ => weight j) =
      ∑ j ∈ Finset.univ.erase i, (going j).elim 0 fun _ => weight j :=
    Finset.sum_congr rfl fun j mem => by rw [Function.update_of_ne (Finset.ne_of_mem_erase mem)]
  have after := Finset.add_sum_erase Finset.univ
    (fun j => (Function.update going i o j).elim 0 fun _ => weight j) (Finset.mem_univ i)
  have before := Finset.add_sum_erase Finset.univ (fun j => (going j).elim 0 fun _ => weight j) (Finset.mem_univ i)
  rw [others, Function.update_self] at after
  unfold underWay
  omega

theorem underWay_start (idle : going i = none) (a : α) :
    underWay (Function.update going i (some a)) weight = underWay going weight + weight i := by
  have change := underWay_update going weight i (some a)
  rw [idle] at change
  exact change

theorem underWay_stop (active : (going i).isSome = true) :
    underWay (Function.update going i none) weight + weight i = underWay going weight := by
  have change := underWay_update going weight i none
  obtain ⟨a, some_⟩ := Option.isSome_iff_exists.mp active
  rw [some_] at change
  exact change

theorem le_underWay (weight : ι → Nat) (active : (going i).isSome = true) :
    weight i ≤ underWay going weight := by
  have stopped : underWay (Function.update going i none) weight + weight i = underWay going weight :=
    underWay_stop active
  omega

end LibPetri.Basis
