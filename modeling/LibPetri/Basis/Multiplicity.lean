import Mathlib

/-! # Multiplicities up to two

Two collections that tell apart no copy, one copy and more than one copy of each element agree up to two.
Sums and combinations keep this.
-/

namespace LibPetri.Basis

variable {α β γ : Type}

theorem min_two_mul {x x' y y' : Nat} (hx : min 2 x = min 2 x') (hy : min 2 y = min 2 y') :
    min 2 (x * y) = min 2 (x' * y') := by
  -- a product reaches two exactly when neither factor is zero and one of them reaches two
  have reaches (x y : Nat) : 2 ≤ x * y ↔ (2 ≤ x ∧ 1 ≤ y) ∨ (1 ≤ x ∧ 2 ≤ y) := by
    constructor
    · intro large
      have left : x ≠ 0 := by
        rintro rfl
        simp at large
      have right : y ≠ 0 := by
        rintro rfl
        simp at large
      by_contra small
      have : x = 1 := by omega
      have : y = 1 := by omega
      subst x y
      omega
    · rintro (⟨two, one⟩ | ⟨one, two⟩)
      · exact two.trans (Nat.le_mul_of_pos_right x one)
      · exact two.trans (Nat.le_mul_of_pos_left y one)
  have some_ (x y : Nat) : 1 ≤ x * y ↔ 1 ≤ x ∧ 1 ≤ y := by
    simp [Nat.one_le_iff_ne_zero]
  have := reaches x y
  have := reaches x' y'
  have := some_ x y
  have := some_ x' y'
  omega

theorem min_two_sum {s : Finset α} {f g : α → Nat} (same : ∀ a ∈ s, min 2 (f a) = min 2 (g a)) :
    min 2 (∑ a ∈ s, f a) = min 2 (∑ a ∈ s, g a) := by
  induction s using Finset.cons_induction with
  | empty => rfl
  | cons a s absent ih =>
    rw [Finset.sum_cons, Finset.sum_cons]
    have first := same a (Finset.mem_cons_self a s)
    have rest := ih fun b mem => same b (Finset.mem_cons_of_mem mem)
    omega

variable [DecidableEq α] [DecidableEq β] [DecidableEq γ]

/-- The same elements, once or more than once. -/
def UpToTwo (A B : Multiset α) : Prop := ∀ a, min 2 (A.count a) = min 2 (B.count a)

namespace UpToTwo

variable {A A' : Multiset α} {B B' : Multiset β}

theorem refl (A : Multiset α) : UpToTwo A A := fun _ => rfl

theorem symm (h : UpToTwo A A') : UpToTwo A' A := fun a => (h a).symm

theorem trans {A'' : Multiset α} (h : UpToTwo A A') (h' : UpToTwo A' A'') : UpToTwo A A'' :=
  fun a => (h a).trans (h' a)

theorem mem_iff (h : UpToTwo A A') (a : α) : a ∈ A ↔ a ∈ A' := by
  rw [← Multiset.count_pos, ← Multiset.count_pos]
  have := h a
  omega

theorem eq_zero (h : UpToTwo A 0) : A = 0 :=
  Multiset.eq_zero_of_forall_notMem fun a mem => Multiset.notMem_zero a ((h.mem_iff a).mp mem)

theorem add {C C' : Multiset α} (h : UpToTwo A A') (h' : UpToTwo C C') : UpToTwo (A + C) (A' + C') := by
  intro a
  rw [Multiset.count_add, Multiset.count_add]
  have := h a
  have := h' a
  omega

/-- A sum over the elements tells no more apart than the elements do. -/
theorem sum_map (h : UpToTwo A A') {f g : α → Nat} (same : ∀ a, min 2 (f a) = min 2 (g a)) :
    min 2 (A.map f).sum = min 2 (A'.map g).sum := by
  have elements : A.toFinset = A'.toFinset := by
    ext a
    rw [Multiset.mem_toFinset, Multiset.mem_toFinset, h.mem_iff]
  rw [Finset.sum_multiset_map_count, Finset.sum_multiset_map_count, elements]
  refine min_two_sum fun a _ => ?_
  rw [smul_eq_mul, smul_eq_mul]
  exact min_two_mul (h a) (same a)

/-- All combinations of elements of two collections. -/
theorem combine (h : UpToTwo A A') (h' : UpToTwo B B') (f : α → β → γ) :
    UpToTwo (A.bind fun a => B.map (f a)) (A'.bind fun a => B'.map (f a)) := by
  have map_count (B : Multiset β) (f : β → γ) (c : γ) :
      (B.map f).count c = (B.map fun b => if f b = c then 1 else 0).sum := by
    induction B using Multiset.induction with
    | empty => simp
    | cons b B ih =>
      rw [Multiset.map_cons, Multiset.map_cons, Multiset.sum_cons, Multiset.count_cons, ih, add_comm]
      simp only [eq_comm]
  intro c
  rw [Multiset.count_bind, Multiset.count_bind]
  refine h.sum_map fun a => ?_
  rw [map_count, map_count]
  exact h'.sum_map fun _ => rfl

end UpToTwo

omit [DecidableEq α] in
/-- An element stands once in the second components exactly when one first component stands with it. -/
theorem count_map_snd_eq_one {pairs : List (α × β)} (nodup : (pairs.map Prod.fst).Nodup) (b : β) :
    (pairs.map Prod.snd).count b = 1 ↔ ∃! a, (a, b) ∈ pairs := by
  have alone {l : List α} (nodup : l.Nodup) : l.length = 1 ↔ ∃! a, a ∈ l := by
    rw [List.length_eq_one_iff]
    constructor
    · rintro ⟨a, rfl⟩
      exact ⟨a, List.mem_singleton_self a, fun _ mem => List.mem_singleton.mp mem⟩
    · rintro ⟨a, mem, unique⟩
      exact ⟨a, (List.perm_singleton.mp ((List.perm_ext_iff_of_nodup nodup (List.nodup_singleton a)).mpr
        fun c => ⟨fun other => List.mem_singleton.mpr (unique c other), fun eq =>
          List.mem_singleton.mp eq ▸ mem⟩))⟩
  set those := (pairs.filter fun p => p.2 = b).map Prod.fst with those_def
  have length : (pairs.map Prod.snd).count b = those.length := by
    rw [those_def, List.length_map, List.count_eq_countP, List.countP_map, List.countP_eq_length_filter]
    congr 1
  have distinct : those.Nodup := (List.Sublist.map _ List.filter_sublist).nodup nodup
  rw [length, alone distinct]
  have mem (a : α) : a ∈ those ↔ (a, b) ∈ pairs := by
    rw [those_def, List.mem_map]
    constructor
    · rintro ⟨⟨a, c⟩, listed, rfl⟩
      obtain ⟨listed, eq⟩ := List.mem_filter.mp listed
      rwa [← of_decide_eq_true eq]
    · exact fun listed => ⟨(a, b), List.mem_filter.mpr ⟨listed, decide_eq_true rfl⟩, rfl⟩
  simp only [mem]

end LibPetri.Basis
