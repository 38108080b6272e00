import Mathlib

/-! # Array-backed binary min-heaps

`push` appends and sifts up, `pop` moves the last element to the root and sifts down.  `Heap a`
is the order both keep; `root_le` reads the minimum off it, and `push_perm` and `pop_perm` say what
happens to the contents.
-/

namespace LibPetri.Basis.BinaryHeap

variable {α : Type} [LinearOrder α]

/-- The index of the parent: `(i - 1) >> 1`. -/
def parent (i : Nat) : Nat := (i - 1) >>> 1

/-- `a[i] < a[j]`, both in bounds. -/
def less (a : Array α) (i j : Nat) : Bool :=
  match a[i]?, a[j]? with
  | some x, some y => decide (x < y)
  | _, _ => false

/-- `while (i > 0)`: swaps the element at `i` with its parent while it is smaller. -/
def siftUp : Nat → Array α → Nat → Array α
  | 0, a, _ => a
  | fuel + 1, a, i =>
    if 0 < i ∧ less a i (parent i) = true then
      siftUp fuel (a.swapIfInBounds i (parent i)) (parent i)
    else a

/-- The smallest of `i` and its two children. -/
def smallest (a : Array α) (i : Nat) : Nat :=
  let m := if less a (2 * i + 1) i then 2 * i + 1 else i
  if less a (2 * i + 2) m then 2 * i + 2 else m

/-- Swaps the element at `i` with its smallest child while that one is smaller. -/
def siftDown : Nat → Array α → Nat → Array α
  | 0, a, _ => a
  | fuel + 1, a, i =>
    if smallest a i = i then a
    else siftDown fuel (a.swapIfInBounds i (smallest a i)) (smallest a i)

def push (a : Array α) (e : α) : Array α := siftUp (a.size + 1) (a.push e) a.size

def pop (a : Array α) : Array α :=
  match a.back? with
  | none => a
  | some last =>
    if a.pop.size = 0 then a.pop else siftDown a.pop.size (a.pop.setIfInBounds 0 last) 0

/-! ## Order -/

/-- The element at `i`, if any, is at most the element at `j`, if any. -/
def AtMost (a : Array α) (i j : Nat) : Prop := ∀ x, a[i]? = some x → ∀ y, a[j]? = some y → x ≤ y

/-- No element is smaller than its parent. -/
def Heap (a : Array α) : Prop := ∀ k, 0 < k → AtMost a (parent k) k

/-- A heap but for the element at `hole`, which may be smaller than its parent. -/
def UpOrder (a : Array α) (hole : Nat) : Prop :=
  (∀ k, 0 < k → k ≠ hole → AtMost a (parent k) k) ∧
    ∀ k, 0 < hole → 0 < k → parent k = hole → AtMost a (parent hole) k

/-- A heap but for the element at `hole`, which may be larger than its children. -/
def DownOrder (a : Array α) (hole : Nat) : Prop :=
  (∀ k, 0 < k → parent k ≠ hole → AtMost a (parent k) k) ∧
    ∀ k, 0 < hole → 0 < k → parent k = hole → AtMost a (parent hole) k

theorem parent_eq (i : Nat) : parent i = (i - 1) / 2 := Nat.shiftRight_eq_div_pow _ 1

theorem parent_lt {i : Nat} (h : 0 < i) : parent i < i := by
  rw [parent_eq]
  omega

theorem less_iff {a : Array α} {i j : Nat} :
    less a i j = true ↔ ∃ x y, a[i]? = some x ∧ a[j]? = some y ∧ x < y := by
  unfold less
  split
  next x y hx hy => simp [hx, hy]
  next h =>
    simp only [Bool.false_eq_true, false_iff, not_exists, not_and]
    intro x y hx hy
    exact (h x y hx hy).elim

theorem AtMost.of_not_less {a : Array α} {i j : Nat} (h : ¬ less a i j = true) : AtMost a j i := by
  intro x hx y hy
  by_contra lt
  exact h (less_iff.mpr ⟨y, x, hy, hx, not_le.mp lt⟩)

theorem AtMost.of_less {a : Array α} {i j : Nat} (h : less a i j = true) : AtMost a i j := by
  obtain ⟨x, y, hx, hy, lt⟩ := less_iff.mp h
  intro x' hx' y' hy'
  rw [hx] at hx'
  rw [hy] at hy'
  cases hx'
  cases hy'
  exact le_of_lt lt

theorem AtMost.trans {a : Array α} {i j k : Nat} (h : AtMost a i j) (h' : AtMost a j k)
    (inBounds : j < a.size) : AtMost a i k := by
  intro x hx z hz
  have hj : a[j]? = some a[j] := Array.getElem?_eq_getElem inBounds
  exact le_trans (h x hx _ hj) (h' _ hj z hz)

theorem AtMost.of_size_le {a : Array α} {i j : Nat} (h : a.size ≤ j) : AtMost a i j := by
  intro x _ y hy
  rw [Array.getElem?_eq_none h] at hy
  cases hy

omit [LinearOrder α] in
theorem getElem?_swapIfInBounds {a : Array α} {i j : Nat} (hi : i < a.size) (hj : j < a.size)
    (k : Nat) : (a.swapIfInBounds i j)[k]? = a[Equiv.swap i j k]? := by
  rw [Array.swapIfInBounds_def, dif_pos hi, dif_pos hj, Array.getElem?_swap]
  by_cases hkj : j = k
  · subst hkj
    simp [Equiv.swap_apply_right, hi]
  · by_cases hki : i = k
    · subst hki
      simp [hkj, Equiv.swap_apply_left, hj]
    · rw [Equiv.swap_apply_of_ne_of_ne (Ne.symm hki) (Ne.symm hkj)]
      simp [hki, hkj]

theorem atMost_swap {a : Array α} {i j : Nat} (hi : i < a.size) (hj : j < a.size) (x y : Nat) :
    AtMost (a.swapIfInBounds i j) x y ↔ AtMost a (Equiv.swap i j x) (Equiv.swap i j y) := by
  unfold AtMost
  rw [getElem?_swapIfInBounds hi hj, getElem?_swapIfInBounds hi hj]

theorem UpOrder.swap {a : Array α} {i : Nat} (o : UpOrder a i) (pos : 0 < i)
    (lt : less a i (parent i) = true) : UpOrder (a.swapIfInBounds i (parent i)) (parent i) := by
  obtain ⟨x, y, hx, hy, _⟩ := less_iff.mp lt
  have hi : i < a.size := (Array.getElem?_eq_some_iff.mp hx).1
  have hp : parent i < a.size := (Array.getElem?_eq_some_iff.mp hy).1
  have hpi : parent i ≠ i := Nat.ne_of_lt (parent_lt pos)
  have swapped := AtMost.of_less lt
  refine ⟨fun k hk hkp => ?_, fun k hp0 hk hkp => ?_⟩
  · rw [atMost_swap hi hp]
    by_cases hki : k = i
    · subst hki
      rw [Equiv.swap_apply_right, Equiv.swap_apply_left]
      exact swapped
    · rw [Equiv.swap_apply_of_ne_of_ne hki hkp]
      by_cases h1 : parent k = parent i
      · rw [h1, Equiv.swap_apply_right]
        exact swapped.trans (h1 ▸ o.1 k hk hki) hp
      · by_cases h2 : parent k = i
        · rw [h2, Equiv.swap_apply_left]
          exact o.2 k pos hk h2
        · rw [Equiv.swap_apply_of_ne_of_ne h2 h1]
          exact o.1 k hk hki
  · rw [atMost_swap hi hp]
    have up := parent_lt hp0
    have grand : AtMost a (parent (parent i)) (parent i) := o.1 (parent i) hp0 hpi
    have fixed : Equiv.swap i (parent i) (parent (parent i)) = parent (parent i) :=
      Equiv.swap_apply_of_ne_of_ne (by have := parent_lt pos; omega) (Nat.ne_of_lt up)
    rw [fixed]
    by_cases hki : k = i
    · subst hki
      rw [Equiv.swap_apply_left]
      exact grand
    · rw [Equiv.swap_apply_of_ne_of_ne hki (by rintro rfl; exact Nat.ne_of_lt up hkp)]
      exact grand.trans (hkp ▸ o.1 k hk hki) hp

theorem UpOrder.stop {a : Array α} {i : Nat} (o : UpOrder a i)
    (h : ¬ (0 < i ∧ less a i (parent i) = true)) : Heap a := by
  intro k hk
  by_cases hki : k = i
  · subst hki
    exact AtMost.of_not_less fun lt => h ⟨hk, lt⟩
  · exact o.1 k hk hki

theorem heap_siftUp (fuel : Nat) (a : Array α) (i : Nat) (enough : i < fuel) (o : UpOrder a i) :
    Heap (siftUp fuel a i) := by
  induction fuel generalizing a i with
  | zero => omega
  | succ fuel ih =>
    rw [siftUp]
    split
    next h => exact ih _ _ (by have := parent_lt h.1; omega) (o.swap h.1 h.2)
    next h => exact o.stop h

theorem children {k i : Nat} (hk : 0 < k) (h : parent k = i) : k = 2 * i + 1 ∨ k = 2 * i + 2 := by
  rw [parent_eq] at h
  omega

/-- The smallest of the three is at most the other two. -/
theorem atMost_smallest (a : Array α) (i : Nat) (hi : i < a.size) :
    AtMost a (smallest a i) i ∧ AtMost a (smallest a i) (2 * i + 1) ∧
      AtMost a (smallest a i) (2 * i + 2) := by
  have refl : ∀ j, AtMost a j j := by
    intro j x hx y hy
    rw [hx] at hy
    cases hy
    exact le_refl x
  unfold smallest
  by_cases hl : less a (2 * i + 1) i = true
  · have hl1 : 2 * i + 1 < a.size := by
      obtain ⟨x, _, hx, _⟩ := less_iff.mp hl
      exact (Array.getElem?_eq_some_iff.mp hx).1
    simp only [hl, ↓reduceIte]
    split
    next hr =>
      have hr := AtMost.of_less hr
      exact ⟨hr.trans (AtMost.of_less hl) hl1, hr, refl _⟩
    next hr => exact ⟨AtMost.of_less hl, refl _, AtMost.of_not_less hr⟩
  · simp only [hl, Bool.false_eq_true, ↓reduceIte]
    split
    next hr =>
      have hr := AtMost.of_less hr
      exact ⟨hr, hr.trans (AtMost.of_not_less hl) hi, refl _⟩
    next hr => exact ⟨refl _, AtMost.of_not_less hl, AtMost.of_not_less hr⟩

theorem smallest_child {a : Array α} {i : Nat} (h : smallest a i ≠ i) :
    (smallest a i = 2 * i + 1 ∨ smallest a i = 2 * i + 2) ∧ smallest a i < a.size := by
  have inBounds : ∀ k m, less a k m = true → k < a.size := by
    intro k m hkm
    obtain ⟨x, _, hx, _⟩ := less_iff.mp hkm
    exact (Array.getElem?_eq_some_iff.mp hx).1
  unfold smallest at h ⊢
  by_cases hl : less a (2 * i + 1) i = true
  · simp only [hl, ↓reduceIte] at h ⊢
    split
    next hr => exact ⟨Or.inr rfl, inBounds _ _ hr⟩
    next => exact ⟨Or.inl rfl, inBounds _ _ hl⟩
  · simp only [hl, Bool.false_eq_true, ↓reduceIte] at h ⊢
    split at h
    next hr => rw [if_pos hr]; exact ⟨Or.inr rfl, inBounds _ _ hr⟩
    next => exact absurd rfl h

theorem DownOrder.swap {a : Array α} {i : Nat} (o : DownOrder a i) (hi : i < a.size)
    (ne : smallest a i ≠ i) : DownOrder (a.swapIfInBounds i (smallest a i)) (smallest a i) := by
  obtain ⟨child, hm⟩ := smallest_child ne
  obtain ⟨least, left, right⟩ := atMost_smallest a i hi
  have hpm : parent (smallest a i) = i := by
    rw [parent_eq]
    omega
  have toChild : ∀ k, 0 < k → parent k = i → AtMost a (smallest a i) k := by
    intro k hk hki
    rcases children hk hki with rfl | rfl
    · exact left
    · exact right
  have hm0 : 0 < smallest a i := by omega
  refine ⟨fun k hk hkm => ?_, fun k _ hk hkm => ?_⟩
  · rw [atMost_swap hi hm]
    by_cases hki : k = i
    · subst hki
      have h1 := parent_lt hk
      rw [Equiv.swap_apply_left, Equiv.swap_apply_of_ne_of_ne (Nat.ne_of_lt h1) (by omega)]
      exact o.2 _ hk hm0 hpm
    · by_cases hks : k = smallest a i
      · rw [hks, Equiv.swap_apply_right, hpm, Equiv.swap_apply_left]
        exact least
      · rw [Equiv.swap_apply_of_ne_of_ne hki hks]
        by_cases hpi : parent k = i
        · rw [hpi, Equiv.swap_apply_left]
          exact toChild k hk hpi
        · rw [Equiv.swap_apply_of_ne_of_ne hpi hkm]
          exact o.1 k hk hpi
  · rw [hpm, atMost_swap hi hm, Equiv.swap_apply_left]
    have hkm' := parent_lt hk
    rw [Equiv.swap_apply_of_ne_of_ne (by omega) (by omega)]
    exact hkm ▸ o.1 k hk (by omega)

theorem heap_siftDown (fuel : Nat) (a : Array α) (i : Nat) (enough : a.size ≤ i + fuel)
    (hi : i < a.size) (o : DownOrder a i) : Heap (siftDown fuel a i) := by
  induction fuel generalizing a i with
  | zero => omega
  | succ fuel ih =>
    rw [siftDown]
    split
    next stop =>
      obtain ⟨_, left, right⟩ := atMost_smallest a i hi
      rw [stop] at left right
      intro k hk
      by_cases hpk : parent k = i
      · rcases children hk hpk with rfl | rfl
        · rw [hpk]; exact left
        · rw [hpk]; exact right
      · exact o.1 k hk hpk
    next ne =>
      obtain ⟨child, hm⟩ := smallest_child ne
      refine ih _ _ ?_ ?_ (o.swap hi ne)
      · rw [Array.size_swapIfInBounds]
        omega
      · rw [Array.size_swapIfInBounds]
        exact hm

theorem heap_push {a : Array α} (h : Heap a) (e : α) : Heap (push a e) := by
  refine heap_siftUp _ _ _ (by omega) ⟨fun k hk ne => ?_, fun k pos hk hp => ?_⟩
  · intro x hx y hy
    rcases Nat.lt_or_ge k a.size with lt | ge
    · have lt' : parent k < a.size := Nat.lt_trans (parent_lt hk) lt
      rw [Array.getElem?_push_lt lt'] at hx
      rw [Array.getElem?_push_lt lt] at hy
      exact h k hk x (by rw [Array.getElem?_eq_getElem lt']; exact hx) y
        (by rw [Array.getElem?_eq_getElem lt]; exact hy)
    · rw [Array.getElem?_eq_none (by rw [Array.size_push]; omega)] at hy
      cases hy
  · exact AtMost.of_size_le (by rw [Array.size_push]; have := parent_lt hk; omega)

theorem heap_pop {a : Array α} (h : Heap a) : Heap (pop a) := by
  unfold pop
  split
  · exact h
  next last hlast =>
    split
    next empty =>
      intro k hk
      exact AtMost.of_size_le (by omega)
    next nonempty =>
      have sizes : (a.pop.setIfInBounds 0 last).size = a.pop.size := Array.size_setIfInBounds
      refine heap_siftDown _ _ _ (by rw [sizes]; omega) (by rw [sizes]; omega) ⟨fun k hk ne => ?_, ?_⟩
      · intro x hx y hy
        rw [Array.getElem?_setIfInBounds_ne (Ne.symm ne)] at hx
        rw [Array.getElem?_setIfInBounds_ne (by omega)] at hy
        have below : ∀ {j : Nat} {z : α}, a.pop[j]? = some z → a[j]? = some z := by
          intro j z hz
          rw [Array.getElem?_pop] at hz
          split at hz
          · exact hz
          · cases hz
        exact h k hk x (below hx) y (below hy)
      · intro k pos
        exact absurd pos (Nat.lt_irrefl 0)

/-- The root of a heap is at most every element. -/
theorem root_le {a : Array α} (h : Heap a) (k : Nat) : AtMost a 0 k := by
  induction k using Nat.strongRecOn with
  | ind k ih =>
    rcases Nat.eq_zero_or_pos k with rfl | pos
    · intro x hx y hy
      rw [hx] at hy
      cases hy
      exact le_refl x
    · rcases Nat.lt_or_ge k a.size with lt | ge
      · exact (ih _ (parent_lt pos)).trans (h k pos) (Nat.lt_trans (parent_lt pos) lt)
      · exact AtMost.of_size_le ge

/-! ## Contents -/

omit [LinearOrder α] in
theorem swapIfInBounds_perm (a : Array α) (i j : Nat) : (a.swapIfInBounds i j).toList.Perm a.toList := by
  rw [Array.swapIfInBounds_def]
  split
  · split
    · exact (Array.swap_perm _ _).toList
    · exact List.Perm.refl _
  · exact List.Perm.refl _

theorem siftUp_perm (fuel : Nat) (a : Array α) (i : Nat) : (siftUp fuel a i).toList.Perm a.toList := by
  induction fuel generalizing a i with
  | zero => exact List.Perm.refl _
  | succ fuel ih =>
    rw [siftUp]
    split
    · exact (ih _ _).trans (swapIfInBounds_perm _ _ _)
    · exact List.Perm.refl _

theorem siftDown_perm (fuel : Nat) (a : Array α) (i : Nat) :
    (siftDown fuel a i).toList.Perm a.toList := by
  induction fuel generalizing a i with
  | zero => exact List.Perm.refl _
  | succ fuel ih =>
    rw [siftDown]
    split
    · exact List.Perm.refl _
    · exact (ih _ _).trans (swapIfInBounds_perm _ _ _)

theorem push_perm (a : Array α) (e : α) : (push a e).toList.Perm (e :: a.toList) := by
  refine (siftUp_perm _ _ _).trans ?_
  rw [Array.toList_push]
  exact List.perm_append_singleton _ _

theorem pop_perm {a : Array α} {e : α} (h : a[0]? = some e) : a.toList.Perm (e :: (pop a).toList) := by
  rcases a with ⟨items⟩
  rcases items with _ | ⟨head, tail⟩
  · simp at h
  obtain rfl : head = e := by simpa using h
  rcases List.eq_nil_or_concat tail with rfl | ⟨init, last, rfl⟩
  · simp [pop]
  · have moved : pop ⟨head :: init.concat last⟩ =
        siftDown (init.length + 1) ⟨last :: init⟩ 0 := by
      simp [pop, Array.back?, List.concat_eq_append, List.dropLast_cons_of_ne_nil]
    rw [moved, List.concat_eq_append]
    refine List.Perm.cons _ ?_
    exact (List.perm_append_singleton _ _).trans (siftDown_perm _ ⟨last :: init⟩ 0).symm

end LibPetri.Basis.BinaryHeap
