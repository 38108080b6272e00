import Mathlib

/-! # First repeats

The first position of a list whose element has come before, and the first position of an element, in sums
and products of lists.  A product lists its pairs with the second component running fastest, so its first
repeat is one of the second list's, unless that has none.
-/

namespace LibPetri.Basis

/-! ## The first number with a property -/

/-- What a search for the smallest number with a property finds. -/
inductive IsFirst (p : Nat → Prop) : Option Nat → Prop
  | absent (never : ∀ n, ¬ p n) : IsFirst p none
  | found {n : Nat} (holds : p n) (before : ∀ m < n, ¬ p m) : IsFirst p (some n)

namespace IsFirst

variable {p q r : Nat → Prop} {k : Nat}

theorem congr {search : Option Nat} (h : IsFirst p search) (same : ∀ n, p n ↔ q n) :
    IsFirst q search := by
  cases h with
  | absent never => exact .absent fun n holds => never n ((same n).mpr holds)
  | found holds before =>
    exact .found ((same _).mp holds) fun m lt holds' => before m lt ((same m).mpr holds')

theorem unique {search search' : Option Nat} (h : IsFirst p search) (h' : IsFirst p search') :
    search = search' := by
  cases h with
  | absent never =>
    cases h' with
    | absent => rfl
    | found holds _ => exact absurd holds (never _)
  | found holds before =>
    cases h' with
    | absent never => exact absurd holds (never _)
    | found holds' before' =>
      rename_i n m
      rcases Nat.lt_trichotomy n m with lt | rfl | lt
      · exact absurd holds (before' n lt)
      · rfl
      · exact absurd holds' (before m lt)

/-- A search below `k`, then one from `k` on. -/
theorem add {low high : Option Nat} (hlow : IsFirst q low) (hhigh : IsFirst r high)
    (below : ∀ n < k, (p n ↔ q n)) (inside : ∀ n, q n → n < k) (above : ∀ m, p (k + m) ↔ r m) :
    IsFirst p (low.or (high.map (k + ·))) := by
  cases hlow with
  | found holds before =>
    have lt := inside _ holds
    exact .found ((below _ lt).mpr holds) fun m mlt holds' =>
      before m mlt ((below m (mlt.trans lt)).mp holds')
  | absent never =>
    have nothing : ∀ n < k, ¬ p n := fun n lt holds => never n ((below n lt).mp holds)
    cases hhigh with
    | absent never' =>
      refine .absent fun n holds => ?_
      by_cases lt : n < k
      · exact nothing n lt holds
      · obtain ⟨m, rfl⟩ := Nat.exists_eq_add_of_le (Nat.le_of_not_lt lt)
        exact never' m ((above m).mp holds)
    | found holds before =>
      refine .found ((above _).mpr holds) fun n lt holds' => ?_
      by_cases low : n < k
      · exact nothing n low holds'
      · obtain ⟨m, rfl⟩ := Nat.exists_eq_add_of_le (Nat.le_of_not_lt low)
        exact before m (Nat.lt_of_add_lt_add_left lt) ((above m).mp holds')

/-- The smaller of two searches. -/
theorem or {one other : Option Nat} (h : IsFirst p one) (h' : IsFirst q other) :
    IsFirst (fun n => p n ∨ q n) (one.merge min other) := by
  cases h with
  | absent never =>
    rw [Option.merge_none_left]
    exact h'.congr fun n => ⟨.inr, fun both => both.resolve_left (never n)⟩
  | found holds before =>
    cases h' with
    | absent never =>
      exact .found (.inl holds) fun m lt => not_or.mpr ⟨before m lt, never m⟩
    | found holds' before' =>
      refine .found ?_ fun m lt => not_or.mpr
        ⟨before m (lt.trans_le (min_le_left _ _)), before' m (lt.trans_le (min_le_right _ _))⟩
      rename_i n m
      rcases min_choice n m with eq | eq
      · exact .inl (by rwa [eq])
      · exact .inr (by rwa [eq])

theorem eq_none_iff {search : Option Nat} (h : IsFirst p search) : search = none ↔ ∀ n, ¬ p n := by
  cases h with
  | absent never => exact ⟨fun _ => never, fun _ => rfl⟩
  | found holds _ => exact ⟨nofun, fun never => absurd holds (never _)⟩

end IsFirst

/-! ## Positions of a product -/

section Product

variable {α β γ : Type} {xs : List α} {ys : List β} {f : α → β → γ}

/-- The elements made of one from each list, the second running fastest. -/
def productWith (f : α → β → γ) (xs : List α) (ys : List β) : List γ :=
  xs.flatMap fun x => ys.map (f x)

theorem length_productWith : (productWith f xs ys).length = xs.length * ys.length := by
  simp [productWith, List.length_flatMap]

theorem mem_productWith {z : γ} : z ∈ productWith f xs ys ↔ ∃ x ∈ xs, ∃ y ∈ ys, f x y = z := by
  simp [productWith]

theorem productWith_unit (f : α → β → β) (x : α) (unit : ∀ y, f x y = y) :
    productWith f [x] ys = ys := by
  rw [productWith, List.flatMap_singleton]
  exact (List.map_congr_left fun y _ => unit y).trans (List.map_id ys)

theorem unit_productWith (f : α → β → α) (y : β) (unit : ∀ x, f x y = x) :
    productWith f xs [y] = xs := by
  rw [productWith]
  induction xs with
  | nil => rfl
  | cons x xs ih => rw [List.flatMap_cons, ih, List.map_singleton, unit, List.singleton_append]

theorem productWith_assoc {f : α → α → α} (assoc : ∀ x y z, f (f x y) z = f x (f y z))
    {xs ys zs : List α} :
    productWith f xs (productWith f ys zs) = productWith f (productWith f xs ys) zs := by
  simp only [productWith, List.flatMap_assoc, List.map_flatMap, List.flatMap_map, List.map_map]
  refine List.flatMap_congr fun x _ => List.flatMap_congr fun y _ => List.map_congr_left fun z _ => ?_
  exact (assoc x y z).symm

theorem getElem?_productWith {a b : Nat} (inside : b < ys.length) :
    (productWith f xs ys)[a * ys.length + b]? = (xs[a]?).bind fun x => (ys[b]?).map (f x) := by
  rw [productWith]
  induction xs generalizing a with
  | nil => simp
  | cons x xs ih =>
    rw [List.flatMap_cons]
    cases a with
    | zero =>
      rw [List.getElem?_append_left (by simpa using inside)]
      simp
    | succ a =>
      rw [List.getElem?_append_right (by rw [List.length_map, Nat.succ_mul]; omega), List.length_map,
        List.getElem?_cons_succ, ← ih]
      congr 1
      rw [Nat.succ_mul]
      omega

/-- What stands at a position of a product. -/
theorem productWith_at {n : Nat} {z : γ} (h : (productWith f xs ys)[n]? = some z) :
    ∃ a b x y, n = a * ys.length + b ∧ xs[a]? = some x ∧ ys[b]? = some y ∧ f x y = z := by
  have lt : n < xs.length * ys.length := by
    rw [← length_productWith (f := f)]
    exact (List.getElem?_eq_some_iff.mp h).1
  have positive : 0 < ys.length := Nat.pos_of_ne_zero fun zero => by
    rw [zero, Nat.mul_zero] at lt
    omega
  have split : n / ys.length * ys.length + n % ys.length = n := Nat.div_add_mod' n ys.length
  rw [← split, getElem?_productWith (Nat.mod_lt _ positive)] at h
  obtain ⟨x, hx, rest⟩ := Option.bind_eq_some_iff.mp h
  obtain ⟨y, hy, made⟩ := Option.map_eq_some_iff.mp rest
  exact ⟨_, _, x, y, split.symm, hx, hy, made⟩

theorem productWith_put {a b : Nat} {x : α} {y : β} (hx : xs[a]? = some x) (hy : ys[b]? = some y) :
    (productWith f xs ys)[a * ys.length + b]? = some (f x y) := by
  rw [getElem?_productWith (List.getElem?_eq_some_iff.mp hy).1, hx, hy]
  rfl

end Product

/-! ## Numbered lists -/

section Numbered

variable {α β γ : Type}

def numberedFrom : Nat → List α → List (Nat × α)
  | _, [] => []
  | k, x :: xs => (k, x) :: numberedFrom (k + 1) xs

/-- Each element with its position. -/
def numbered (xs : List α) : List (Nat × α) := numberedFrom 0 xs

theorem numberedFrom_add (k m : Nat) (xs : List α) :
    numberedFrom (k + m) xs = (numberedFrom m xs).map fun e => (k + e.1, e.2) := by
  induction xs generalizing m with
  | nil => rfl
  | cons x xs ih => rw [numberedFrom, numberedFrom, List.map_cons, ← ih, Nat.add_assoc]

theorem numbered_cons (x : α) (xs : List α) :
    numbered (x :: xs) = (0, x) :: (numbered xs).map fun e => (1 + e.1, e.2) := by
  rw [numbered, numberedFrom, numbered, ← numberedFrom_add]

theorem numbered_append (xs ys : List α) :
    numbered (xs ++ ys) = numbered xs ++ (numbered ys).map fun e => (xs.length + e.1, e.2) := by
  induction xs with
  | nil => simp [numbered, numberedFrom]
  | cons x xs ih =>
    simp only [List.cons_append, numbered_cons, ih, List.map_append, List.map_map, List.length_cons]
    congr 3
    funext e
    simp only [Function.comp_apply, Prod.mk.injEq, and_true]
    omega

theorem numbered_map (f : α → β) (xs : List α) :
    numbered (xs.map f) = (numbered xs).map fun e => (e.1, f e.2) := by
  induction xs with
  | nil => rfl
  | cons x xs ih =>
    simp only [List.map_cons, numbered_cons, ih, List.map_map]
    rfl

theorem numbered_productWith (f : α → β → γ) (xs : List α) (ys : List β) :
    numbered (productWith f xs ys) = (numbered xs).flatMap fun head =>
      (numbered ys).map fun tail => (head.1 * ys.length + tail.1, f head.2 tail.2) := by
  induction xs with
  | nil => rfl
  | cons x xs ih =>
    have split : productWith f (x :: xs) ys = ys.map (f x) ++ productWith f xs ys := List.flatMap_cons
    rw [split, numbered_append, numbered_map, ih, numbered_cons, List.flatMap_cons, List.flatMap_map,
      List.map_flatMap]
    congr 1
    · simp
    · refine List.flatMap_congr fun head _ => ?_
      rw [List.map_map]
      refine List.map_congr_left fun tail _ => ?_
      simp only [Function.comp_apply, List.length_map, Prod.mk.injEq, and_true]
      rw [Nat.add_mul, Nat.one_mul, Nat.add_assoc]

theorem mem_numbered {xs : List α} {n : Nat} {x : α} : (n, x) ∈ numbered xs ↔ xs[n]? = some x := by
  induction xs generalizing n with
  | nil => simp [numbered, numberedFrom]
  | cons y xs ih =>
    rw [numbered_cons, List.mem_cons]
    cases n with
    | zero =>
      constructor
      · rintro (here | later)
        · simpa using (Prod.mk.inj here).2.symm
        · obtain ⟨e, -, same⟩ := List.mem_map.mp later
          have := (Prod.mk.inj same).1
          omega
      · intro here
        exact .inl (by rw [Option.some.inj here])
    | succ n =>
      rw [List.getElem?_cons_succ, ← ih]
      constructor
      · rintro (here | later)
        · cases (Prod.mk.inj here).1
        · obtain ⟨e, mem, same⟩ := List.mem_map.mp later
          obtain ⟨first, rfl⟩ := Prod.mk.inj same
          obtain rfl : e.1 = n := by omega
          exact mem
      · intro mem
        exact .inr (List.mem_map.mpr ⟨(n, x), mem, Prod.ext (Nat.add_comm 1 n) rfl⟩)

theorem numbered_pairwise (xs : List α) : (numbered xs).Pairwise fun e e' => e.1 < e'.1 := by
  induction xs with
  | nil => exact List.Pairwise.nil
  | cons x xs ih =>
    rw [numbered_cons, List.pairwise_cons, List.pairwise_map]
    refine ⟨fun e mem => ?_, ih.imp fun lt => Nat.add_lt_add_left lt 1⟩
    obtain ⟨e', -, rfl⟩ := List.mem_map.mp mem
    exact Nat.lt_add_right _ Nat.one_pos

/-- Searching the numbered list finds the first position with a property. -/
theorem isFirst_find? (xs : List α) (q : Nat × α → Bool) :
    IsFirst (fun n => ∃ x, xs[n]? = some x ∧ q (n, x) = true)
      (((numbered xs).find? q).map Prod.fst) := by
  cases found : (numbered xs).find? q with
  | none =>
    refine .absent fun n holds => ?_
    obtain ⟨x, at_, holds⟩ := holds
    exact List.find?_eq_none.mp found (n, x) (mem_numbered.mpr at_) holds
  | some e =>
    obtain ⟨holds, before, after, split, none_before⟩ := List.find?_eq_some_iff_append.mp found
    have mem : e ∈ numbered xs := split ▸ List.mem_append_right _ List.mem_cons_self
    have sorted := numbered_pairwise xs
    rw [split, List.pairwise_append, List.pairwise_cons] at sorted
    refine .found ⟨e.2, mem_numbered.mp mem, holds⟩ fun m lt holds' => ?_
    obtain ⟨x, at_, holds'⟩ := holds'
    have mem' := mem_numbered.mpr at_
    rw [split, List.mem_append, List.mem_cons] at mem'
    rcases mem' with early | rfl | late
    · have := none_before _ early
      simp only [holds', Bool.not_true, Bool.false_eq_true] at this
    · exact Nat.lt_irrefl _ lt
    · exact Nat.lt_asymm lt (sorted.2.1.1 _ late)

end Numbered

/-! ## The first occurrence -/

section Occurrence

variable {α β γ : Type}

/-- What a search for the first position of an element finds. -/
abbrev FirstOf (xs : List α) (a : α) : Option Nat → Prop := IsFirst fun n => xs[n]? = some a

theorem FirstOf.append {xs ys : List α} {a : α} {one other : Option Nat} (h : FirstOf xs a one)
    (h' : FirstOf ys a other) : FirstOf (xs ++ ys) a (one.or (other.map (xs.length + ·))) := by
  refine h.add h' (fun n lt => ?_) (fun n at_ => ?_) fun m => ?_
  · rw [List.getElem?_append_left lt]
  · exact (List.getElem?_eq_some_iff.mp at_).1
  · rw [List.getElem?_append_right (Nat.le_add_right _ _), Nat.add_sub_cancel_left]

theorem FirstOf.none_iff {xs : List α} {a : α} {search : Option Nat} (h : FirstOf xs a search) :
    search = none ↔ a ∉ xs := by
  rw [h.eq_none_iff, List.mem_iff_getElem?]
  simp

/-- The first pair is made of the first of each. -/
theorem FirstOf.product {xs : List α} {ys : List β} {f : α → β → γ} {x : α} {y : β} {one other : Option Nat}
    (h : FirstOf xs x one) (h' : FirstOf ys y other)
    (apart : ∀ x' ∈ xs, ∀ y' ∈ ys, f x' y' = f x y → x' = x ∧ y' = y) :
    FirstOf (productWith f xs ys) (f x y)
      (one.bind fun a => other.map fun b => a * ys.length + b) := by
  have split {n : Nat} (at_ : (productWith f xs ys)[n]? = some (f x y)) :
      ∃ a b, n = a * ys.length + b ∧ xs[a]? = some x ∧ ys[b]? = some y := by
    obtain ⟨a, b, x', y', rfl, hx, hy, made⟩ := productWith_at at_
    obtain ⟨rfl, rfl⟩ := apart x' (List.mem_of_getElem? hx) y' (List.mem_of_getElem? hy) made
    exact ⟨a, b, rfl, hx, hy⟩
  cases h with
  | absent never =>
    refine .absent fun n at_ => ?_
    obtain ⟨a, b, -, hx, -⟩ := split at_
    exact never a hx
  | found holds before =>
    cases h' with
    | absent never =>
      refine .absent fun n at_ => ?_
      obtain ⟨a, b, -, -, hy⟩ := split at_
      exact never b hy
    | found holds' before' =>
      rename_i a b
      refine .found (productWith_put holds holds') fun n lt at_ => ?_
      obtain ⟨a', b', rfl, hx, hy⟩ := split at_
      have lt : a' * ys.length + b' < a * ys.length + b := lt
      rcases Nat.lt_trichotomy a' a with low | rfl | high
      · exact before a' low hx
      · exact before' b' (by omega) hy
      · have := Nat.mul_le_mul_right ys.length high
        rw [Nat.succ_mul] at this
        have := (List.getElem?_eq_some_iff.mp holds').1
        omega

end Occurrence

/-! ## The first repeat -/

section Repeats

variable {α β γ : Type}

/-- The element at `j` has come before. -/
def Repeats (xs : List α) (j : Nat) : Prop := ∃ a, xs[j]? = some a ∧ ∃ i < j, xs[i]? = some a

theorem Repeats.lt_length {xs : List α} {j : Nat} (h : Repeats xs j) : j < xs.length := by
  obtain ⟨a, at_, -⟩ := h
  exact (List.getElem?_eq_some_iff.mp at_).1

theorem repeats_append_left {xs ys : List α} {j : Nat} (lt : j < xs.length) :
    Repeats (xs ++ ys) j ↔ Repeats xs j := by
  unfold Repeats
  rw [List.getElem?_append_left lt]
  refine exists_congr fun a => and_congr_right fun _ => exists_congr fun i => and_congr_right fun ilt => ?_
  rw [List.getElem?_append_left (ilt.trans lt)]

theorem repeats_append_right {xs ys : List α} {m : Nat} :
    Repeats (xs ++ ys) (xs.length + m) ↔ (∃ a ∈ xs, ys[m]? = some a) ∨ Repeats ys m := by
  unfold Repeats
  rw [List.getElem?_append_right (Nat.le_add_right _ _), Nat.add_sub_cancel_left]
  constructor
  · rintro ⟨a, at_, i, lt, before⟩
    by_cases low : i < xs.length
    · rw [List.getElem?_append_left low] at before
      exact .inl ⟨a, List.mem_of_getElem? before, at_⟩
    · rw [List.getElem?_append_right (Nat.le_of_not_lt low)] at before
      exact .inr ⟨a, at_, i - xs.length, by omega, before⟩
  · rintro (⟨a, mem, at_⟩ | ⟨a, at_, i, lt, before⟩)
    · obtain ⟨i, here⟩ := List.mem_iff_getElem?.mp mem
      have low := (List.getElem?_eq_some_iff.mp here).1
      exact ⟨a, at_, i, by omega, by rw [List.getElem?_append_left low, here]⟩
    · refine ⟨a, at_, xs.length + i, by omega, ?_⟩
      rw [List.getElem?_append_right (Nat.le_add_right _ _), Nat.add_sub_cancel_left, before]

/-- The first repeat of a sum: the first list's, or else a position of the second that repeats there or
that the first list has. -/
theorem IsFirst.repeats_append {xs ys : List α} {one other : Option Nat} (h : IsFirst (Repeats xs) one)
    (h' : IsFirst (fun m => (∃ a ∈ xs, ys[m]? = some a) ∨ Repeats ys m) other) :
    IsFirst (Repeats (xs ++ ys)) (one.or (other.map (xs.length + ·))) :=
  h.add h' (fun _ lt => repeats_append_left lt) (fun _ again => again.lt_length)
    fun _ => repeats_append_right

theorem IsFirst.repeats_append_of_some {xs : List α} {n : Nat} (h : IsFirst (Repeats xs) (some n))
    (ys : List α) : IsFirst (Repeats (xs ++ ys)) (some n) := by
  cases h with
  | found again before =>
    have lt := again.lt_length
    exact .found ((repeats_append_left lt).mpr again) fun m mlt again' =>
      before m mlt ((repeats_append_left (mlt.trans lt)).mp again')

/-- The first repeat of a product: the second list's, or else the first list's at the start of a row. -/
theorem IsFirst.repeats_product {xs : List α} {ys : List β} {f : α → β → γ} {one other : Option Nat}
    (h : IsFirst (Repeats xs) one) (h' : IsFirst (Repeats ys) other) (some_ : xs ≠ []) (some_' : ys ≠ [])
    (apart : ∀ x ∈ xs, ∀ y ∈ ys, ∀ x' ∈ xs, ∀ y' ∈ ys, f x y = f x' y' → x = x' ∧ y = y') :
    IsFirst (Repeats (productWith f xs ys)) (other.or (one.map (· * ys.length))) := by
  have split {n : Nat} (again : Repeats (productWith f xs ys) n) :
      ∃ a b x y, n = a * ys.length + b ∧ xs[a]? = some x ∧ ys[b]? = some y ∧
        ∃ a' b', a' * ys.length + b' < n ∧ xs[a']? = some x ∧ ys[b']? = some y := by
    obtain ⟨z, at_, i, lt, before⟩ := again
    obtain ⟨a, b, x, y, rfl, hx, hy, rfl⟩ := productWith_at at_
    obtain ⟨a', b', x', y', rfl, hx', hy', made⟩ := productWith_at before
    obtain ⟨rfl, rfl⟩ := apart x' (List.mem_of_getElem? hx') y' (List.mem_of_getElem? hy') x
      (List.mem_of_getElem? hx) y (List.mem_of_getElem? hy) made
    exact ⟨a, b, x', y', rfl, hx, hy, a', b', lt, hx', hy'⟩
  obtain ⟨x₀, xs', rfl⟩ := List.exists_cons_of_ne_nil some_
  obtain ⟨y₀, ys', rfl⟩ := List.exists_cons_of_ne_nil some_'
  cases h' with
  | found again before =>
    rename_i j
    have inside := again.lt_length
    obtain ⟨y, at_, i, lt, before_⟩ := again
    -- The repeat of the second list shows in the first row; above it that row has none.
    have first : (x₀ :: xs')[0]? = some x₀ := rfl
    refine .found ⟨f x₀ y, ?_, i, lt, ?_⟩ fun n nlt again => ?_
    · simpa using productWith_put (f := f) first at_
    · simpa using productWith_put (f := f) first before_
    · obtain ⟨a, b, x, y', rfl, hx, hy, a', b', lt', hx', hy'⟩ := split again
      have zero : a = 0 := by
        rcases Nat.eq_zero_or_pos a with zero | positive
        · exact zero
        · have := Nat.mul_le_mul_right (y₀ :: ys').length positive
          omega
      subst zero
      have zero' : a' = 0 := by
        rcases Nat.eq_zero_or_pos a' with zero | positive
        · exact zero
        · have := Nat.mul_le_mul_right (y₀ :: ys').length positive
          omega
      subst zero'
      exact before b (by omega) ⟨y', hy, b', by omega, hy'⟩
  | absent never =>
    -- Two equal elements of the second list stand at one position.
    have same {b b' : Nat} {y : β} (hy : (y₀ :: ys')[b]? = some y) (hy' : (y₀ :: ys')[b']? = some y) :
        b = b' := by
      rcases Nat.lt_trichotomy b b' with lt | eq | lt
      · exact absurd ⟨y, hy', b, lt, hy⟩ (never b')
      · exact eq
      · exact absurd ⟨y, hy, b', lt, hy'⟩ (never b)
    have rows {n : Nat} (again : Repeats (productWith f (x₀ :: xs') (y₀ :: ys')) n) :
        ∃ a b, n = a * (y₀ :: ys').length + b ∧ Repeats (x₀ :: xs') a := by
      obtain ⟨a, b, x, y, rfl, hx, hy, a', b', lt, hx', hy'⟩ := split again
      obtain rfl := same hy hy'
      refine ⟨a, b, rfl, x, hx, a', ?_, hx'⟩
      exact Nat.lt_of_mul_lt_mul_right (a := (y₀ :: ys').length) (by omega)
    cases h with
    | absent never' =>
      refine .absent fun n again => ?_
      obtain ⟨a, b, -, again'⟩ := rows again
      exact never' a again'
    | found again before =>
      obtain ⟨x, at_, i, lt, before_⟩ := again
      have first : (y₀ :: ys')[0]? = some y₀ := rfl
      refine .found ⟨f x y₀, productWith_put at_ first, i * (y₀ :: ys').length + 0, ?_,
        productWith_put before_ first⟩ fun n nlt again => ?_
      · exact Nat.mul_lt_mul_of_pos_right lt (Nat.succ_pos _)
      · obtain ⟨a, b, rfl, again'⟩ := rows again
        have lt' : a * (y₀ :: ys').length < _ * (y₀ :: ys').length := (Nat.le_add_right _ b).trans_lt nlt
        exact before a (Nat.lt_of_mul_lt_mul_right lt') again'

end Repeats

end LibPetri.Basis
