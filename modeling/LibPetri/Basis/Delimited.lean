import Mathlib

/-! # Delimited texts

A text made of parts and delimiters determines its parts, where the parts hold no delimiter.
-/

namespace LibPetri.Basis

variable {α : Type}

/-- Two texts that agree agree up to the first character outside `P`, and behind it. -/
theorem append_cons_inj {P : α → Prop} {xs xs' ys ys' : List α} {c c' : α}
    (inside : ∀ x ∈ xs, P x) (outside : ¬P c) (inside' : ∀ x ∈ xs', P x) (outside' : ¬P c')
    (same : xs ++ c :: ys = xs' ++ c' :: ys') : xs = xs' ∧ c = c' ∧ ys = ys' := by
  induction xs generalizing xs' with
  | nil =>
    cases xs' with
    | nil =>
      obtain ⟨rfl, rfl⟩ := List.cons.inj same
      exact ⟨rfl, rfl, rfl⟩
    | cons x xs' =>
      obtain ⟨rfl, -⟩ := List.cons.inj same
      exact absurd (inside' _ List.mem_cons_self) outside
  | cons x xs ih =>
    cases xs' with
    | nil =>
      obtain ⟨rfl, -⟩ := List.cons.inj same
      exact absurd (inside _ List.mem_cons_self) outside'
    | cons x' xs' =>
      obtain ⟨rfl, tail⟩ := List.cons.inj same
      obtain ⟨rfl, rfl, rfl⟩ := ih (fun y mem => inside y (List.mem_cons_of_mem _ mem))
        (fun y mem => inside' y (List.mem_cons_of_mem _ mem)) tail
      exact ⟨rfl, rfl, rfl⟩

/-- Joining parts by a character none of them holds forgets nothing, as long as there are parts. -/
theorem intercalate_inj {c : α} {parts parts' : List (List α)} (free : ∀ part ∈ parts, c ∉ part)
    (free' : ∀ part ∈ parts', c ∉ part) (some_ : parts ≠ []) (some' : parts' ≠ [])
    (same : [c].intercalate parts = [c].intercalate parts') : parts = parts' := by
  have more (part next : List α) (parts : List (List α)) :
      [c].intercalate (part :: next :: parts) = part ++ c :: [c].intercalate (next :: parts) := by
    simp [List.intercalate, List.intersperse]
  have one (part : List α) : [c].intercalate [part] = part := by
    simp [List.intercalate]
  induction parts generalizing parts' with
  | nil => exact absurd rfl some_
  | cons part parts ih =>
    cases parts' with
    | nil => exact absurd rfl some'
    | cons part' parts' =>
      cases parts with
      | nil =>
        cases parts' with
        | nil => rwa [one, one, ← List.singleton_inj] at same
        | cons next' parts' =>
          rw [one, more] at same
          refine absurd ?_ (free part List.mem_cons_self)
          rw [same]
          simp
      | cons next parts =>
        cases parts' with
        | nil =>
          rw [one, more] at same
          refine absurd ?_ (free' part' List.mem_cons_self)
          rw [← same]
          simp
        | cons next' parts' =>
          rw [more, more] at same
          obtain ⟨rfl, -, same⟩ := append_cons_inj (P := fun x => x ≠ c)
            (fun x mem eq => free part List.mem_cons_self (eq ▸ mem)) (fun h => h rfl)
            (fun x mem eq => free' part' List.mem_cons_self (eq ▸ mem)) (fun h => h rfl) same
          rw [ih (fun q mem => free q (List.mem_cons_of_mem _ mem))
            (fun q mem => free' q (List.mem_cons_of_mem _ mem)) (List.cons_ne_nil _ _)
            (List.cons_ne_nil _ _) same]

/-- Parts that are counted. -/
theorem intercalate_singleton_inj {c : α} {parts parts' : List (List α)}
    (free : ∀ part ∈ parts, c ∉ part) (free' : ∀ part ∈ parts', c ∉ part)
    (length : parts.length = parts'.length)
    (same : [c].intercalate parts = [c].intercalate parts') : parts = parts' := by
  cases parts with
  | nil => exact (List.length_eq_zero_iff.mp length.symm).symm
  | cons part parts =>
    have some' : parts' ≠ [] := by
      rintro rfl
      cases length
    exact intercalate_inj free free' (List.cons_ne_nil _ _) some' same

/-- Parts that are never empty. -/
theorem intercalate_inj_of_ne_nil {c : α} {parts parts' : List (List α)}
    (free : ∀ part ∈ parts, c ∉ part) (free' : ∀ part ∈ parts', c ∉ part)
    (some_ : ∀ part ∈ parts, part ≠ []) (some' : ∀ part ∈ parts', part ≠ [])
    (same : [c].intercalate parts = [c].intercalate parts') : parts = parts' := by
  have nonempty {parts : List (List α)} (some_ : ∀ part ∈ parts, part ≠ [])
      (empty : [c].intercalate parts = []) : parts = [] := by
    cases parts with
    | nil => rfl
    | cons part parts =>
      have part_nil : part = [] := by
        cases parts with
        | nil => simpa [List.intercalate] using empty
        | cons next parts => simp [List.intercalate, List.intersperse] at empty
      exact absurd part_nil (some_ part List.mem_cons_self)
  by_cases none_ : parts = []
  · subst none_
    exact (nonempty some' same.symm).symm
  · by_cases none' : parts' = []
    · subst none'
      exact nonempty some_ same
    · exact intercalate_inj free free' none_ none' same

/-- A number is read back from its digits. -/
theorem toDigits_inj {n m : Nat} (same : Nat.toDigits 10 n = Nat.toDigits 10 m) : n = m := by
  rw [← Nat.ofDigitChars_ten_toDigits (n := n), same, Nat.ofDigitChars_ten_toDigits]

/-! ## Numbers -/

theorem digit_ne {c : Char} {n : Nat} (mem : c ∈ Nat.toDigits 10 n) : c.isDigit = true :=
  Nat.isDigit_of_mem_toDigits (by decide) (by decide) mem

theorem toList_repr (n : ℤ) :
    (Int.repr n).toList = (if n < 0 then ['-'] else []) ++ Nat.toDigits 10 n.natAbs := by
  cases n with
  | ofNat n => simp [Int.repr]
  | negSucc n => simp [Int.repr, Int.negSucc_lt_zero]

theorem repr_inj {n m : ℤ} (same : Int.repr n = Int.repr m) : n = m := by
  have same := congrArg String.toList same
  rw [toList_repr, toList_repr] at same
  have no_sign {k k' : Nat} : '-' :: Nat.toDigits 10 k ≠ Nat.toDigits 10 k' := by
    intro eq
    exact absurd (digit_ne (eq ▸ List.mem_cons_self)) (by decide)
  by_cases neg : n < 0
  · by_cases neg' : m < 0
    · rw [if_pos neg, if_pos neg'] at same
      have := toDigits_inj (List.append_cancel_left same)
      omega
    · rw [if_pos neg, if_neg neg'] at same
      exact absurd same no_sign
  · by_cases neg' : m < 0
    · rw [if_neg neg, if_pos neg'] at same
      exact absurd same.symm no_sign
    · rw [if_neg neg, if_neg neg'] at same
      have := toDigits_inj (List.append_cancel_left same)
      omega

theorem mem_repr {n : ℤ} {c : Char} (mem : c ∈ (Int.repr n).toList) : c = '-' ∨ c.isDigit = true := by
  rw [toList_repr, List.mem_append] at mem
  rcases mem with sign | digit
  · split at sign
    · exact .inl (List.mem_singleton.mp sign)
    · cases sign
  · exact .inr (digit_ne digit)

/-- A list of numbers is read back from its text. -/
theorem joined_inj {xs ys : List ℤ} (length : xs.length = ys.length)
    (same : ",".intercalate (xs.map Int.repr) = ",".intercalate (ys.map Int.repr)) : xs = ys := by
  have free (zs : List ℤ) : ∀ part ∈ (zs.map Int.repr).map String.toList, ',' ∉ part := by
    intro part mem comma
    simp only [List.mem_map, exists_exists_and_eq_and] at mem
    obtain ⟨z, -, rfl⟩ := mem
    rcases mem_repr comma with sign | digit
    · exact absurd sign (by decide)
    · exact absurd digit (by decide)
  have same := congrArg String.toList same
  rw [String.toList_intercalate, String.toList_intercalate] at same
  have parts := intercalate_singleton_inj (free xs) (free ys) (by simpa using length) same
  have injective : Function.Injective fun n => (Int.repr n).toList := fun _ _ same =>
    repr_inj (String.toList_inj.mp same)
  rw [List.map_map, List.map_map] at parts
  exact injective.list_map parts

/-- The characters of a list of numbers. -/
theorem mem_joined {xs : List ℤ} {c : Char}
    (mem : c ∈ (",".intercalate (xs.map Int.repr)).toList) :
    c = ',' ∨ c = '-' ∨ c.isDigit = true := by
  rw [String.toList_intercalate] at mem
  induction xs with
  | nil => simp [List.intercalate] at mem
  | cons x xs ih =>
    cases xs with
    | nil =>
      rw [List.map_singleton, List.map_singleton, List.intercalate_singleton] at mem
      exact .inr (mem_repr mem)
    | cons y xs =>
      rw [List.map_cons, List.map_cons, List.intercalate_cons_of_ne_nil (by simp)] at mem
      rcases List.mem_append.mp mem with first | rest
      · rcases List.mem_append.mp first with number | comma
        · exact .inr (mem_repr number)
        · exact .inl (List.mem_singleton.mp comma)
      · exact ih rest

end LibPetri.Basis
