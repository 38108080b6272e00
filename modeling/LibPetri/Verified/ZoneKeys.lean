import LibPetri.Basis.Delimited
import LibPetri.Verified.Zones

/-! # What the key of a zone tells

The key of a zone renders its bounds with three decimals.  Where every bound is a whole number of
milliseconds that forgets nothing, and the operations on zones keep such bounds.
-/

namespace LibPetri.Verified

open LibPetri.Basis LibPetri.Verification BoundMatrix

/-- Whole milliseconds, in seconds. -/
def milliseconds : AddSubgroup ℚ := AddSubgroup.zmultiples (1 / 1000)

theorem mem_milliseconds {q : ℚ} : q ∈ milliseconds ↔ ∃ n : ℤ, q = n / 1000 := by
  unfold milliseconds
  rw [AddSubgroup.mem_zmultiples_iff]
  refine exists_congr fun n => ?_
  rw [zsmul_eq_mul, mul_one_div, eq_comm]

/-! ## The text of a bound -/

/-- Three decimals. -/
def decimals (d : Nat) : List Char :=
  List.replicate (3 - (Nat.repr d).length) '0' ++ Nat.toDigits 10 d

theorem ofDigitChars_decimals (d : Nat) : Nat.ofDigitChars 10 (decimals d) 0 = d := by
  rw [decimals, Nat.ofDigitChars_append, Nat.ofDigitChars_replicate_zero, Nat.mul_zero,
    Nat.ofDigitChars_ten_toDigits]

theorem decimals_inj {d d' : Nat} (same : decimals d = decimals d') : d = d' := by
  rw [← ofDigitChars_decimals d, same, ofDigitChars_decimals d']

/-- The magnitude of a number, in rounded milliseconds. -/
def rounded (q : ℚ) : Nat := ⌊|q| * 1000 + 1 / 2⌋.toNat

theorem rounded_eq {n : ℤ} : rounded (n / 1000 : ℚ) = n.natAbs := by
  have magnitude : |(n / 1000 : ℚ)| * 1000 + 1 / 2 = ((n.natAbs : ℤ) : ℚ) + 1 / 2 := by
    rw [abs_div, Int.natCast_natAbs, Int.cast_abs, abs_of_pos (by norm_num : (0 : ℚ) < 1000)]
    ring
  have floor : ⌊((n.natAbs : ℤ) : ℚ) + 1 / 2⌋ = (n.natAbs : ℤ) := by
    rw [Int.floor_intCast_add]
    norm_num
  unfold rounded
  rw [magnitude, floor, Int.toNat_natCast]

theorem toList_toFixed3 (q : ℚ) :
    (DBM.toFixed3 q).toList = (if q < 0 then ['-'] else []) ++
      (Nat.toDigits 10 (rounded q / 1000) ++ '.' :: decimals (rounded q % 1000)) := by
  unfold DBM.toFixed3 decimals
  split <;> simp [rounded]

theorem no_sign {k : Nat} {tail : List Char} :
    (Nat.toDigits 10 k ++ '.' :: tail).head? ≠ some '-' := by
  cases found : Nat.toDigits 10 k with
  | nil => simp
  | cons c cs =>
    have digit : c.isDigit = true := digit_ne (found ▸ List.mem_cons_self)
    intro eq
    obtain rfl : c = '-' := by simpa using eq
    exact absurd digit (by decide)

/-- Two numbers have one text where they have one sign and round to the same millisecond. -/
theorem toFixed3_eq_iff {q r : ℚ} :
    DBM.toFixed3 q = DBM.toFixed3 r ↔ (q < 0 ↔ r < 0) ∧ rounded q = rounded r := by
  -- behind the sign, the digits up to the point and the decimals
  have digits {n m : Nat} (tails : Nat.toDigits 10 (n / 1000) ++ '.' :: decimals (n % 1000) =
      Nat.toDigits 10 (m / 1000) ++ '.' :: decimals (m % 1000)) : n = m := by
    obtain ⟨whole, -, fraction⟩ := append_cons_inj (P := fun c => c.isDigit = true)
      (fun _ mem => digit_ne mem) (by decide) (fun _ mem => digit_ne mem) (by decide) tails
    have whole := toDigits_inj whole
    have fraction := decimals_inj fraction
    omega
  constructor
  · intro same
    have same := congrArg String.toList same
    rw [toList_toFixed3, toList_toFixed3] at same
    by_cases neg : q < 0
    · by_cases neg' : r < 0
      · rw [if_pos neg, if_pos neg'] at same
        exact ⟨iff_of_true neg neg', digits (List.append_cancel_left same)⟩
      · rw [if_pos neg, if_neg neg'] at same
        exact absurd (congrArg List.head? same.symm) no_sign
    · by_cases neg' : r < 0
      · rw [if_neg neg, if_pos neg'] at same
        exact absurd (congrArg List.head? same) no_sign
      · rw [if_neg neg, if_neg neg'] at same
        exact ⟨iff_of_false neg neg', digits (List.append_cancel_left same)⟩
  · rintro ⟨sign, magnitude⟩
    refine String.toList_inj.mp ?_
    rw [toList_toFixed3, toList_toFixed3, magnitude]
    simp only [sign]

/-! ## Bounds of one text -/

/-- One bound, or two fractional numbers of one sign that round to the same millisecond. -/
def RoundsAlike (b c : Bound) : Prop :=
  b = c ∨ ∃ q r : ℚ, b = q ∧ c = r ∧ q.isInt = false ∧ r.isInt = false ∧ (q < 0 ↔ r < 0) ∧
    rounded q = rounded r

theorem mem_decimals {d : Nat} {c : Char} (mem : c ∈ decimals d) : c.isDigit = true := by
  rcases List.mem_append.mp mem with zero | digit
  · rw [List.eq_of_mem_replicate zero]
    decide
  · exact digit_ne digit

theorem mem_toFixed3 {q : ℚ} {c : Char} (mem : c ∈ (DBM.toFixed3 q).toList) :
    c = '-' ∨ c = '.' ∨ c.isDigit = true := by
  rw [toList_toFixed3] at mem
  simp only [List.mem_append, List.mem_cons] at mem
  obtain sign | digit | point | digit := mem
  · split at sign
    · exact .inl (List.mem_singleton.mp sign)
    · cases sign
  · exact .inr (.inr (digit_ne digit))
  · exact .inr (.inl point)
  · exact .inr (.inr (mem_decimals digit))

theorem repr_ne_toFixed3 {n : ℤ} {q : ℚ} : Int.repr n ≠ DBM.toFixed3 q := by
  intro same
  have point : '.' ∈ (Int.repr n).toList := by
    rw [same, toList_toFixed3]
    simp
  rcases mem_repr point with sign | digit
  · exact absurd sign (by decide)
  · exact absurd digit (by decide)

/-- No text of a bound holds the delimiter of a key. -/
theorem delimiter_not_mem_formatBound (b : Bound) : '|' ∉ (DBM.formatBound b).toList := by
  intro mem
  cases b with
  | none => exact absurd mem (by decide)
  | some q =>
    unfold DBM.formatBound at mem
    dsimp only at mem
    split at mem
    · exact absurd (mem_repr mem) (by decide)
    · exact absurd (mem_toFixed3 mem) (by decide)

theorem formatBound_coe_ne {q : ℚ} : DBM.formatBound (q : Bound) ≠ DBM.formatBound ⊤ := by
  intro same
  have mem : '∞' ∈ (DBM.formatBound (q : Bound)).toList := by
    rw [same]
    decide
  unfold DBM.formatBound at mem
  dsimp only at mem
  split at mem
  · exact absurd (mem_repr mem) (by decide)
  · exact absurd (mem_toFixed3 mem) (by decide)

theorem eq_of_isInt {q r : ℚ} (whole : q.isInt = true) (whole' : r.isInt = true)
    (same : q.num = r.num) : q = r := by
  have den : q.den = 1 := eq_of_beq whole
  have den' : r.den = 1 := eq_of_beq whole'
  exact Rat.ext same (den.trans den'.symm)

theorem formatBound_eq_iff {b c : Bound} :
    DBM.formatBound b = DBM.formatBound c ↔ RoundsAlike b c := by
  constructor
  · intro same
    cases b with
    | none =>
      cases c with
      | none => exact .inl rfl
      | some r => exact absurd same.symm formatBound_coe_ne
    | some q =>
      cases c with
      | none => exact absurd same formatBound_coe_ne
      | some r =>
        unfold DBM.formatBound at same
        dsimp only at same
        by_cases whole : q.isInt = true
        · by_cases whole' : r.isInt = true
          · rw [if_pos whole, if_pos whole'] at same
            rw [eq_of_isInt whole whole' (repr_inj same)]
            exact .inl rfl
          · rw [if_pos whole, if_neg whole'] at same
            exact absurd same repr_ne_toFixed3
        · by_cases whole' : r.isInt = true
          · rw [if_neg whole, if_pos whole'] at same
            exact absurd same.symm repr_ne_toFixed3
          · rw [if_neg whole, if_neg whole'] at same
            rw [Bool.not_eq_true] at whole whole'
            exact .inr ⟨q, r, rfl, rfl, whole, whole', toFixed3_eq_iff.mp same⟩
  · rintro (rfl | ⟨q, r, rfl, rfl, whole, whole', alike⟩)
    · rfl
    · unfold DBM.formatBound
      dsimp only
      rw [whole, whole', if_neg Bool.false_ne_true, if_neg Bool.false_ne_true]
      exact toFixed3_eq_iff.mpr alike

/-- Whole milliseconds round alike only where they are equal. -/
theorem RoundsAlike.eq {b c : Bound} (h : RoundsAlike b c)
    (whole : ∀ q : ℚ, b = q → q ∈ milliseconds) (whole' : ∀ q : ℚ, c = q → q ∈ milliseconds) :
    b = c := by
  obtain rfl | ⟨q, r, rfl, rfl, -, -, sign, same⟩ := h
  · rfl
  · obtain ⟨n, rfl⟩ := mem_milliseconds.mp (whole q rfl)
    obtain ⟨m, rfl⟩ := mem_milliseconds.mp (whole' r rfl)
    rw [rounded_eq, rounded_eq] at same
    have negative (k : ℤ) : (k / 1000 : ℚ) < 0 ↔ k < 0 := by
      rw [div_neg_iff]
      norm_num
    rw [negative, negative] at sign
    rw [show n = m by omega]

end LibPetri.Verified
