import LibPetri.Core.CodePointOrder
import LibPetri.Runtime.ExecutorSupport

/-! # Code units and code points

On well-formed strings the comparison by units orders by code points.  Both of its paths compare the units
after the same move, which leaves everything below the surrogates alone and puts these last.
-/

namespace LibPetri.Verified

/-! ## Code points -/

def IsHighSurrogate (x : Nat) : Prop := 0xd800 ≤ x ∧ x < 0xdc00

def IsLowSurrogate (x : Nat) : Prop := 0xdc00 ≤ x ∧ x < 0xe000

instance (x : Nat) : Decidable (IsHighSurrogate x) := inferInstanceAs (Decidable (_ ∧ _))

instance (x : Nat) : Decidable (IsLowSurrogate x) := inferInstanceAs (Decidable (_ ∧ _))

/-- Every surrogate stands in a pair, and every unit has sixteen bits. -/
inductive WellFormedUnits : List Nat → Prop
  | nil : WellFormedUnits []
  | unit {x : Nat} {rest : List Nat} (basic : x < 0xd800 ∨ 0xe000 ≤ x ∧ x < 0x10000)
      (wf : WellFormedUnits rest) : WellFormedUnits (x :: rest)
  | pair {high low : Nat} {rest : List Nat} (first : IsHighSurrogate high) (second : IsLowSurrogate low)
      (wf : WellFormedUnits rest) : WellFormedUnits (high :: low :: rest)

/-- The code point of a surrogate pair. -/
def pairPoint (high low : Nat) : Nat := 0x10000 + (high - 0xd800) * 0x400 + (low - 0xdc00)

/-- The code points of a string, a surrogate that is in no pair being its own. -/
def codePoints : List Nat → List Nat
  | high :: low :: rest =>
    if IsHighSurrogate high ∧ IsLowSurrogate low then pairPoint high low :: codePoints rest
    else high :: codePoints (low :: rest)
  | [x] => [x]
  | [] => []

section Points

variable {x y high low : Nat} {a b c rest : List Nat}

theorem codePoints_unit (basic : x < 0xd800 ∨ 0xe000 ≤ x ∧ x < 0x10000) (rest : List Nat) :
    codePoints (x :: rest) = x :: codePoints rest := by
  cases rest with
  | nil => rfl
  | cons y rest =>
    have alone : ¬ (IsHighSurrogate x ∧ IsLowSurrogate y) := by
      rintro ⟨⟨_, _⟩, _⟩
      omega
    rw [codePoints, if_neg alone]

theorem codePoints_nil : codePoints [] = [] := rfl

theorem codePoints_pair (first : IsHighSurrogate high) (second : IsLowSurrogate low) (rest : List Nat) :
    codePoints (high :: low :: rest) = pairPoint high low :: codePoints rest := by
  rw [codePoints, if_pos ⟨first, second⟩]

/-! ## Moved units -/

/-- Where a unit stands among the units when these are ordered as code points are. -/
def unitRank (x : Nat) : Nat :=
  if x < 0xd800 then x else if 0xe000 ≤ x then x - 0x800 else x + 0x2000

theorem rank_lt_iff (x y : Nat) :
    (if 0xd800 ≤ x ∧ 0xd800 ≤ y then fixUp x - fixUp y else (x : Int) - y) < 0 ↔ unitRank x < unitRank y := by
  unfold fixUp unitRank
  split_ifs <;> omega

theorem unitRank_inj (hx : x < 0x10000) (hy : y < 0x10000) (same : unitRank x = unitRank y) : x = y := by
  unfold unitRank at same
  split_ifs at same <;> omega

/-- The first unit that differs decides, by its rank. -/
theorem compareUnits_cons_neg :
    compareUnits (x :: a) (y :: b) < 0 ↔ x ≠ y ∧ unitRank x < unitRank y ∨ x = y ∧ compareUnits a b < 0 := by
  rw [compareUnits]
  by_cases same : x = y
  · simp [same]
  · rw [if_pos same, rank_lt_iff]
    simp [same]

/-- A basic unit has a smaller rank than every surrogate. -/
theorem rank_basic_lt (basic : x < 0xd800 ∨ 0xe000 ≤ x ∧ x < 0x10000) (first : IsHighSurrogate high) :
    unitRank x < unitRank high := by
  obtain ⟨_, _⟩ := first
  unfold unitRank
  split_ifs <;> omega

theorem basic_lt_pairPoint (basic : x < 0xd800 ∨ 0xe000 ≤ x ∧ x < 0x10000) (high low : Nat) :
    x < pairPoint high low := by
  unfold pairPoint
  omega

theorem ne_of_basic (basic : x < 0xd800 ∨ 0xe000 ≤ x ∧ x < 0x10000) (first : IsHighSurrogate high) :
    x ≠ high := by
  obtain ⟨_, _⟩ := first
  omega

/-- Between basic units the ranks order as the units do. -/
theorem rank_basic_iff (hx : x < 0xd800 ∨ 0xe000 ≤ x ∧ x < 0x10000) (hy : y < 0xd800 ∨ 0xe000 ≤ y ∧ y < 0x10000) :
    unitRank x < unitRank y ↔ x < y := by
  unfold unitRank
  split_ifs <;> omega

/-- Between pairs they do so with the first unit deciding before the second. -/
theorem pairPoint_lt_iff {high' low' : Nat} (first : IsHighSurrogate high) (second : IsLowSurrogate low)
    (first' : IsHighSurrogate high') (second' : IsLowSurrogate low') :
    pairPoint high low < pairPoint high' low' ↔
      unitRank high < unitRank high' ∨ high = high' ∧ unitRank low < unitRank low' := by
  obtain ⟨_, _⟩ := first
  obtain ⟨_, _⟩ := second
  obtain ⟨_, _⟩ := first'
  obtain ⟨_, _⟩ := second'
  unfold pairPoint unitRank
  split_ifs <;> omega

theorem pairPoint_inj {high' low' : Nat} (first : IsHighSurrogate high) (second : IsLowSurrogate low)
    (first' : IsHighSurrogate high') (second' : IsLowSurrogate low') :
    pairPoint high low = pairPoint high' low' ↔ high = high' ∧ low = low' := by
  obtain ⟨_, _⟩ := first
  obtain ⟨_, _⟩ := second
  obtain ⟨_, _⟩ := first'
  obtain ⟨_, _⟩ := second'
  unfold pairPoint
  omega

/-! ## The loop -/

theorem compareUnits_nil_neg : compareUnits [] b < 0 ↔ b ≠ [] := by
  cases b with
  | nil => simp [compareUnits]
  | cons y b =>
    simp only [compareUnits, List.length_nil, List.length_cons]
    exact ⟨fun _ => List.cons_ne_nil _ _, fun _ => by omega⟩

theorem not_compareUnits_nil_right : ¬ compareUnits a [] < 0 := by
  cases a <;> simp [compareUnits]
  omega

/-- The loop orders well-formed strings by code points. -/
theorem compareUnits_neg_iff (ha : WellFormedUnits a) (hb : WellFormedUnits b) :
    compareUnits a b < 0 ↔ codePoints a < codePoints b := by
  induction ha generalizing b with
  | nil =>
    rw [compareUnits_nil_neg]
    cases hb with
    | nil => simp [codePoints_nil]
    | unit basic => simp [codePoints_nil, codePoints_unit basic]
    | pair first second => simp [codePoints_nil, codePoints_pair first second]
  | unit basic wf ih =>
    rw [codePoints_unit basic]
    cases hb with
    | nil => simp [codePoints_nil, not_compareUnits_nil_right]
    | unit basic' wf' =>
      rw [codePoints_unit basic', compareUnits_cons_neg, ih wf', List.cons_lt_cons_iff, rank_basic_iff basic basic']
      exact or_congr_left (and_iff_right_of_imp Nat.ne_of_lt)
    | pair first second wf' =>
      rw [codePoints_pair first second, compareUnits_cons_neg, List.cons_lt_cons_iff]
      exact iff_of_true (.inl ⟨ne_of_basic basic first, rank_basic_lt basic first⟩)
        (.inl (basic_lt_pairPoint basic _ _))
  | pair first second wf ih =>
    rw [codePoints_pair first second]
    cases hb with
    | nil => simp [codePoints_nil, not_compareUnits_nil_right]
    | unit basic' wf' =>
      rw [codePoints_unit basic', compareUnits_cons_neg, List.cons_lt_cons_iff]
      have order := rank_basic_lt basic' first
      have ne := ne_of_basic basic' first
      refine iff_of_false ?_ ?_
      · rintro (⟨_, less⟩ | ⟨same, _⟩)
        · exact Nat.lt_asymm order less
        · exact ne same.symm
      · rintro (less | ⟨same, _⟩)
        · exact Nat.lt_asymm less (basic_lt_pairPoint basic' _ _)
        · exact Nat.ne_of_lt (basic_lt_pairPoint basic' _ _) same.symm
    | pair first' second' wf' =>
      rw [codePoints_pair first' second', compareUnits_cons_neg, compareUnits_cons_neg, ih wf',
        List.cons_lt_cons_iff, pairPoint_lt_iff first second first' second', pairPoint_inj first second first' second']
      constructor
      · rintro (⟨_, less⟩ | ⟨same, ⟨_, less⟩ | ⟨same', rest⟩⟩)
        · exact .inl (.inl less)
        · exact .inl (.inr ⟨same, less⟩)
        · exact .inr ⟨⟨same, same'⟩, rest⟩
      · rintro ((less | ⟨same, less⟩) | ⟨⟨same, same'⟩, rest⟩)
        · exact .inl ⟨fun same => Nat.ne_of_lt less (congrArg unitRank same), less⟩
        · exact .inr ⟨same, .inl ⟨fun same => Nat.ne_of_lt less (congrArg unitRank same), less⟩⟩
        · exact .inr ⟨same, .inr ⟨same', rest⟩⟩

theorem compareUnits_swap (a b : List Nat) : compareUnits b a = -compareUnits a b := by
  induction a generalizing b with
  | nil => cases b <;> simp [compareUnits]
  | cons x a ih =>
    cases b with
    | nil => simp [compareUnits]
    | cons y b =>
      rw [compareUnits, compareUnits]
      by_cases same : x = y
      · subst same
        simpa using ih b
      · rw [if_pos same, if_pos (Ne.symm same)]
        by_cases both : 0xd800 ≤ x ∧ 0xd800 ≤ y
        · rw [if_pos both, if_pos both.symm, neg_sub]
        · rw [if_neg both, if_neg fun h => both h.symm, neg_sub]

/-! ## The fast path -/

/-- Without two units that are both moved, moving them changes no comparison. -/
theorem compareUnits_neg_iff_lt (low : hasHighUnit a = false ∨ hasHighUnit b = false) :
    compareUnits a b < 0 ↔ a < b := by
  induction a generalizing b with
  | nil =>
    rw [compareUnits_nil_neg]
    cases b <;> simp
  | cons x a ih =>
    cases b with
    | nil => simp [not_compareUnits_nil_right]
    | cons y b =>
      simp only [hasHighUnit, List.any_cons, Bool.or_eq_false_iff, decide_eq_false_iff_not] at low
      have rest : hasHighUnit a = false ∨ hasHighUnit b = false := low.imp And.right And.right
      have below : x < 0xd800 ∨ y < 0xd800 := low.imp (fun h => by omega) fun h => by omega
      have ranks : unitRank x < unitRank y ↔ x < y := by
        unfold unitRank
        split_ifs <;> omega
      rw [compareUnits_cons_neg, ih rest, List.cons_lt_cons_iff, ranks]
      exact or_congr_left (and_iff_right_of_imp Nat.ne_of_lt)

theorem compareNative_neg_iff : compareNative a b < 0 ↔ a < b := by
  unfold compareNative
  split_ifs <;> simp_all

theorem compareNative_swap (a b : List Nat) : compareNative b a = -compareNative a b := by
  unfold compareNative
  by_cases less : a < b
  · have not : ¬ b < a := lt_asymm less
    simp [less, not]
  · by_cases more : b < a <;> simp [less, more]

/-- Whichever path is taken, the loop would have answered with the same sign. -/
theorem compareCodePoints_neg_iff_slow : compareCodePoints a b < 0 ↔ compareUnits a b < 0 := by
  unfold compareCodePoints
  split_ifs with fast
  · simp only [Bool.or_eq_true, Bool.not_eq_true'] at fast
    rw [compareNative_neg_iff, compareUnits_neg_iff_lt fast]
  · rfl

theorem compareCodePoints_swap (a b : List Nat) : compareCodePoints b a = -compareCodePoints a b := by
  unfold compareCodePoints
  rw [Bool.or_comm, compareUnits_swap, compareNative_swap]
  split_ifs <;> rfl

/-! ## The order -/

theorem codePoints_inj (ha : WellFormedUnits a) (hb : WellFormedUnits b) : codePoints a = codePoints b ↔ a = b := by
  refine ⟨fun same => ?_, congrArg codePoints⟩
  induction ha generalizing b with
  | nil =>
    cases hb with
    | nil => rfl
    | unit basic => simp [codePoints_nil, codePoints_unit basic] at same
    | pair first second => simp [codePoints_nil, codePoints_pair first second] at same
  | unit basic wf ih =>
    rw [codePoints_unit basic] at same
    cases hb with
    | nil => simp [codePoints_nil] at same
    | unit basic' wf' =>
      rw [codePoints_unit basic', List.cons.injEq] at same
      rw [same.1, ih wf' same.2]
    | pair first second wf' =>
      rw [codePoints_pair first second, List.cons.injEq] at same
      exact absurd same.1 (Nat.ne_of_lt (basic_lt_pairPoint basic _ _))
  | pair first second wf ih =>
    rw [codePoints_pair first second] at same
    cases hb with
    | nil => simp [codePoints_nil] at same
    | unit basic' wf' =>
      rw [codePoints_unit basic', List.cons.injEq] at same
      exact absurd same.1.symm (Nat.ne_of_lt (basic_lt_pairPoint basic' _ _))
    | pair first' second' wf' =>
      rw [codePoints_pair first' second', List.cons.injEq, pairPoint_inj first second first' second'] at same
      rw [same.1.1, same.1.2, ih wf' same.2]

theorem compareCodePoints_neg_iff (ha : WellFormedUnits a) (hb : WellFormedUnits b) :
    compareCodePoints a b < 0 ↔ codePoints a < codePoints b := by
  rw [compareCodePoints_neg_iff_slow, compareUnits_neg_iff ha hb]

theorem compareCodePoints_pos_iff (ha : WellFormedUnits a) (hb : WellFormedUnits b) :
    0 < compareCodePoints a b ↔ codePoints b < codePoints a := by
  rw [← compareCodePoints_neg_iff hb ha, compareCodePoints_swap, neg_pos]

theorem compareCodePoints_zero_iff (ha : WellFormedUnits a) (hb : WellFormedUnits b) :
    compareCodePoints a b = 0 ↔ a = b := by
  rw [← codePoints_inj ha hb]
  have negative := compareCodePoints_neg_iff ha hb
  have positive := compareCodePoints_pos_iff ha hb
  constructor
  · intro zero
    rcases lt_trichotomy (codePoints a) (codePoints b) with less | same | more
    · exact absurd (negative.mpr less) (by omega)
    · exact same
    · exact absurd (positive.mpr more) (by omega)
  · intro same
    rw [same] at negative positive
    have notLess := mt negative.mp (lt_irrefl _)
    have notMore := mt positive.mp (lt_irrefl _)
    omega

theorem sign_compareCodePoints (a b : List Nat) :
    SignType.sign (compareCodePoints a b) = SignType.sign (compareUnits a b) := by
  have negative : compareCodePoints a b < 0 ↔ compareUnits a b < 0 := compareCodePoints_neg_iff_slow
  have positive : compareCodePoints b a < 0 ↔ compareUnits b a < 0 := compareCodePoints_neg_iff_slow
  rw [compareCodePoints_swap, compareUnits_swap, Int.neg_neg_iff_pos, Int.neg_neg_iff_pos] at positive
  rcases lt_trichotomy (compareUnits a b) 0 with less | same | more
  · rw [sign_neg less, sign_neg (negative.mpr less)]
  · have notLess := mt negative.mp (by omega)
    have notMore := mt positive.mp (by omega)
    have same' : compareCodePoints a b = 0 := by omega
    rw [same, same']
  · rw [sign_pos more, sign_pos (positive.mpr more)]

end Points

/-- The comparison has the sign of the lexicographic one of the code points, is a strict total order that tells
strings apart, and answers with the same sign by either path. -/
theorem compareCodePoints_order :
    (∀ a b, WellFormedUnits a → WellFormedUnits b →
      (compareCodePoints a b < 0 ↔ codePoints a < codePoints b) ∧
        (compareCodePoints a b = 0 ↔ codePoints a = codePoints b) ∧
        (0 < compareCodePoints a b ↔ codePoints b < codePoints a)) ∧
      IsStrictTotalOrder { a // WellFormedUnits a } (fun a b => compareCodePoints a.1 b.1 < 0) ∧
      (∀ a b, WellFormedUnits a → WellFormedUnits b → (compareCodePoints a b = 0 ↔ a = b)) ∧
      ∀ a b, SignType.sign (compareCodePoints a b) = SignType.sign (compareUnits a b) := by
  refine ⟨fun a b ha hb => ⟨compareCodePoints_neg_iff ha hb, ?_, compareCodePoints_pos_iff ha hb⟩, ?_,
    fun a b ha hb => compareCodePoints_zero_iff ha hb, sign_compareCodePoints⟩
  · rw [compareCodePoints_zero_iff ha hb, codePoints_inj ha hb]
  · have order : ∀ a b : { a // WellFormedUnits a },
        compareCodePoints a.1 b.1 < 0 ↔ codePoints a.1 < codePoints b.1 :=
      fun a b => compareCodePoints_neg_iff a.2 b.2
    exact {
      irrefl := fun a less => lt_irrefl _ ((order a a).mp less)
      trans := fun a b c less less' => (order a c).mpr (lt_trans ((order a b).mp less) ((order b c).mp less'))
      trichotomous := fun a b notLess notMore => by
        have notLess := mt (order a b).mpr notLess
        have notMore := mt (order b a).mpr notMore
        have same := le_antisymm (not_lt.mp notMore) (not_lt.mp notLess)
        exact Subtype.ext ((codePoints_inj a.2 b.2).mp same) }

/-- The last unit of the basic plane sorts before the first pair, although it is the greater unit. -/
theorem compareCodePoints_order_gap :
    compareCodePoints [0xffff] [0xd800, 0xdc00] < 0 ∧ compareNative [0xffff] [0xd800, 0xdc00] = 1 := by
  have one : WellFormedUnits [0xffff] := .unit (by decide) .nil
  have two : WellFormedUnits [0xd800, 0xdc00] := .pair (by decide) (by decide) .nil
  exact ⟨(compareCodePoints_order.1 _ _ one two).1.mpr (by decide), by decide⟩

/-! ## Strings -/

/-- The units of one character. -/
theorem codeUnits_cons (c : Char) (cs : List Char) :
    Runtime.codeUnits (String.ofList (c :: cs)) =
      (if c.toNat < 0x10000 then [c.toNat]
        else [0xd800 + (c.toNat - 0x10000) / 0x400, 0xdc00 + (c.toNat - 0x10000) % 0x400])
        ++ Runtime.codeUnits (String.ofList cs) := by
  rw [Runtime.codeUnits, Runtime.codeUnits, String.toList_ofList, String.toList_ofList, List.flatMap_cons]

/-- What encodes a string is well formed, and its code points are the string's characters. -/
theorem codeUnits_wellFormed (cs : List Char) :
    WellFormedUnits (Runtime.codeUnits (String.ofList cs)) ∧
      codePoints (Runtime.codeUnits (String.ofList cs)) = cs.map Char.toNat := by
  induction cs with
  | nil => exact ⟨.nil, rfl⟩
  | cons c cs ih =>
    obtain ⟨wf, points⟩ := ih
    have scalar : c.toNat < 0xd800 ∨ 0xe000 ≤ c.toNat ∧ c.toNat < 0x110000 := c.valid.imp id fun h => by
      exact ⟨h.1, h.2⟩
    rw [codeUnits_cons, List.map_cons]
    by_cases basic : c.toNat < 0x10000
    · have basic' : c.toNat < 0xd800 ∨ 0xe000 ≤ c.toNat ∧ c.toNat < 0x10000 := by omega
      rw [if_pos basic, List.singleton_append, codePoints_unit basic', points]
      exact ⟨.unit basic' wf, rfl⟩
    · have first : IsHighSurrogate (0xd800 + (c.toNat - 0x10000) / 0x400) := by
        unfold IsHighSurrogate
        omega
      have second : IsLowSurrogate (0xdc00 + (c.toNat - 0x10000) % 0x400) := by
        unfold IsLowSurrogate
        omega
      have point : pairPoint (0xd800 + (c.toNat - 0x10000) / 0x400) (0xdc00 + (c.toNat - 0x10000) % 0x400)
          = c.toNat := by
        unfold pairPoint
        omega
      rw [if_neg basic, List.cons_append, List.singleton_append, codePoints_pair first second, point, points]
      exact ⟨.pair first second wf, rfl⟩

theorem map_toNat_lt (cs ds : List Char) : cs.map Char.toNat < ds.map Char.toNat ↔ cs < ds := by
  induction cs generalizing ds with
  | nil => cases ds <;> simp
  | cons c cs ih =>
    cases ds with
    | nil => simp
    | cons d ds =>
      rw [List.map_cons, List.map_cons, List.cons_lt_cons_iff, List.cons_lt_cons_iff, ih, Char.toNat_inj]
      rfl

/-- On encoded strings it is the order of the strings, which the sorting by name uses. -/
theorem compareCodePoints_codeUnits (s t : String) :
    compareCodePoints (Runtime.codeUnits s) (Runtime.codeUnits t) < 0 ↔ s < t := by
  have hs := codeUnits_wellFormed s.toList
  have ht := codeUnits_wellFormed t.toList
  rw [String.ofList_toList] at hs ht
  rw [compareCodePoints_neg_iff hs.1 ht.1, hs.2, ht.2, String.lt_iff_toList_lt, map_toNat_lt]

end LibPetri.Verified
