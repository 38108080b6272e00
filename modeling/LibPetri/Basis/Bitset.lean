import Mathlib

/-! # Bit sets in 32-bit words

A set of indices below `n`, one bit each, in the words of a `Uint32Array`: index `i` is bit
`i & 31` of word `i >>> 5`.  The operations work on words, as the source does; `testBit` is the
membership test in which their effects are stated.
-/

namespace LibPetri.Basis

/-! ## One word -/

namespace Word

/-- `Math.clz32(word & -word) ^ 31`: the index of the lowest set bit. -/
def lowestBit (word : BitVec 32) : Nat := (word &&& -word).clz.toNat ^^^ 31

/-- `word & (word - 1)`: the word without its lowest set bit. -/
def clearLowest (word : BitVec 32) : BitVec 32 := word &&& (word - 1#32)

/-- `while (word !== 0)`: the set bits, lowest first.  A word has at most 32 of them. -/
def bitsFrom : Nat → BitVec 32 → List Nat
  | 0, _ => []
  | fuel + 1, word => if word = 0#32 then [] else lowestBit word :: bitsFrom fuel (clearLowest word)

def bits (word : BitVec 32) : List Nat := bitsFrom 32 word

/-- `word & -word` keeps exactly the lowest set bit. -/
theorem getLsbD_and_neg (word : BitVec 32) (i : Nat) :
    (word &&& -word).getLsbD i =
      (word.getLsbD i && !decide (∃ j < i, word.getLsbD j = true)) := by
  rw [BitVec.getLsbD_and, BitVec.getLsbD_neg]
  cases hi : word.getLsbD i with
  | false => simp
  | true => simp [BitVec.lt_of_getLsbD hi]

theorem getLsbD_clearLowest (word : BitVec 32) (i : Nat) :
    (clearLowest word).getLsbD i =
      (word.getLsbD i && decide (∃ j < i, word.getLsbD j = true)) := by
  rw [clearLowest, BitVec.getLsbD_and, ← BitVec.not_neg, BitVec.getLsbD_not, BitVec.getLsbD_neg]
  cases hi : word.getLsbD i with
  | false => simp
  | true => simp [BitVec.lt_of_getLsbD hi]

theorem lowestBit_isLowest {word : BitVec 32} (ne : word ≠ 0#32) :
    word.getLsbD (lowestBit word) = true ∧ ∀ j < lowestBit word, word.getLsbD j = false := by
  have isolated_ne : word &&& -word ≠ 0#32 := by
    intro h
    have none : ∀ i, word.getLsbD i = false := by
      intro i
      induction i using Nat.strongRecOn with
      | ind i ih =>
        have := getLsbD_and_neg word i
        rw [h] at this
        simp only [BitVec.getLsbD_zero] at this
        have no_lower : ¬ ∃ j < i, word.getLsbD j = true := by
          rintro ⟨j, hj, set⟩
          rw [ih j hj] at set
          cases set
        simpa [no_lower] using this.symm
    exact ne (BitVec.eq_of_getLsbD_eq fun i _ => by simpa using none i)
  have lt : (word &&& -word).clz.toNat < 32 := by
    have := BitVec.clz_lt_iff_ne_zero.mpr isolated_ne
    simpa [BitVec.lt_def] using this
  have index : lowestBit word = 31 - (word &&& -word).clz.toNat := by
    have : ∀ c < 32, c ^^^ 31 = 31 - c := by decide
    exact this _ lt
  have set := BitVec.getLsbD_true_clz_of_ne_zero (by decide) isolated_ne
  rw [show 32 - 1 - (word &&& -word).clz.toNat = lowestBit word from index.symm,
    getLsbD_and_neg] at set
  simp only [Bool.and_eq_true, Bool.not_eq_true', decide_eq_false_iff_not, not_exists, not_and,
    Bool.not_eq_true] at set
  exact ⟨set.1, set.2⟩

theorem mem_bitsFrom (fuel : Nat) (word : BitVec 32) (j : Nat)
    (above : ∀ i, word.getLsbD i = true → 32 ≤ i + fuel) :
    j ∈ bitsFrom fuel word ↔ word.getLsbD j = true := by
  induction fuel generalizing word with
  | zero =>
    simp only [bitsFrom, List.not_mem_nil, false_iff, Bool.not_eq_true]
    by_contra set
    have := above j (by simpa using set)
    have := BitVec.lt_of_getLsbD (by simpa using set : word.getLsbD j = true)
    omega
  | succ fuel ih =>
    rw [bitsFrom]
    split
    next zero => simp [zero]
    next ne =>
      obtain ⟨set, lower⟩ := lowestBit_isLowest ne
      have rest : ∀ i, (clearLowest word).getLsbD i = true → 32 ≤ i + fuel := by
        intro i hi
        rw [getLsbD_clearLowest] at hi
        simp only [Bool.and_eq_true, decide_eq_true_eq] at hi
        obtain ⟨_, k, hk, hset⟩ := hi
        have := above k hset
        omega
      rw [List.mem_cons, ih _ rest, getLsbD_clearLowest]
      simp only [Bool.and_eq_true, decide_eq_true_eq]
      constructor
      · rintro (rfl | ⟨h, _⟩)
        · exact set
        · exact h
      · intro h
        by_cases hj : j = lowestBit word
        · exact Or.inl hj
        · refine Or.inr ⟨h, lowestBit word, ?_, set⟩
          by_contra hlt
          have := lower j (by omega)
          rw [h] at this
          cases this

theorem mem_bits {word : BitVec 32} {j : Nat} : j ∈ bits word ↔ word.getLsbD j = true :=
  mem_bitsFrom 32 word j fun _ _ => by omega

theorem bitsFrom_sorted (fuel : Nat) (word : BitVec 32) : (bitsFrom fuel word).Pairwise (· < ·) ∧
    ∀ j ∈ bitsFrom fuel word, word.getLsbD j = true := by
  induction fuel generalizing word with
  | zero => simp [bitsFrom]
  | succ fuel ih =>
    rw [bitsFrom]
    split
    next => simp
    next ne =>
      obtain ⟨set, lower⟩ := lowestBit_isLowest ne
      obtain ⟨sorted, sound⟩ := ih (clearLowest word)
      have later : ∀ j ∈ bitsFrom fuel (clearLowest word),
          lowestBit word < j ∧ word.getLsbD j = true := by
        intro j hj
        have hj := sound j hj
        rw [getLsbD_clearLowest] at hj
        simp only [Bool.and_eq_true, decide_eq_true_eq] at hj
        obtain ⟨hset, k, hk, kset⟩ := hj
        refine ⟨?_, hset⟩
        by_contra hlt
        have := lower k (by omega)
        rw [kset] at this
        cases this
      refine ⟨List.pairwise_cons.mpr ⟨fun j hj => (later j hj).1, sorted⟩, ?_⟩
      intro j hj
      rcases List.mem_cons.mp hj with rfl | hj
      · exact set
      · exact (later j hj).2

theorem bits_lt {word : BitVec 32} {j : Nat} (h : j ∈ bits word) : j < 32 :=
  BitVec.lt_of_getLsbD (mem_bits.mp h)

end Word

/-! ## The array of words -/

/-- `(n + BIT_MASK) >>> WORD_SHIFT`. -/
def wordCount (n : Nat) : Nat := (n + 31) >>> 5

/-- A set of indices below `n`. -/
@[ext] structure Bitset (n : Nat) where
  words : Vector (BitVec 32) (wordCount n)
  deriving DecidableEq

namespace Bitset

variable {n : Nat}

/-- `new Uint32Array(wordCount)`. -/
def empty : Bitset n := ⟨Vector.replicate _ 0#32⟩

/-- `arr[w]!`. -/
def word (a : Bitset n) (w : Nat) : BitVec 32 := a.words[w]?.getD 0#32

def setBit (a : Bitset n) (bit : Nat) : Bitset n :=
  ⟨a.words.setIfInBounds (bit >>> 5) (a.word (bit >>> 5) ||| (1#32 <<< (bit &&& 31)))⟩

def clearBit (a : Bitset n) (bit : Nat) : Bitset n :=
  ⟨a.words.setIfInBounds (bit >>> 5) (a.word (bit >>> 5) &&& ~~~(1#32 <<< (bit &&& 31)))⟩

def testBit (a : Bitset n) (bit : Nat) : Bool :=
  (a.word (bit >>> 5) &&& (1#32 <<< (bit &&& 31))) != 0#32

/-- Every bit of `mask` is set in `snapshot`; a zero word of the mask asks nothing. -/
def containsAll (snapshot mask : Bitset n) : Bool :=
  (List.range (wordCount n)).all fun i =>
    mask.word i == 0#32 || (snapshot.word i &&& mask.word i) == mask.word i

/-- Some bit of `mask` is set in `snapshot`. -/
def intersects (snapshot mask : Bitset n) : Bool :=
  (List.range (wordCount n)).any fun i =>
    mask.word i != 0#32 && (snapshot.word i &&& mask.word i) != 0#32

/-- Some word is not zero. -/
def anyBit (a : Bitset n) : Bool := (List.range (wordCount n)).any fun i => a.word i != 0#32

/-- All `n` bits: full words, and in the last one the bits below `n`. -/
def full : Bitset n :=
  ⟨Vector.ofFn fun w =>
    if w.val + 1 < wordCount n then 0xFFFFFFFF#32
    else if n &&& 31 = 0 then 0xFFFFFFFF#32 else (1#32 <<< (n &&& 31)) - 1#32⟩

/-- The set bits, words in order and in each the lowest bit first. -/
def toList (a : Bitset n) : List Nat :=
  (List.range (wordCount n)).flatMap fun w => (Word.bits (a.word w)).map fun bit => (w <<< 5) ||| bit

/-! ## Membership -/

theorem and_shiftLeft_ne_zero (word : BitVec 32) {k : Nat} (hk : k < 32) :
    ((word &&& (1#32 <<< k)) != 0#32) = word.getLsbD k := by
  rw [← BitVec.twoPow_eq, BitVec.and_twoPow]
  cases h : word.getLsbD k with
  | false => simp
  | true =>
    have : BitVec.twoPow 32 k ≠ 0#32 := by
      intro zero
      have := BitVec.getLsbD_twoPow (w := 32) k k
      rw [zero] at this
      simp [hk] at this
    simpa using this

theorem testBit_eq (a : Bitset n) (bit : Nat) :
    a.testBit bit = (a.word (bit / 32)).getLsbD (bit % 32) := by
  have hmod : bit &&& 31 = bit % 32 := Nat.and_two_pow_sub_one_eq_mod bit 5
  have hdiv : bit >>> 5 = bit / 32 := Nat.shiftRight_eq_div_pow bit 5
  rw [testBit, hmod, hdiv]
  exact and_shiftLeft_ne_zero _ (Nat.mod_lt _ (by decide))

theorem wordCount_eq (n : Nat) : wordCount n = (n + 31) / 32 :=
  Nat.shiftRight_eq_div_pow (n + 31) 5

theorem word_mk_set (a : Bitset n) (w i : Nat) (value : BitVec 32) (hw : w < wordCount n) :
    (Bitset.mk (n := n) (a.words.setIfInBounds w value)).word i = if w = i then value else a.word i := by
  simp only [word, Vector.getElem?_setIfInBounds]
  split
  next eq => subst eq; simp
  next => rfl

theorem div_lt_wordCount {bit : Nat} (h : bit < n) : bit / 32 < wordCount n := by
  rw [wordCount_eq]
  omega

theorem testBit_setBit (a : Bitset n) {i : Nat} (hi : i < n) (j : Nat) :
    (a.setBit i).testBit j = (decide (i = j) || a.testBit j) := by
  have hmod : i &&& 31 = i % 32 := Nat.and_two_pow_sub_one_eq_mod i 5
  have hdiv : i >>> 5 = i / 32 := Nat.shiftRight_eq_div_pow i 5
  rw [testBit_eq, testBit_eq, setBit, hmod, hdiv, word_mk_set _ _ _ _ (div_lt_wordCount hi)]
  split
  next same =>
    rw [same, BitVec.getLsbD_or, ← BitVec.twoPow_eq, BitVec.getLsbD_twoPow, Bool.or_comm]
    congr 1
    have : i = j ↔ i % 32 = j % 32 := by omega
    simp [this, Nat.mod_lt]
  next differ =>
    have : i ≠ j := by rintro rfl; exact differ rfl
    simp [this]

theorem testBit_clearBit (a : Bitset n) {i : Nat} (hi : i < n) (j : Nat) :
    (a.clearBit i).testBit j = (!decide (i = j) && a.testBit j) := by
  have hmod : i &&& 31 = i % 32 := Nat.and_two_pow_sub_one_eq_mod i 5
  have hdiv : i >>> 5 = i / 32 := Nat.shiftRight_eq_div_pow i 5
  rw [testBit_eq, testBit_eq, clearBit, hmod, hdiv, word_mk_set _ _ _ _ (div_lt_wordCount hi)]
  split
  next same =>
    rw [same, BitVec.getLsbD_and, ← BitVec.twoPow_eq, BitVec.getLsbD_not, BitVec.getLsbD_twoPow,
      Bool.and_comm]
    congr 1
    have : i = j ↔ i % 32 = j % 32 := by omega
    simp [this, Nat.mod_lt]
  next differ =>
    have : i ≠ j := by rintro rfl; exact differ rfl
    simp [this]

@[simp] theorem word_empty (i : Nat) : (empty : Bitset n).word i = 0#32 := by
  simp only [word, empty, Vector.getElem?_replicate]
  split <;> rfl

@[simp] theorem testBit_empty (j : Nat) : (empty : Bitset n).testBit j = false := by
  simp [testBit]

theorem word_of_le (a : Bitset n) {w : Nat} (h : wordCount n ≤ w) : a.word w = 0#32 := by
  simp only [word]
  rw [Vector.getElem?_eq_none h]
  rfl

theorem testBit_word (a : Bitset n) (w b : Nat) (hb : b < 32) :
    a.testBit (32 * w + b) = (a.word w).getLsbD b := by
  rw [testBit_eq, show (32 * w + b) / 32 = w by omega, show (32 * w + b) % 32 = b by omega]

/-- A word inclusion, bit by bit. -/
theorem and_eq_right_iff (x m : BitVec 32) :
    x &&& m = m ↔ ∀ b < 32, m.getLsbD b = true → x.getLsbD b = true := by
  constructor
  · intro h b _ hm
    have := congrArg (·.getLsbD b) h
    simp only [BitVec.getLsbD_and, hm, Bool.and_true] at this
    exact this
  · intro h
    refine BitVec.eq_of_getLsbD_eq fun b hb => ?_
    rw [BitVec.getLsbD_and]
    cases hm : m.getLsbD b with
    | false => simp
    | true => simp [h b hb hm]

theorem and_ne_zero_iff (x m : BitVec 32) :
    x &&& m ≠ 0#32 ↔ ∃ b < 32, m.getLsbD b = true ∧ x.getLsbD b = true := by
  constructor
  · intro h
    by_contra none
    push Not at none
    refine h (BitVec.eq_of_getLsbD_eq fun b hb => ?_)
    rw [BitVec.getLsbD_and, BitVec.getLsbD_zero]
    cases hm : m.getLsbD b with
    | false => simp
    | true => simpa using none b hb hm
  · rintro ⟨b, _, hm, hx⟩ zero
    have := congrArg (·.getLsbD b) zero
    simp [hm, hx] at this

theorem containsAll_iff (snapshot mask : Bitset n) :
    snapshot.containsAll mask = true ↔ ∀ j, mask.testBit j = true → snapshot.testBit j = true := by
  simp only [containsAll, List.all_eq_true, List.mem_range, Bool.or_eq_true, beq_iff_eq]
  constructor
  · intro h j hj
    rw [testBit_eq] at hj ⊢
    by_cases hw : j / 32 < wordCount n
    · rcases h _ hw with zero | sub
      · rw [zero] at hj
        simp at hj
      · exact (and_eq_right_iff _ _).mp sub _ (Nat.mod_lt _ (by decide)) hj
    · rw [word_of_le _ (by omega)] at hj
      simp at hj
  · intro h i _
    refine Or.inr ((and_eq_right_iff _ _).mpr fun b hb hm => ?_)
    have := h (32 * i + b)
    rw [testBit_word _ _ _ hb, testBit_word _ _ _ hb] at this
    exact this hm

theorem intersects_iff (snapshot mask : Bitset n) :
    snapshot.intersects mask = true ↔ ∃ j, mask.testBit j = true ∧ snapshot.testBit j = true := by
  simp only [intersects, List.any_eq_true, List.mem_range, Bool.and_eq_true, bne_iff_ne]
  constructor
  · rintro ⟨i, _, _, meet⟩
    obtain ⟨b, hb, hm, hs⟩ := (and_ne_zero_iff _ _).mp meet
    exact ⟨32 * i + b, by rwa [testBit_word _ _ _ hb], by rwa [testBit_word _ _ _ hb]⟩
  · rintro ⟨j, hm, hs⟩
    rw [testBit_eq] at hm hs
    have meet : snapshot.word (j / 32) &&& mask.word (j / 32) ≠ 0#32 :=
      (and_ne_zero_iff _ _).mpr ⟨j % 32, Nat.mod_lt _ (by decide), hm, hs⟩
    refine ⟨j / 32, ?_, ?_, meet⟩
    · by_contra hw
      rw [word_of_le mask (by omega)] at hm
      simp at hm
    · intro zero
      rw [zero] at hm
      simp at hm

theorem anyBit_iff (a : Bitset n) : a.anyBit = true ↔ ∃ j, a.testBit j = true := by
  simp only [anyBit, List.any_eq_true, List.mem_range, bne_iff_ne]
  constructor
  · rintro ⟨i, _, ne⟩
    have : a.word i &&& a.word i ≠ 0#32 := by simpa using ne
    obtain ⟨b, hb, hm, _⟩ := (and_ne_zero_iff _ _).mp this
    exact ⟨32 * i + b, by rwa [testBit_word _ _ _ hb]⟩
  · rintro ⟨j, hj⟩
    rw [testBit_eq] at hj
    refine ⟨j / 32, ?_, ?_⟩
    · by_contra hw
      rw [word_of_le _ (by omega)] at hj
      simp at hj
    · intro zero
      rw [zero] at hj
      simp at hj

theorem testBit_full {j : Nat} (hj : j < n) : (full : Bitset n).testBit j = true := by
  have hw : j / 32 < wordCount n := div_lt_wordCount hj
  have hmod : n &&& 31 = n % 32 := Nat.and_two_pow_sub_one_eq_mod n 5
  have ones : ∀ b < 32, (0xFFFFFFFF#32).getLsbD b = true := by decide
  have low : ∀ k < 32, ∀ b < k, ((1#32 <<< k) - 1#32).getLsbD b = true := by decide
  have getWord : (full : Bitset n).word (j / 32) =
      if j / 32 + 1 < wordCount n then 0xFFFFFFFF#32
      else if n &&& 31 = 0 then 0xFFFFFFFF#32 else (1#32 <<< (n &&& 31)) - 1#32 := by
    simp [word, full, hw]
  rw [testBit_eq, getWord]
  split
  · exact ones _ (Nat.mod_lt _ (by decide))
  next last =>
    split
    · exact ones _ (Nat.mod_lt _ (by decide))
    next partialWord =>
      rw [hmod] at partialWord ⊢
      rw [wordCount_eq] at last hw
      exact low _ (Nat.mod_lt _ (by decide)) _ (by omega)

theorem mem_toList {a : Bitset n} {j : Nat} : j ∈ a.toList ↔ a.testBit j = true := by
  simp only [toList, List.mem_flatMap, List.mem_range, List.mem_map]
  constructor
  · rintro ⟨w, _, bit, hbit, rfl⟩
    have lt := Word.bits_lt hbit
    have : (w <<< 5) ||| bit = 32 * w + bit := by
      rw [← Nat.shiftLeft_add_eq_or_of_lt (i := 5) lt, Nat.shiftLeft_eq]
      omega
    rw [this, testBit_word _ _ _ lt]
    exact Word.mem_bits.mp hbit
  · intro h
    rw [testBit_eq] at h
    have lt : j % 32 < 32 := Nat.mod_lt _ (by decide)
    refine ⟨j / 32, ?_, j % 32, Word.mem_bits.mpr h, ?_⟩
    · by_contra hw
      rw [word_of_le _ (by omega)] at h
      simp at h
    · rw [← Nat.shiftLeft_add_eq_or_of_lt (i := 5) lt, Nat.shiftLeft_eq]
      omega

theorem nodup_toList (a : Bitset n) : a.toList.Nodup := by
  have split : ∀ w bit, bit < 32 → (w <<< 5) ||| bit = 32 * w + bit := by
    intro w bit lt
    rw [← Nat.shiftLeft_add_eq_or_of_lt (i := 5) lt, Nat.shiftLeft_eq]
    omega
  rw [toList, List.nodup_flatMap]
  refine ⟨fun w _ => ?_, ?_⟩
  · refine List.Nodup.map_on (fun b hb c hc same => ?_)
      ((Word.bitsFrom_sorted 32 (a.word w)).1.imp fun h => Nat.ne_of_lt h)
    rw [split w b (Word.bits_lt hb), split w c (Word.bits_lt hc)] at same
    omega
  · refine List.nodup_range.imp fun {v w} ne => ?_
    intro j hv hw
    obtain ⟨b, hb, rfl⟩ := List.mem_map.mp hv
    obtain ⟨c, hc, same⟩ := List.mem_map.mp hw
    have := Word.bits_lt hb
    have := Word.bits_lt hc
    rw [split v b (by assumption), split w c (by assumption)] at same
    omega

end Bitset

end LibPetri.Basis
