import LibPetri.Basis.Semiflows
import LibPetri.Verified.ConservationLaws

/-! # The semiflows of minimal support

The sweep over the bitsets drops the generators whose support holds a strictly smaller one.  The generators
after each round cover the non-negative weightings that no transition so far changes, so the last ones are
the semiflows of minimal support, as long as nothing is cut.
-/

namespace LibPetri.Verified

open LibPetri.Basis LibPetri.Core LibPetri.Runtime LibPetri.Verification
open LibPetri.Verification.PInvariantComputer

variable {P T : Nat}

/-! ## The sweep -/

section Sweep

/-- The places that a generator weighs. -/
def rowSupport (row : SemiflowRow P T) : Finset (Fin P) := Finset.univ.filter fun p => row.weight p ≠ 0

theorem mem_rowSupport {row : SemiflowRow P T} {p : Fin P} : p ∈ rowSupport row ↔ row.weight p ≠ 0 := by
  simp [rowSupport]

theorem supportSize_eq (row : SemiflowRow P T) : supportSize row = (rowSupport row).card := by
  unfold supportSize rowSupport
  rw [List.countP_eq_length_filter, ← List.toFinset_card_of_nodup ((List.nodup_finRange P).filter _),
    List.toFinset_filter, List.toFinset_finRange]
  simp

theorem testBit_supportBits (row : SemiflowRow P T) (p : Fin P) :
    (supportBits row).testBit p = decide (row.weight p ≠ 0) := by
  have fold (places : List (Fin P)) (bits : Bitset P) :
      (places.foldl (fun bits p => if row.weight p ≠ 0 then bits.setBit p else bits) bits).testBit p =
        (bits.testBit p || decide (p ∈ places ∧ row.weight p ≠ 0)) := by
    induction places generalizing bits with
    | nil => simp
    | cons q places ih =>
      rw [List.foldl_cons, ih]
      by_cases weighs : row.weight q ≠ 0
      · rw [if_pos weighs, Bitset.testBit_setBit _ q.isLt]
        by_cases same : p = q
        · subst same
          simp [weighs]
        · have apart : q.val ≠ p.val := fun eq => same (Fin.ext eq.symm)
          simp [same, apart]
      · rw [if_neg weighs]
        have : p = q → row.weight p = 0 := fun same => by simpa [same] using weighs
        by_cases same : p = q
        · simp [same, not_not.mp weighs]
        · simp [same]
  unfold supportBits
  rw [fold]
  simp

/-- No bit is set past the places. -/
theorem testBit_supportBits_of_le (row : SemiflowRow P T) {b : Nat} (h : P ≤ b) :
    (supportBits row).testBit b = false := by
  have fold (places : List (Fin P)) (bits : Bitset P) (clear : bits.testBit b = false) :
      (places.foldl (fun bits p => if row.weight p ≠ 0 then bits.setBit p else bits) bits).testBit b =
        false := by
    induction places generalizing bits with
    | nil => exact clear
    | cons q places ih =>
      rw [List.foldl_cons]
      apply ih
      split
      · rw [Bitset.testBit_setBit _ q.isLt, clear, Bool.or_false, decide_eq_false]
        have := q.isLt
        omega
      · exact clear
  exact fold _ _ (by simp)

theorem subsetBits_iff (a b : SemiflowRow P T) :
    subsetBits (supportBits a) (supportBits b) = true ↔ rowSupport a ⊆ rowSupport b := by
  unfold subsetBits
  rw [List.all_eq_true]
  constructor
  · intro each p mem
    have word := each (p / 32) (List.mem_range.mpr (Bitset.div_lt_wordCount p.isLt))
    rw [decide_eq_true_eq] at word
    have set : (supportBits a).testBit p = true := by
      rw [testBit_supportBits, decide_eq_true (mem_rowSupport.mp mem)]
    have bit := congrArg (fun w => w.getLsbD (p % 32)) word
    have low : p.val % 32 < 32 := Nat.mod_lt _ (by omega)
    simp only [BitVec.getLsbD_and, BitVec.getLsbD_not, low, decide_true, Bool.true_and,
      ← Bitset.testBit_eq, set, BitVec.getLsbD_zero, Bool.not_eq_false'] at bit
    rw [testBit_supportBits, decide_eq_true_eq] at bit
    exact mem_rowSupport.mpr bit
  · intro inside w _
    rw [decide_eq_true_eq]
    apply BitVec.eq_of_getLsbD_eq
    intro i low
    rw [BitVec.getLsbD_and, BitVec.getLsbD_not, ← Bitset.testBit_word _ _ _ low,
      ← Bitset.testBit_word _ _ _ low, BitVec.getLsbD_zero]
    by_cases place : 32 * w + i < P
    · have first := testBit_supportBits a ⟨32 * w + i, place⟩
      have second := testBit_supportBits b ⟨32 * w + i, place⟩
      dsimp only at first second
      rw [first, second]
      by_cases weighs : a.weight ⟨32 * w + i, place⟩ ≠ 0
      · have := mem_rowSupport.mp (inside (mem_rowSupport.mpr weighs))
        simp [this]
      · simp [weighs]
    · rw [testBit_supportBits_of_le a (by omega), Bool.false_and]

/-- In a sorted list the elements up to the first one that is not smaller are all smaller ones. -/
theorem mem_takeWhile_take {α : Type} {key : α → Nat} {items : List α}
    (sorted : items.Pairwise fun a b => key a ≤ key b) {k : Nat} (h : k < items.length) (y : α) :
    y ∈ (items.take k).takeWhile (fun a => decide (key a < key items[k])) ↔
      y ∈ items ∧ key y < key items[k] := by
  have prefix_ (items : List α) (sorted : items.Pairwise fun a b => key a ≤ key b) (bound : Nat) :
      items.takeWhile (fun a => decide (key a < bound)) =
        items.filter fun a => decide (key a < bound) := by
    induction items with
    | nil => rfl
    | cons a items ih =>
      obtain ⟨first, rest⟩ := List.pairwise_cons.mp sorted
      by_cases small : key a < bound
      · simp [small, ih rest]
      · have none_ : items.filter (fun a => decide (key a < bound)) = [] := by
          rw [List.filter_eq_nil_iff]
          intro b mem
          have := first b mem
          simp
          omega
        simp [small, none_]
  rw [prefix_ _ (sorted.sublist (List.take_sublist k items)), List.mem_filter, decide_eq_true_eq]
  refine ⟨fun ⟨mem, small⟩ => ⟨List.mem_of_mem_take mem, small⟩, fun ⟨mem, small⟩ => ⟨?_, small⟩⟩
  obtain ⟨m, inside, rfl⟩ := List.getElem_of_mem mem
  have before : m < k := by
    by_contra after
    rcases Nat.eq_or_lt_of_le (not_lt.mp after) with same | later
    · subst same
      exact small.false
    · have := List.pairwise_iff_getElem.mp sorted k m h inside later
      omega
  exact List.mem_take_iff_getElem.mpr ⟨m, by omega, rfl⟩

theorem keepSupportMinimal_eq (rows : List (SemiflowRow P T)) : keepSupportMinimal rows =
    rows.filter fun r => decide (∀ s ∈ rows, ¬rowSupport s ⊂ rowSupport r) := by
  unfold keepSupportMinimal
  split
  next short =>
    cases rows with
    | nil => rfl
    | cons r rest =>
      cases rest with
      | nil => simp
      | cons s rest => simp at short
  next =>
    dsimp only
    set size := fun i : Nat => (rows.map supportSize).getD i 0 with size_def
    set order := (List.range rows.length).mergeSort fun i j => decide (size i ≤ size j) with order_def
    have perm : order.Perm (List.range rows.length) := List.mergeSort_perm _ _
    have sorted : order.Pairwise fun i j => size i ≤ size j := by
      have := @List.pairwise_mergeSort _ (fun i j => decide (size i ≤ size j))
        (fun a b c => by simp only [decide_eq_true_eq]; omega)
        (fun a b => by simp only [Bool.or_eq_true, decide_eq_true_eq]; omega) (List.range rows.length)
      simpa using this
    have length : order.length = rows.length := by rw [perm.length_eq, List.length_range]
    have mem_order (j : Nat) : j ∈ order ↔ j < rows.length := by rw [perm.mem_iff, List.mem_range]
    have size_eq (i : Nat) (inside : i < rows.length) : size i = (rowSupport rows[i]).card := by
      rw [size_def, ← supportSize_eq]
      simp [inside]
    -- a row is dropped exactly when a row of smaller size lies in it
    have dropped (i : Nat) (inside : i < rows.length) :
        (i ∈ ((List.range rows.length).filter fun oi =>
          ((order.take oi).takeWhile fun j => decide (size j < size (order.getD oi 0))).any fun j =>
            subsetBits ((rows.map supportBits).getD j Bitset.empty)
              ((rows.map supportBits).getD (order.getD oi 0) Bitset.empty)).map
                fun oi => order.getD oi 0) ↔ ∃ s ∈ rows, rowSupport s ⊂ rowSupport rows[i] := by
      have smaller (j : Nat) (inside' : j < rows.length) : (size j < size i ∧
          subsetBits ((rows.map supportBits).getD j Bitset.empty)
            ((rows.map supportBits).getD i Bitset.empty) = true) ↔
              rowSupport rows[j] ⊂ rowSupport rows[i] := by
        have bits (k : Nat) (inside : k < rows.length) :
            (rows.map supportBits).getD k Bitset.empty = supportBits rows[k] := by simp [inside]
        rw [bits i inside, bits j inside', subsetBits_iff, size_eq i inside, size_eq j inside']
        constructor
        · rintro ⟨less, subset⟩
          refine lt_of_le_of_ne subset fun same => ?_
          rw [same] at less
          exact less.false
        · exact fun strict => ⟨Finset.card_lt_card strict, strict.subset⟩
      rw [List.mem_map]
      constructor
      · rintro ⟨oi, mem, rfl⟩
        obtain ⟨bound, any⟩ := List.mem_filter.mp mem
        have bound : oi < order.length := by rw [length]; exact List.mem_range.mp bound
        have here : order.getD oi 0 = order[oi] := by simp [bound]
        obtain ⟨j, before, subset⟩ := List.any_eq_true.mp any
        rw [here] at before
        obtain ⟨mem_j, less⟩ := (mem_takeWhile_take sorted bound j).mp before
        have inside' := (mem_order j).mp mem_j
        exact ⟨rows[j], List.getElem_mem inside', (smaller j inside').mp ⟨by rwa [here], subset⟩⟩
      · rintro ⟨s, mem, strict⟩
        obtain ⟨j, inside', rfl⟩ := List.getElem_of_mem mem
        obtain ⟨oi, bound, at_⟩ := List.getElem_of_mem ((mem_order i).mpr inside)
        have here : order.getD oi 0 = i := by simp [bound, at_]
        obtain ⟨less, subset⟩ := (smaller j inside').mpr strict
        refine ⟨oi, List.mem_filter.mpr ⟨List.mem_range.mpr (by omega), ?_⟩, here⟩
        rw [List.any_eq_true, here]
        have before := (mem_takeWhile_take sorted bound j).mpr ⟨(mem_order j).mpr inside', by rwa [at_]⟩
        rw [at_] at before
        exact ⟨j, before, subset⟩
    have each : ∀ r ∈ rows.zipIdx, decide (r.2 ∉ ((List.range rows.length).filter fun oi =>
        ((order.take oi).takeWhile fun j => decide (size j < size (order.getD oi 0))).any fun j =>
          subsetBits ((rows.map supportBits).getD j Bitset.empty)
            ((rows.map supportBits).getD (order.getD oi 0) Bitset.empty)).map fun oi => order.getD oi 0) =
        ((fun r => decide (∀ s ∈ rows, ¬rowSupport s ⊂ rowSupport r)) ∘ Prod.fst) r := by
      rintro ⟨r, i⟩ mem
      obtain ⟨inside, at_⟩ := List.mem_zipIdx' mem
      dsimp only [Function.comp_apply] at inside at_ ⊢
      rw [decide_eq_decide, dropped i inside, at_]
      push Not
      rfl
    rw [List.filter_congr each, ← List.filter_map]
    congr 1
    exact List.zipIdx_map_fst 0 rows

end Sweep

/-! ## One round -/

section Rounds

variable {limits : Limits} {incidence : Fin T → Fin P → ℤ}

/-- The weights of a generator. -/
def rowWeighting (row : SemiflowRow P T) (p : Fin P) : ℚ := row.weight p

theorem support_rowWeighting (row : SemiflowRow P T) :
    Function.support (rowWeighting row) = (rowSupport row : Set (Fin P)) := by
  ext p
  rw [Function.mem_support, Finset.mem_coe, mem_rowSupport, rowWeighting, Int.cast_ne_zero]

/-- The signature of a generator is what its weights combine to. -/
def Signs (incidence : Fin T → Fin P → ℤ) (row : SemiflowRow P T) : Prop :=
  ∀ t, row.sig t = ∑ p, row.weight p * incidence t p

/-- What a transition changes of a weighting. -/
def change (incidence : Fin T → Fin P → ℤ) (t : Fin T) : (Fin P → ℚ) →ₗ[ℚ] ℚ :=
  (LinearMap.proj t).comp (changes incidence)

theorem Signs.change {row : SemiflowRow P T} (h : Signs incidence row) (t : Fin T) :
    change incidence t (rowWeighting row) = row.sig t := by
  rw [Verified.change, LinearMap.comp_apply, LinearMap.proj_apply, changes_apply, h t]
  push_cast
  rfl

/-- A generator is a positive multiple of the reduced one. -/
theorem exists_reduceGcd (row : SemiflowRow P T) :
    ∃ g : ℤ, 0 < g ∧ (∀ t, row.sig t = g * (reduceGcd row).sig t) ∧
      ∀ p, row.weight p = g * (reduceGcd row).weight p := by
  unfold reduceGcd
  dsimp only
  split
  next large =>
    refine ⟨_, Int.natCast_pos.mpr (Nat.zero_lt_of_lt large), fun t => ?_, fun p => ?_⟩
    · have inner := (dvd_foldl_gcd row.sig (List.finRange T) 0).2 t (List.mem_finRange t)
      have outer := (dvd_foldl_gcd row.weight (List.finRange P)
        ((List.finRange T).foldl (fun g t => g.gcd (row.sig t).natAbs) 0)).1
      exact (Int.mul_ediv_cancel' ((Int.natCast_dvd_natCast.mpr outer).trans inner)).symm
    · exact (Int.mul_ediv_cancel' ((dvd_foldl_gcd row.weight (List.finRange P) _).2 p
        (List.mem_finRange p))).symm
  next => exact ⟨1, one_pos, fun t => (one_mul _).symm, fun p => (one_mul _).symm⟩

/-- A combination is the two generators with positive factors. -/
theorem combineRow_spec {isSafe : ℤ → Bool} {a b row : SemiflowRow P T} {t : Fin T}
    (combined : combineRow isSafe (-b.sig t) a (a.sig t) b = some row) (signs_a : Signs incidence a)
    (signs_b : Signs incidence b) (pos : 0 < a.sig t) (neg : b.sig t < 0) :
    Signs incidence row ∧ ∃ c d : ℚ, 0 < c ∧ 0 < d ∧
      c * change incidence t (rowWeighting a) + d * change incidence t (rowWeighting b) = 0 ∧
        rowWeighting row = c • rowWeighting a + d • rowWeighting b := by
  unfold combineRow at combined
  dsimp only at combined
  split at combined
  · obtain rfl := Option.some.inj combined
    obtain ⟨g, pos_g, sig, weight⟩ := exists_reduceGcd (⟨fun s => -b.sig t * a.sig s + a.sig t * b.sig s,
      fun p => -b.sig t * a.weight p + a.sig t * b.weight p⟩ : SemiflowRow P T)
    dsimp only at sig weight
    have pos_g' : (0 : ℚ) < g := by exact_mod_cast pos_g
    refine ⟨fun s => ?_, -b.sig t / g, a.sig t / g, ?_, ?_, ?_, funext fun p => ?_⟩
    · apply mul_left_cancel₀ pos_g.ne'
      rw [← sig s, signs_a s, signs_b s, Finset.mul_sum, Finset.mul_sum, Finset.mul_sum,
        ← Finset.sum_add_distrib]
      refine Finset.sum_congr rfl fun p _ => ?_
      rw [← mul_assoc g, ← weight p]
      ring
    · exact div_pos (by exact_mod_cast neg_pos.mpr neg) pos_g'
    · exact div_pos (by exact_mod_cast pos) pos_g'
    · rw [signs_a.change, signs_b.change]
      ring
    · have scaled := congrArg (Int.cast : ℤ → ℚ) (weight p)
      push_cast at scaled
      simp only [Pi.add_apply, Pi.smul_apply, smul_eq_mul, rowWeighting]
      field_simp
      linarith
  · cases combined

/-- Nothing is cut in a round: the arithmetic holds each combination, and there are not too many candidates
nor generators. -/
structure UncutRound (limits : Limits) (rows : List (SemiflowRow P T)) (t : Fin T) : Prop where
  held : ∀ pair ∈ oppositePairs t rows,
    (combineRow limits.isSafe (-pair.2.sig t) pair.1 (pair.1.sig t) pair.2).isSome = true
  candidates : oppositePairs t rows ≠ [] →
    (rows.filter fun r => r.sig t = 0).length + (oppositePairs t rows).length ≤ limits.maxSemiflowCandidates
  survivors : (keepSupportMinimal (addCandidates limits t (oppositePairs t rows)
    (rows.filter fun r => r.sig t = 0))).length ≤ limits.maxSemiflowRows

/-- Without a cut every pair gives its combination. -/
theorem mem_addCandidates {t : Fin T} {pairs : List (SemiflowRow P T × SemiflowRow P T)}
    (held : ∀ pair ∈ pairs,
      (combineRow limits.isSafe (-pair.2.sig t) pair.1 (pair.1.sig t) pair.2).isSome = true)
    (next : List (SemiflowRow P T))
    (few : pairs ≠ [] → next.length + pairs.length ≤ limits.maxSemiflowCandidates)
    (row : SemiflowRow P T) : row ∈ addCandidates limits t pairs next ↔ row ∈ next ∨ ∃ pair ∈ pairs,
      combineRow limits.isSafe (-pair.2.sig t) pair.1 (pair.1.sig t) pair.2 = some row := by
  induction pairs generalizing next with
  | nil => simp [addCandidates]
  | cons pair pairs ih =>
    obtain ⟨rp, rn⟩ := pair
    have room := few (List.cons_ne_nil _ _)
    rw [List.length_cons] at room
    obtain ⟨combined, here⟩ := Option.isSome_iff_exists.mp (held (rp, rn) List.mem_cons_self)
    dsimp only at here
    rw [addCandidates, if_neg (by omega), here]
    dsimp only
    rw [ih (fun pair mem => held pair (List.mem_cons_of_mem _ mem)) _ (fun _ => by
      rw [List.length_append, List.length_singleton]
      omega)]
    simp only [List.mem_append, List.mem_singleton, List.exists_mem_cons_iff, here, Option.some.injEq,
      or_assoc, eq_comm]

theorem mem_oppositePairs {t : Fin T} {rows : List (SemiflowRow P T)} {a b : SemiflowRow P T} :
    (a, b) ∈ oppositePairs t rows ↔ (a ∈ rows ∧ 0 < a.sig t) ∧ b ∈ rows ∧ b.sig t < 0 := by
  simp [oppositePairs]

/-! ## The rounds -/

/-- The weightings that some transitions do not change. -/
def unchangedBy (incidence : Fin T → Fin P → ℤ) (done : List (Fin T)) : Submodule ℚ (Fin P → ℚ) :=
  done.foldl (fun L t => L ⊓ LinearMap.ker (change incidence t)) ⊤

/-- The generators after some rounds. -/
structure Generating (incidence : Fin T → Fin P → ℤ) (done : List (Fin T))
    (rows : List (SemiflowRow P T)) : Prop where
  signs : ∀ r ∈ rows, Signs incidence r
  generates : Generates {y | ∃ r ∈ rows, rowWeighting r = y} (unchangedBy incidence done)
  minimal : ∀ r ∈ rows, ∀ s ∈ rows, ¬rowSupport s ⊂ rowSupport r

theorem generating_unitRows : Generating incidence [] (unitRows incidence) := by
  have each {r : SemiflowRow P T} (mem : r ∈ unitRows incidence) :
      ∃ p, r = ⟨fun t => incidence t p, fun q => if q = p then 1 else 0⟩ := by
    obtain ⟨p, -, same⟩ := List.mem_map.mp mem
    exact ⟨p, same.symm⟩
  refine ⟨fun r mem t => ?_, ⟨?_, fun y flow => ?_⟩, fun r mem s mem' strict => ?_⟩
  · obtain ⟨p, rfl⟩ := each mem
    simp
  · rintro _ ⟨r, mem, rfl⟩
    obtain ⟨p, rfl⟩ := each mem
    refine ⟨Submodule.mem_top, fun q => ?_, fun zero => ?_⟩
    · by_cases same : q = p
      · simp [rowWeighting, same]
      · simp [rowWeighting, same]
    · have := congrFun zero p
      simp [rowWeighting] at this
  · obtain ⟨p, weighs⟩ := Function.support_nonempty_iff.mpr flow.ne_zero
    refine ⟨_, ⟨_, List.mem_map.mpr ⟨p, List.mem_finRange p, rfl⟩, rfl⟩, fun q mem => ?_⟩
    have : q = p := by
      by_contra apart
      simp [rowWeighting, apart] at mem
    rwa [this]
  · obtain ⟨p, rfl⟩ := each mem
    obtain ⟨q, rfl⟩ := each mem'
    obtain ⟨inside, not_all⟩ := strict
    have : q ∈ rowSupport (T := T) ⟨fun t => incidence t q, fun i => if i = q then 1 else 0⟩ :=
      mem_rowSupport.mpr (by simp)
    have same : q = p := by
      have := mem_rowSupport.mp (inside this)
      simpa using this
    subst same
    exact not_all subset_rfl

theorem Generating.round {done : List (Fin T)} {rows : List (SemiflowRow P T)}
    (h : Generating incidence done rows) {t : Fin T} (uncut : UncutRound limits rows t) :
    Generating incidence (done ++ [t]) (eliminateTransition limits rows t) := by
  unfold eliminateTransition
  rw [List.take_of_length_le uncut.survivors, keepSupportMinimal_eq]
  set next := addCandidates limits t (oppositePairs t rows) (rows.filter fun r => r.sig t = 0) with next_def
  have mem_next (row : SemiflowRow P T) : row ∈ next ↔ (row ∈ rows ∧ row.sig t = 0) ∨
      ∃ a b, ((a ∈ rows ∧ 0 < a.sig t) ∧ b ∈ rows ∧ b.sig t < 0) ∧
        combineRow limits.isSafe (-b.sig t) a (a.sig t) b = some row := by
    rw [next_def, mem_addCandidates uncut.held _ uncut.candidates, List.mem_filter, decide_eq_true_eq,
      Prod.exists]
    simp only [mem_oppositePairs]
  have signs : ∀ r ∈ next, Signs incidence r := by
    intro r mem
    rcases (mem_next r).mp mem with ⟨old, -⟩ | ⟨a, b, ⟨⟨mem_a, pos⟩, mem_b, neg⟩, combined⟩
    · exact h.signs r old
    · exact (combineRow_spec combined (h.signs a mem_a) (h.signs b mem_b) pos neg).1
  have generates : Generates {y | ∃ r ∈ next, rowWeighting r = y} (unchangedBy incidence (done ++ [t])) := by
    rw [unchangedBy, List.foldl_concat]
    refine h.generates.inf_ker (change incidence t) ?_ ?_ ?_
    · rintro _ ⟨r, mem, rfl⟩
      rcases (mem_next r).mp mem with ⟨old, zero⟩ | ⟨a, b, ⟨⟨mem_a, pos⟩, mem_b, neg⟩, combined⟩
      · have flow := h.generates.flow _ ⟨r, old, rfl⟩
        refine ⟨⟨flow.mem, ?_⟩, flow.nonneg, flow.ne_zero⟩
        exact LinearMap.mem_ker.mpr (by rw [(h.signs r old).change, zero, Int.cast_zero])
      · obtain ⟨-, c, d, pos_c, pos_d, cancels, sum⟩ :=
          combineRow_spec combined (h.signs a mem_a) (h.signs b mem_b) pos neg
        rw [sum]
        exact (h.generates.flow _ ⟨a, mem_a, rfl⟩).cancel (h.generates.flow _ ⟨b, mem_b, rfl⟩) pos_c pos_d
          cancels
    · rintro _ ⟨r, mem, rfl⟩ zero
      rw [(h.signs r mem).change, Int.cast_eq_zero] at zero
      exact ⟨_, ⟨r, (mem_next r).mpr (Or.inl ⟨mem, zero⟩), rfl⟩, subset_rfl⟩
    · rintro _ ⟨a, mem_a, rfl⟩ _ ⟨b, mem_b, rfl⟩ pos neg
      rw [(h.signs a mem_a).change] at pos
      rw [(h.signs b mem_b).change] at neg
      have pos : 0 < a.sig t := by exact_mod_cast pos
      have neg : b.sig t < 0 := by exact_mod_cast neg
      have opposite := mem_oppositePairs.mpr ⟨⟨mem_a, pos⟩, mem_b, neg⟩
      obtain ⟨row, combined⟩ := Option.isSome_iff_exists.mp (uncut.held _ opposite)
      refine ⟨_, ⟨row, (mem_next row).mpr (Or.inr ⟨a, b, ⟨⟨mem_a, pos⟩, mem_b, neg⟩, combined⟩), rfl⟩, ?_⟩
      obtain ⟨-, c, d, -, -, -, sum⟩ := combineRow_spec combined (h.signs a mem_a) (h.signs b mem_b) pos neg
      rw [sum]
      refine (Function.support_add _ _).trans (Set.union_subset_union ?_ ?_)
      · exact Function.support_const_smul_subset c _
      · exact Function.support_const_smul_subset d _
  have strict (r s : SemiflowRow P T) : rowSupport s ⊂ rowSupport r ↔
      Function.support (rowWeighting s) ⊂ Function.support (rowWeighting r) := by
    rw [support_rowWeighting, support_rowWeighting, Finset.coe_ssubset]
  refine ⟨fun r mem => signs r (List.mem_of_mem_filter mem), ?_, ?_⟩
  · have kept := generates.supportMinimal
    have same : supportMinimal {y | ∃ r ∈ next, rowWeighting r = y} = {y | ∃ r ∈ next.filter fun r =>
        decide (∀ s ∈ next, ¬rowSupport s ⊂ rowSupport r), rowWeighting r = y} := by
      ext y
      constructor
      · rintro ⟨⟨r, mem, rfl⟩, minimal⟩
        refine ⟨r, List.mem_filter.mpr ⟨mem, decide_eq_true fun s mem_s smaller => ?_⟩, rfl⟩
        exact minimal _ ⟨s, mem_s, rfl⟩ ((strict r s).mp smaller)
      · rintro ⟨r, mem, rfl⟩
        obtain ⟨mem, minimal⟩ := List.mem_filter.mp mem
        refine ⟨⟨r, mem, rfl⟩, ?_⟩
        rintro _ ⟨s, mem_s, rfl⟩ smaller
        exact of_decide_eq_true minimal s mem_s ((strict r s).mpr smaller)
    rwa [same] at kept
  · intro r mem s mem_s
    exact of_decide_eq_true (List.mem_filter.mp mem).2 s (List.mem_of_mem_filter mem_s)

/-- Nothing is cut in the rounds for some transitions. -/
def UncutFrom (limits : Limits) : List (SemiflowRow P T) → List (Fin T) → Prop
  | _, [] => True
  | rows, t :: rest => UncutRound limits rows t ∧ UncutFrom limits (eliminateTransition limits rows t) rest

/-- Nothing is cut in any round. -/
def Uncut (limits : Limits) (incidence : Fin T → Fin P → ℤ) : Prop :=
  UncutFrom limits (unitRows incidence) (List.finRange T)

theorem Generating.rounds {done rest : List (Fin T)} {rows : List (SemiflowRow P T)}
    (h : Generating incidence done rows) (uncut : UncutFrom limits rows rest) :
    Generating incidence (done ++ rest) (rest.foldl (eliminateTransition limits) rows) := by
  induction rest generalizing done rows with
  | nil => simpa using h
  | cons t rest ih =>
    have next := ih (h.round uncut.1) uncut.2
    rwa [List.append_assoc] at next

theorem generating_semiflowRows (uncut : Uncut limits incidence) :
    Generating incidence (List.finRange T) (semiflowRows limits incidence) :=
  generating_unitRows.rounds uncut

theorem mem_unchangedBy {done : List (Fin T)} {y : Fin P → ℚ} :
    y ∈ unchangedBy incidence done ↔ ∀ t ∈ done, ∑ p, y p * incidence t p = 0 := by
  induction done using List.reverseRecOn with
  | nil => simp [unchangedBy]
  | append_singleton done t ih =>
    rw [unchangedBy, List.foldl_concat, Submodule.mem_inf]
    change y ∈ unchangedBy incidence done ∧ _ ↔ _
    rw [ih, LinearMap.mem_ker, change, LinearMap.comp_apply, LinearMap.proj_apply, changes_apply]
    simp only [List.mem_append, List.mem_singleton, or_imp, forall_and, forall_eq]

end Rounds

/-! ## The semiflows -/

section Semiflows

variable {S : Type} {flatNet : FlatNet S}

/-- The weightings that no column changes. -/
def nullSpace (matrix : IncidenceMatrix flatNet.places.length) : Submodule ℚ (flatNet.Index → ℚ) :=
  LinearMap.ker (changes matrix.incidence.get)

theorem mem_nullSpace {matrix : IncidenceMatrix flatNet.places.length} {y : flatNet.Index → ℚ} :
    y ∈ nullSpace matrix ↔ ∀ row ∈ matrix.incidence, ∑ p, y p * row p = 0 := by
  rw [nullSpace, LinearMap.mem_ker, funext_iff, List.forall_mem_iff_getElem]
  simp only [changes_apply, Pi.zero_apply]
  exact ⟨fun h t bound => h ⟨t, bound⟩, fun h t => h t.val t.isLt⟩

theorem unchangedBy_finRange (matrix : IncidenceMatrix flatNet.places.length) :
    unchangedBy (fun (t : Fin matrix.numTransitions) p => matrix.incidence[t] p) (List.finRange _) =
      nullSpace matrix := by
  ext y
  rw [mem_unchangedBy, nullSpace, LinearMap.mem_ker, funext_iff]
  simp only [List.mem_finRange, true_implies, changes_apply, Pi.zero_apply]
  exact Iff.rfl

/-- Where nothing is cut, the supports of the computed semiflows are the minimal supports of the non-negative
weightings that no column changes.  The sweep keeps the generators whose support holds no strictly smaller
one, whatever the generators are. -/
theorem computePSemiflows_minimal (limits : Limits) (flatNet : FlatNet S)
    (matrix : IncidenceMatrix flatNet.places.length) (initialMarking : MarkingState)
    (uncut : Uncut limits fun (t : Fin matrix.numTransitions) p => matrix.incidence[t] p)
    (held : ∀ row ∈ semiflowRows limits fun (t : Fin matrix.numTransitions) p => matrix.incidence[t] p,
      limits.isSafe (pInvariant flatNet initialMarking row.weight).constant = true) :
    (∀ law ∈ computePSemiflows limits flatNet matrix initialMarking,
        IsFlow (nullSpace matrix) (lawWeights law) ∧ (∀ p, p ∈ law.support ↔ law.weights p ≠ 0) ∧
          law.constant = ∑ p, law.weights p * initialMarking.tokens (flatNet.placeAt p)) ∧
      (∀ places : Set flatNet.Index, (∃ law ∈ computePSemiflows limits flatNet matrix initialMarking,
        {p | p ∈ law.support} = places) ↔ IsMinimalSupport (nullSpace matrix) places) ∧
      ∀ (P T : Nat) (rows : List (SemiflowRow P T)), keepSupportMinimal rows =
        rows.filter fun r => decide (∀ s ∈ rows, ¬rowSupport s ⊂ rowSupport r) := by
  have h := generating_semiflowRows uncut
  have generates := h.generates
  rw [unchangedBy_finRange] at generates
  set rows := semiflowRows limits fun (t : Fin matrix.numTransitions) p => matrix.incidence[t] p
  have laws : computePSemiflows limits flatNet matrix initialMarking =
      rows.map fun row => pInvariant flatNet initialMarking row.weight := by
    unfold computePSemiflows
    rw [← List.filterMap_eq_map]
    refine List.filterMap_congr fun row mem => ?_
    have weighs : ¬((List.finRange _).all fun p => decide (row.weight p = 0)) = true := by
      intro all
      apply (generates.flow _ ⟨row, mem, rfl⟩).ne_zero
      funext p
      have := List.all_eq_true.mp all p (List.mem_finRange p)
      rw [decide_eq_true_eq] at this
      change (row.weight p : ℚ) = 0
      rw [this, Int.cast_zero]
    rw [if_neg weighs, if_pos (held row mem)]
    rfl
  have support (row : SemiflowRow flatNet.places.length matrix.numTransitions) (p : flatNet.Index) :
      p ∈ (pInvariant flatNet initialMarking row.weight).support ↔ row.weight p ≠ 0 := by
    simp [pInvariant]
  refine ⟨fun law mem => ?_, fun places => ?_, fun P T rows => keepSupportMinimal_eq rows⟩
  · rw [laws] at mem
    obtain ⟨row, listed, rfl⟩ := List.mem_map.mp mem
    exact ⟨generates.flow _ ⟨row, listed, rfl⟩, support row, constant_pInvariant _⟩
  · rw [← generates.support_iff, laws]
    constructor
    · rintro ⟨law, mem, rfl⟩
      obtain ⟨row, listed, rfl⟩ := List.mem_map.mp mem
      refine ⟨_, ⟨⟨row, listed, rfl⟩, ?_⟩, ?_⟩
      · rintro _ ⟨s, mem_s, rfl⟩ smaller
        rw [support_rowWeighting, support_rowWeighting, Finset.coe_ssubset] at smaller
        exact h.minimal row listed s mem_s smaller
      · ext p
        rw [Set.mem_ofPred, support row p, support_rowWeighting, Finset.mem_coe, mem_rowSupport]
    · rintro ⟨_, ⟨⟨row, mem, rfl⟩, -⟩, rfl⟩
      refine ⟨_, List.mem_map.mpr ⟨row, mem, rfl⟩, ?_⟩
      ext p
      rw [Set.mem_ofPred, support row p, support_rowWeighting, Finset.mem_coe, mem_rowSupport]

theorem computePSemiflows_minimal_moveOnce :
    (∃ law ∈ computePSemiflows doubleLimits moveOnceNet (.ofFlatNet moveOnceNet) moveOnceMarking,
        {p | p ∈ law.support} = Set.univ) ↔
      IsMinimalSupport (nullSpace (.ofFlatNet moveOnceNet)) Set.univ :=
  (computePSemiflows_minimal doubleLimits moveOnceNet (.ofFlatNet moveOnceNet) moveOnceMarking
    ⟨⟨by decide +kernel, by decide +kernel, by decide +kernel⟩, trivial⟩ (by decide +kernel)).2.1 Set.univ

end Semiflows

end LibPetri.Verified
