import LibPetri.Basis.Simplex
import LibPetri.Verification.SlotBoundLp

/-! # Sparse tableaux

The tableau over sparse rows is the tableau of the simplex method: its rows are sorted, so that the binary
search finds every entry, and each of its operations is the one on the dense rows.
-/

namespace LibPetri.Verified

open LibPetri.Basis LibPetri.Core LibPetri.Verification LibPetri.Verification.SlotBoundLp

variable {n k : Nat}

/-! ## Rows -/

section Values

variable {ι K : Type} [DecidableEq ι] {row : List (ι × K)} {j : ι}

/-- The value of a row at a column. -/
def valueAt [AddCommMonoid K] (row : List (ι × K)) (j : ι) : K :=
  ((row.filter fun e => e.1 = j).map Prod.snd).sum

variable [AddCommMonoid K]

@[simp] theorem valueAt_nil : valueAt ([] : List (ι × K)) j = 0 := rfl

@[simp] theorem valueAt_cons (c : ι) (v : K) (row : List (ι × K)) :
    valueAt ((c, v) :: row) j = (if c = j then v else 0) + valueAt row j := by
  by_cases here : c = j
  · simp [valueAt, here]
  · simp [valueAt, here]

@[simp] theorem valueAt_append (row row' : List (ι × K)) :
    valueAt (row ++ row') j = valueAt row j + valueAt row' j := by
  simp [valueAt]

theorem valueAt_map {K' : Type} [AddCommMonoid K'] (f : K → K')
    (additive : ∀ a b, f (a + b) = f a + f b) (zero : f 0 = 0) (row : List (ι × K)) :
    valueAt (row.map fun e => (e.1, f e.2)) j = f (valueAt row j) := by
  induction row with
  | nil => exact zero.symm
  | cons e row ih =>
    rw [List.map_cons, valueAt_cons, ih, valueAt_cons, additive]
    by_cases here : e.1 = j
    · simp [here]
    · simp [here, zero]

theorem valueAt_of_absent (absent : ∀ e ∈ row, e.1 ≠ j) : valueAt row j = 0 := by
  have none_ : row.filter (fun e => e.1 = j) = [] := by
    rw [List.filter_eq_nil_iff]
    exact fun e mem => by simpa using absent e mem
  rw [valueAt, none_, List.map_nil, List.sum_nil]

theorem valueAt_of_mem {v : K} (nodup : (row.map Prod.fst).Nodup) (mem : (j, v) ∈ row) :
    valueAt row j = v := by
  induction row with
  | nil => cases mem
  | cons e row ih =>
    rw [List.map_cons, List.nodup_cons] at nodup
    cases mem with
    | head =>
      have rest : valueAt row j = 0 := valueAt_of_absent fun e' later same => by
        have listed : e'.1 ∈ row.map Prod.fst := List.mem_map_of_mem later
        rw [same] at listed
        exact nodup.1 listed
      rw [valueAt_cons, rest, if_pos rfl, add_zero]
    | tail _ later =>
      have before : e.1 ≠ j := fun same => nodup.1 (same ▸ List.mem_map_of_mem later)
      rw [valueAt_cons, if_neg before, zero_add, ih nodup.2 later]

end Values

section Rows

variable {row prow : SparseRow k} {j : Fin k} {v : ℚ}

/-- The entries of a row are sorted by column. -/
def Sorted (row : SparseRow k) : Prop := row.Pairwise fun a b => a.1 < b.1

theorem Sorted.nodup (sorted : Sorted row) : (row.map Prod.fst).Nodup :=
  (List.pairwise_map.mpr sorted).imp ne_of_lt

/-! ### The search -/

/-- What the search finds is in the row; where it finds nothing, the column is not in the range. -/
theorem searchIndex_spec (sorted : Sorted row) (fuel lo hi : Nat) (within : hi ≤ row.length)
    (enough : hi - lo < fuel) :
    match searchIndex row j fuel lo hi with
    | some i => ∃ v, row[i]? = some (j, v)
    | none => ∀ i, lo ≤ i → i < hi → ∀ e, row[i]? = some e → e.1 ≠ j := by
  induction fuel generalizing lo hi with
  | zero => omega
  | succ fuel ih =>
    rw [searchIndex]
    by_cases more : lo < hi
    · rw [if_pos more]
      obtain ⟨mid, middle⟩ : ∃ mid, (lo + (hi - 1)) / 2 = mid := ⟨_, rfl⟩
      have low : lo ≤ mid := by omega
      have high : mid < hi := by omega
      obtain ⟨⟨c, v⟩, entry⟩ : ∃ e, row[mid]? = some e :=
        ⟨_, List.getElem?_eq_getElem (high.trans_le within)⟩
      have ordered {i i' : Nat} {e e' : Fin k × ℚ} (lt : i < i') (first : row[i]? = some e)
          (second : row[i']? = some e') : e.1 < e'.1 := by
        obtain ⟨inside, rfl⟩ := List.getElem?_eq_some_iff.mp first
        obtain ⟨inside', rfl⟩ := List.getElem?_eq_some_iff.mp second
        exact List.pairwise_iff_getElem.mp sorted _ _ inside inside' lt
      simp only [middle, entry]
      by_cases found : c = j
      · subst found
        rw [if_pos rfl]
        exact ⟨v, entry⟩
      · rw [if_neg found]
        by_cases right : c < j
        · rw [if_pos right]
          have rest := ih (mid + 1) hi within (by omega)
          cases search : searchIndex row j fuel (mid + 1) hi with
          | some i =>
            rw [search] at rest
            exact rest
          | none =>
            rw [search] at rest
            intro i from_lo below e here same
            by_cases left : i ≤ mid
            · rcases left.lt_or_eq with before | rfl
              · exact absurd (ordered before here entry) (same ▸ right).not_gt
              · rw [entry] at here
                exact found ((congrArg Prod.fst (Option.some.inj here)).trans same)
            · exact rest i (by omega) below e here same
        · rw [if_neg right]
          have rest := ih lo mid (by omega) (by omega)
          cases search : searchIndex row j fuel lo mid with
          | some i =>
            rw [search] at rest
            exact rest
          | none =>
            rw [search] at rest
            intro i from_lo below e here same
            by_cases left : i < mid
            · exact rest i from_lo left e here same
            · rcases (Nat.le_of_not_lt left).lt_or_eq with after | rfl
              · have := ordered after entry here
                exact right (same ▸ this)
              · rw [entry] at here
                exact found ((congrArg Prod.fst (Option.some.inj here)).trans same)
    · rw [if_neg more]
      exact fun i from_lo below => absurd (from_lo.trans_lt below) more

theorem lookupIndex_spec (sorted : Sorted row) :
    match lookupIndex row j with
    | some i => ∃ v, row[i]? = some (j, v)
    | none => ∀ e ∈ row, e.1 ≠ j := by
  have found := searchIndex_spec (j := j) sorted (row.length + 1) 0 row.length le_rfl (by omega)
  rw [lookupIndex]
  cases search : searchIndex row j (row.length + 1) 0 row.length with
  | some i =>
    rw [search] at found
    exact found
  | none =>
    rw [search] at found
    intro e mem
    obtain ⟨i, inside, rfl⟩ := List.getElem_of_mem mem
    exact found i (Nat.zero_le i) inside _ (List.getElem?_eq_getElem inside)

theorem mem_of_lookup (sorted : Sorted row) (found : lookup row j = some v) : (j, v) ∈ row := by
  have spec := lookupIndex_spec (j := j) sorted
  rw [lookup] at found
  cases search : lookupIndex row j with
  | none =>
    rw [search] at found
    cases found
  | some i =>
    rw [search] at found spec
    obtain ⟨v', entry⟩ := spec
    rw [Option.bind_some, entry, Option.map_some] at found
    obtain rfl := Option.some.inj found
    exact List.mem_of_getElem? entry

theorem valueAt_of_lookup (sorted : Sorted row) (found : lookup row j = some v) : valueAt row j = v :=
  valueAt_of_mem sorted.nodup (mem_of_lookup sorted found)

theorem valueAt_of_lookup_none (sorted : Sorted row) (absent : lookup row j = none) :
    valueAt row j = 0 := by
  have spec := lookupIndex_spec (j := j) sorted
  rw [lookup] at absent
  cases search : lookupIndex row j with
  | none =>
    rw [search] at spec
    exact valueAt_of_absent spec
  | some i =>
    rw [search] at absent spec
    obtain ⟨v', entry⟩ := spec
    rw [Option.bind_some, entry] at absent
    cases absent

theorem lookup_getD (sorted : Sorted row) : (lookup row j).getD 0 = valueAt row j := by
  cases found : lookup row j with
  | none => exact (valueAt_of_lookup_none sorted found).symm
  | some v => exact (valueAt_of_lookup sorted found).symm

/-! ### Subtracting a row -/

theorem valueAt_subScaled (f : ℚ) (row prow : SparseRow k) :
    valueAt (subScaled f row prow) j = valueAt row j - f * valueAt prow j := by
  fun_induction subScaled f row prow with
  | case1 prow =>
    rw [valueAt_map (fun v => -(f * v)) (fun a b => by ring) (by ring), valueAt_nil, zero_sub]
  | case2 row _ => simp
  | case3 ci vi row cj vj prow less ih =>
    rw [valueAt_cons, ih, valueAt_cons ci vi]
    ring
  | case4 ci vi row cj vj prow _ less ih =>
    rw [valueAt_cons, ih, valueAt_cons cj vj]
    split <;> ring
  | case5 ci vi row cj vj prow le ge zero ih =>
    obtain rfl : ci = cj := le_antisymm (not_lt.mp ge) (not_lt.mp le)
    rw [ih, valueAt_cons, valueAt_cons]
    split
    · linear_combination -zero
    · ring
  | case6 ci vi row cj vj prow le ge _ ih =>
    obtain rfl : ci = cj := le_antisymm (not_lt.mp ge) (not_lt.mp le)
    rw [valueAt_cons, ih, valueAt_cons, valueAt_cons]
    split <;> ring

/-- No column comes before those of both rows. -/
theorem below_subScaled (f : ℚ) {c : Fin k} (row prow : SparseRow k) (below : ∀ e ∈ row, c < e.1)
    (below' : ∀ e ∈ prow, c < e.1) : ∀ e ∈ subScaled f row prow, c < e.1 := by
  fun_induction subScaled f row prow with
  | case1 prow =>
    intro e mem
    obtain ⟨e', mem', rfl⟩ := List.mem_map.mp mem
    exact below' e' mem'
  | case2 row _ => exact below
  | case3 ci vi row cj vj prow less ih =>
    rw [List.forall_mem_cons] at below ⊢
    exact ⟨below.1, ih below.2 below'⟩
  | case4 ci vi row cj vj prow _ less ih =>
    rw [List.forall_mem_cons] at below' ⊢
    exact ⟨below'.1, ih below below'.2⟩
  | case5 ci vi row cj vj prow le ge zero ih =>
    rw [List.forall_mem_cons] at below below'
    exact ih below.2 below'.2
  | case6 ci vi row cj vj prow le ge _ ih =>
    rw [List.forall_mem_cons] at below below' ⊢
    exact ⟨below.1, ih below.2 below'.2⟩

theorem sorted_map (g : ℚ → ℚ) (sorted : Sorted row) : Sorted (row.map fun e => (e.1, g e.2)) :=
  List.pairwise_map.mpr sorted

theorem sorted_subScaled (f : ℚ) (row prow : SparseRow k) (sorted : Sorted row) (sorted' : Sorted prow) :
    Sorted (subScaled f row prow) := by
  fun_induction subScaled f row prow with
  | case1 prow => exact sorted_map (fun v => -(f * v)) sorted'
  | case2 row _ => exact sorted
  | case3 ci vi row cj vj prow less ih =>
    have first := List.pairwise_cons.mp sorted
    have second := List.pairwise_cons.mp sorted'
    refine List.pairwise_cons.mpr ⟨below_subScaled f _ _ first.1 ?_, ih first.2 sorted'⟩
    rw [List.forall_mem_cons]
    exact ⟨less, fun e mem => less.trans (second.1 e mem)⟩
  | case4 ci vi row cj vj prow _ less ih =>
    have first := List.pairwise_cons.mp sorted
    have second := List.pairwise_cons.mp sorted'
    refine List.pairwise_cons.mpr ⟨below_subScaled f _ _ ?_ second.1, ih sorted second.2⟩
    rw [List.forall_mem_cons]
    exact ⟨less, fun e mem => less.trans (first.1 e mem)⟩
  | case5 ci vi row cj vj prow le ge zero ih =>
    exact ih (List.pairwise_cons.mp sorted).2 (List.pairwise_cons.mp sorted').2
  | case6 ci vi row cj vj prow le ge _ ih =>
    have first := List.pairwise_cons.mp sorted
    have second := List.pairwise_cons.mp sorted'
    obtain rfl : ci = cj := le_antisymm (not_lt.mp ge) (not_lt.mp le)
    exact List.pairwise_cons.mpr ⟨below_subScaled f _ _ first.1 second.1, ih first.2 second.2⟩

end Rows

/-! ## The tableau -/

section Tableaux

open SlotTableau Simplex

variable {t t' : SlotTableau n k} {limits : Limits} {r : Fin n} {e : Fin k}

/-- The tableau over dense rows. -/
def dense (t : SlotTableau n k) : Tableau (Fin k) (Fin n) ℚ where
  row i := valueAt (t.rows.get i)
  rhs := t.rhs.get
  obj := valueAt t.obj
  value := t.objValue
  basis := t.basis.get

/-- The rows are sorted. -/
structure Tidy (t : SlotTableau n k) : Prop where
  rows : ∀ i, Sorted (t.rows.get i)
  obj : Sorted t.obj

theorem vector_get_ofFn {α : Type} (f : Fin n → α) (i : Fin n) : (Vector.ofFn f).get i = f i := by
  rw [Vector.get_eq_getElem, Vector.getElem_ofFn]

/-! ### Pivots -/

theorem sorted_reduced {row prow : SparseRow k} (sorted : Sorted row) (sorted' : Sorted prow) :
    Sorted (reduced row e prow) := by
  rw [reduced]
  cases lookup row e with
  | none => exact sorted
  | some f => exact sorted_subScaled f row prow sorted sorted'

theorem valueAt_reduced {row prow : SparseRow k} (sorted : Sorted row) (j : Fin k) :
    valueAt (reduced row e prow) j = valueAt row j - valueAt row e * valueAt prow j := by
  rw [reduced]
  cases found : lookup row e with
  | none => rw [valueAt_of_lookup_none sorted found, zero_mul, sub_zero]
  | some f => rw [valueAt_of_lookup sorted found, valueAt_subScaled]

theorem reducedValue_eq {row : SparseRow k} (sorted : Sorted row) (value prhs : ℚ) :
    reducedValue value row e prhs = value - valueAt row e * prhs := by
  rw [reducedValue]
  cases found : lookup row e with
  | none => rw [valueAt_of_lookup_none sorted found, zero_mul, sub_zero]
  | some f => rw [valueAt_of_lookup sorted found]

/-- A pivot on an entry of the row is the pivot on the dense rows. -/
theorem pivot_spec (limits : Limits) (tidy : Tidy t) (entry : valueAt (t.rows.get r) e ≠ 0) :
    ∃ next within, t.pivot limits r e = .ok (next, within) ∧ Tidy next ∧
      dense next = (dense t).pivot r e := by
  obtain ⟨a, found⟩ : ∃ a, lookup (t.rows.get r) e = some a := by
    cases found : lookup (t.rows.get r) e with
    | none => exact absurd (valueAt_of_lookup_none (tidy.rows r) found) entry
    | some a => exact ⟨a, rfl⟩
  have value := valueAt_of_lookup (tidy.rows r) found
  have prow : Sorted ((t.rows.get r).map fun e => (e.1, e.2 / a)) := sorted_map (· / a) (tidy.rows r)
  have prow_value (j : Fin k) :
      valueAt ((t.rows.get r).map fun e => (e.1, e.2 / a)) j = valueAt (t.rows.get r) j / a :=
    valueAt_map (· / a) (fun x y => add_div x y a) (zero_div a) _
  rw [pivot, found]
  refine ⟨_, _, rfl, ⟨fun i => ?_, sorted_reduced tidy.obj prow⟩, ?_⟩
  · simp only [vector_get_ofFn]
    split
    · exact prow
    · exact sorted_reduced (tidy.rows i) prow
  · simp only [dense, Tableau.pivot, value, reducedValue_eq tidy.obj]
    congr 1
    · funext i j
      by_cases here : i = r
      · simp only [vector_get_ofFn, here, if_true, prow_value]
      · simp only [vector_get_ofFn, here, if_false, valueAt_reduced (tidy.rows i), prow_value]
    · funext i
      by_cases here : i = r
      · simp only [vector_get_ofFn, here, if_true]
      · simp only [vector_get_ofFn, here, if_false, reducedValue_eq (tidy.rows i)]
    · funext j
      rw [valueAt_reduced tidy.obj, prow_value]
    · funext i
      rw [vector_get_ofFn, Function.update_apply]

/-! ### The choice of the pivot -/

theorem entering_spec (tidy : Tidy t) (found : t.entering .bland = some e) : (dense t).Entering e := by
  rw [entering, Option.map_eq_some_iff] at found
  obtain ⟨⟨c, v⟩, found, rfl⟩ := found
  obtain ⟨negative, before, after, split, first⟩ := List.find?_eq_some_iff_append.mp found
  have mem : (c, v) ∈ t.obj := split ▸ List.mem_append_right _ List.mem_cons_self
  constructor
  · exact (valueAt_of_mem tidy.obj.nodup mem).trans_lt (by simpa using negative)
  · intro j less
    change 0 ≤ valueAt t.obj j
    cases there : lookup t.obj j with
    | none => exact (valueAt_of_lookup_none tidy.obj there).ge
    | some w =>
      rw [valueAt_of_lookup tidy.obj there]
      have listed := mem_of_lookup tidy.obj there
      have sorted := tidy.obj
      rw [split] at listed sorted
      rcases List.mem_append.mp listed with earlier | later
      · simpa using first _ earlier
      · -- the entries behind the first negative one have larger columns
        have tail := List.pairwise_cons.mp (List.pairwise_append.mp sorted).2.1
        rcases List.mem_cons.mp later with same | behind
        · exact absurd (congrArg Prod.fst same) less.ne
        · exact absurd (tail.1 _ behind) less.not_gt

theorem entering_none (tidy : Tidy t) (none_ : t.entering .bland = none) (j : Fin k) :
    0 ≤ (dense t).obj j := by
  rw [entering, Option.map_eq_none_iff, List.find?_eq_none] at none_
  change 0 ≤ valueAt t.obj j
  cases there : lookup t.obj j with
  | none => exact (valueAt_of_lookup_none tidy.obj there).ge
  | some w =>
    rw [valueAt_of_lookup tidy.obj there]
    simpa using none_ _ (mem_of_lookup tidy.obj there)

/-- The best of the rows seen so far. -/
def Best (t : SlotTableau n k) (e : Fin k) (seen : List (Fin n)) : Option (Fin n × ℚ) → Prop
  | none => ∀ i ∈ seen, (dense t).row i e ≤ 0
  | some (b, ratio) =>
    0 < (dense t).row b e ∧ ratio = (dense t).rhs b / (dense t).row b e ∧
      ∀ i ∈ seen, 0 < (dense t).row i e →
        ratio < (dense t).rhs i / (dense t).row i e ∨
          ratio = (dense t).rhs i / (dense t).row i e ∧ (dense t).basis b ≤ (dense t).basis i

theorem best_skip {seen : List (Fin n)} {best : Option (Fin n × ℚ)} {i : Fin n} (h : Best t e seen best)
    (skipped : (dense t).row i e ≤ 0) : Best t e (seen ++ [i]) best := by
  cases best with
  | none =>
    intro i' mem
    rcases List.mem_append.mp mem with before | here
    · exact h i' before
    · exact List.mem_singleton.mp here ▸ skipped
  | some best =>
    refine ⟨h.1, h.2.1, fun i' mem up => ?_⟩
    rcases List.mem_append.mp mem with before | here
    · exact h.2.2 i' before up
    · obtain rfl := List.mem_singleton.mp here
      exact absurd up skipped.not_gt

/-- A row with a positive entry is weighed against the best so far. -/
theorem best_weigh {seen : List (Fin n)} {best : Option (Fin n × ℚ)} {i : Fin n} {ratio : ℚ}
    (h : Best t e seen best) (up : 0 < (dense t).row i e)
    (value : ratio = (dense t).rhs i / (dense t).row i e) :
    Best t e (seen ++ [i]) (if t.better .bland i ratio best then some (i, ratio) else best) := by
  cases best with
  | none =>
    refine ⟨up, value, fun i' mem up' => ?_⟩
    rcases List.mem_append.mp mem with before | here
    · exact absurd up' (h i' before).not_gt
    · obtain rfl := List.mem_singleton.mp here
      exact .inr ⟨value, le_rfl⟩
  | some best =>
    obtain ⟨b, least⟩ := best
    obtain ⟨positive, least_eq, before⟩ := h
    by_cases better : t.better .bland i ratio (some (b, least)) = true
    · rw [if_pos better]
      simp only [SlotTableau.better, Bool.or_eq_true, Bool.and_eq_true, decide_eq_true_eq, and_true]
        at better
      refine ⟨up, value, fun i' mem up' => ?_⟩
      rcases List.mem_append.mp mem with earlier | here
      · rcases better with less | ⟨same, smaller⟩
        · rcases before i' earlier up' with below | ⟨tie, _⟩
          · exact .inl (less.trans below)
          · exact .inl (tie ▸ less)
        · rcases before i' earlier up' with below | ⟨tie, order⟩
          · exact .inl (same ▸ below)
          · exact .inr ⟨same.trans tie, (show (dense t).basis i < (dense t).basis b from smaller).le.trans order⟩
      · obtain rfl := List.mem_singleton.mp here
        exact .inr ⟨value, le_rfl⟩
    · rw [if_neg better]
      simp only [SlotTableau.better, Bool.or_eq_true, Bool.and_eq_true, decide_eq_true_eq, and_true,
        not_or, not_and, not_lt] at better
      refine ⟨positive, least_eq, fun i' mem up' => ?_⟩
      rcases List.mem_append.mp mem with earlier | here
      · exact before i' earlier up'
      · obtain rfl := List.mem_singleton.mp here
        rw [← value]
        exact better.1.lt_or_eq.imp_right fun same => ⟨same, better.2 same.symm⟩

theorem leaving_best (tidy : Tidy t) (rows seen : List (Fin n)) (best : Option (Fin n × ℚ))
    (h : Best t e seen best) :
    Best t e (seen ++ rows) (rows.foldl (fun (best : Option (Fin n × ℚ)) i =>
      match lookup (t.rows.get i) e with
      | none => best
      | some a =>
        if a ≤ 0 then best
        else if t.better .bland i (t.rhs.get i / a) best then some (i, t.rhs.get i / a)
        else best) best) := by
  induction rows generalizing seen best with
  | nil => rwa [List.append_nil]
  | cons i rows ih =>
    rw [List.foldl_cons, List.append_cons]
    refine ih _ _ ?_
    cases found : lookup (t.rows.get i) e with
    | none => exact best_skip h (valueAt_of_lookup_none (tidy.rows i) found).le
    | some a =>
      have value : (dense t).row i e = a := valueAt_of_lookup (tidy.rows i) found
      dsimp only
      split
      next down => exact best_skip h (value.trans_le down)
      next up =>
        exact best_weigh h (value ▸ not_le.mp up) (by rw [value]; rfl)

theorem leaving_fold (tidy : Tidy t) : ∃ best, Best t e (List.finRange n) best ∧
    t.leaving .bland e = best.map Prod.fst :=
  ⟨_, leaving_best tidy (List.finRange n) [] none (fun _ mem => (by cases mem)), rfl⟩

theorem leaving_spec (tidy : Tidy t) (found : t.leaving .bland e = some r) : (dense t).Leaving e r := by
  obtain ⟨best, h, same⟩ := leaving_fold (e := e) tidy
  rw [found] at same
  cases best with
  | none => cases same
  | some best =>
    obtain rfl := Option.some.inj same
    obtain ⟨positive, ratio, least⟩ := h
    refine ⟨positive, fun i up => ?_⟩
    rw [← ratio]
    exact least i (List.mem_finRange i) up

theorem leaving_none (tidy : Tidy t) (none_ : t.leaving .bland e = none) (i : Fin n) :
    (dense t).row i e ≤ 0 := by
  obtain ⟨best, h, same⟩ := leaving_fold (e := e) tidy
  rw [none_] at same
  cases best with
  | none => exact h i (List.mem_finRange i)
  | some best => cases same

/-! ### Runs -/

variable {stop : Nat → Bool}

theorem fits_of_unlimited (unlimited : limits.coefficient = none) (v : ℚ) :
    SlotBoundLp.fits limits v = true := by
  simp [SlotBoundLp.fits, unlimited]

theorem rowFits_of_unlimited (unlimited : limits.coefficient = none) (row : SparseRow k) :
    rowFits limits row = true := by
  simp [rowFits, fits_of_unlimited unlimited]

theorem within_of_unlimited (unlimited : limits.coefficient = none) {next : SlotTableau n k}
    {within : Bool} (pivoted : t.pivot limits r e = .ok (next, within)) : within = true := by
  rw [pivot] at pivoted
  cases found : lookup (t.rows.get r) e with
  | none =>
    rw [found] at pivoted
    cases pivoted
  | some a =>
    rw [found] at pivoted
    rw [← (Prod.mk.inj (Except.ok.inj pivoted)).2]
    simp [fits_of_unlimited unlimited, rowFits_of_unlimited unlimited]

/-- How a run from `t` has ended. -/
structure Ends (limits : Limits) (stop : Nat → Bool) (t : SlotTableau n k) (outcome : SimplexOutcome)
    (final : SlotTableau n k) : Prop where
  tidy : Tidy final
  canonical : (dense final).Canonical
  same : (dense t).Same (dense final)
  optimal : outcome = .optimal → ∀ j, 0 ≤ (dense final).obj j
  unbounded : outcome = .unbounded → ∃ e, (dense final).obj e < 0 ∧ ∀ i, (dense final).row i e ≤ 0
  worked : outcome = .workLimit → limits.work ≠ none
  grown : outcome = .coefficientLimit → limits.coefficient ≠ none
  polled : outcome = .stopped → ∃ poll, stop poll = true

/-- A round that pivots. -/
structure Pivots (t next : SlotTableau n k) : Prop where
  tidy : Tidy next
  step : (dense t).Step (dense next)

/-- What a round does, whatever fuel is left: it ends the run, or pivots by the smallest index. -/
inductive Round (limits : Limits) (stop : Nat → Bool) (t : SlotTableau n k) : Prop
  | ends (outcome : SimplexOutcome) (final : SlotTableau n k) (h : Ends limits stop t outcome final)
      (all : ∀ fuel, t.rounds limits .bland stop (fuel + 1) = some (.ok (outcome, final)))
  | pivots (next : SlotTableau n k) (h : Pivots t next)
      (all : ∀ fuel, t.rounds limits .bland stop (fuel + 1) = next.rounds limits .bland stop fuel)

theorem round (limits : Limits) (stop : Nat → Bool) (tidy : Tidy t)
    (canonical : (dense t).Canonical) : Round limits stop t := by
  have same := Tableau.Same.refl (dense t)
  cases enters : t.entering .bland with
  | none =>
    refine .ends .optimal t ⟨tidy, canonical, same, fun _ => entering_none tidy enters, nofun, nofun,
      nofun, nofun⟩ fun fuel => ?_
    rw [rounds, enters]
  | some e =>
    have entering := entering_spec tidy enters
    cases leaves : t.leaving .bland e with
    | none =>
      refine .ends .unbounded t ⟨tidy, canonical, same, nofun,
        fun _ => ⟨e, entering.1, leaving_none tidy leaves⟩, nofun, nofun, nofun⟩ fun fuel => ?_
      simp only [rounds, enters, leaves]
    | some r =>
      have leaving := leaving_spec tidy leaves
      by_cases worked : past limits.work (t.work + t.pivotWork r e) = true
      · refine .ends .workLimit t ⟨tidy, canonical, same, nofun, nofun, fun _ unlimited => ?_, nofun,
          nofun⟩ fun fuel => ?_
        · rw [unlimited] at worked
          cases worked
        · simp only [rounds, enters, leaves, worked, if_true]
      by_cases polled : stop t.pivots = true
      · refine .ends .stopped t ⟨tidy, canonical, same, nofun, nofun, nofun, nofun,
          fun _ => ⟨_, polled⟩⟩ fun fuel => ?_
        simp only [rounds, enters, leaves, worked, polled, if_true, if_false, Bool.false_eq_true]
      obtain ⟨next, within, pivoted, tidy', pivot⟩ :=
        pivot_spec limits tidy (r := r) (e := e) leaving.1.ne'
      have step : (dense t).Step (dense next) := ⟨e, r, entering, leaving, pivot⟩
      cases within with
      | true =>
        refine .pivots { next with pivots := t.pivots + 1, work := t.work + t.pivotWork r e }
          ⟨⟨tidy'.rows, tidy'.obj⟩, step⟩ fun fuel => ?_
        simp only [rounds, enters, leaves, worked, polled, pivoted, if_true, if_false, Bool.false_eq_true]
      | false =>
        refine .ends .coefficientLimit
          { next with pivots := t.pivots + 1, work := t.work + t.pivotWork r e }
          ⟨⟨tidy'.rows, tidy'.obj⟩, step.canonical canonical, step.same, nofun, nofun, nofun,
            fun _ unlimited => Bool.false_ne_true (within_of_unlimited unlimited pivoted), nofun⟩
          fun fuel => ?_
        simp only [rounds, enters, leaves, worked, polled, pivoted, if_false, Bool.false_eq_true]

theorem Ends.of_pivots {next final : SlotTableau n k} {outcome : SimplexOutcome}
    (first : Pivots t next) (h : Ends limits stop next outcome final) :
    Ends limits stop t outcome final :=
  { h with same := first.step.same.trans h.same }

/-- More fuel does not change how a run has ended. -/
theorem rounds_mono (tidy : Tidy t) (canonical : (dense t).Canonical) {fuel fuel' : Nat}
    (le : fuel ≤ fuel') {result : Except Thrown (SimplexOutcome × SlotTableau n k)}
    (ended : t.rounds limits .bland stop fuel = some result) :
    t.rounds limits .bland stop fuel' = some result := by
  induction fuel generalizing t fuel' with
  | zero => cases ended
  | succ fuel ih =>
    obtain ⟨more, rfl⟩ : ∃ more, fuel' = more + 1 := ⟨fuel' - 1, by omega⟩
    cases round limits stop tidy canonical with
    | ends outcome final _ all => rw [all, ← all fuel, ended]
    | pivots next h all =>
      rw [all] at ended ⊢
      exact ih h.tidy (h.step.canonical canonical) (Nat.le_of_succ_le_succ le) ended

theorem rounds_ends (tidy : Tidy t) (canonical : (dense t).Canonical) {fuel : Nat}
    {result : Except Thrown (SimplexOutcome × SlotTableau n k)}
    (ended : t.rounds limits .bland stop fuel = some result) :
    ∃ outcome final, result = .ok (outcome, final) ∧ Ends limits stop t outcome final := by
  induction fuel generalizing t with
  | zero => cases ended
  | succ fuel ih =>
    cases round limits stop tidy canonical with
    | ends outcome final h all =>
      rw [all] at ended
      exact ⟨outcome, final, (Option.some.inj ended).symm, h⟩
    | pivots next h all =>
      rw [all] at ended
      obtain ⟨outcome, final, same, ends⟩ := ih h.tidy (h.step.canonical canonical) ended
      exact ⟨outcome, final, same, .of_pivots h ends⟩

/-- A run comes to an end, whether there is a limit or not. -/
theorem exists_rounds (limits : Limits) (stop : Nat → Bool) (tidy : Tidy t)
    (canonical : (dense t).Canonical) :
    ∃ fuel result, t.rounds limits .bland stop fuel = some result := by
  by_contra never
  push Not at never
  let Endless : Type := { t : SlotTableau n k //
    Tidy t ∧ (dense t).Canonical ∧ ∀ fuel, t.rounds limits .bland stop fuel = none }
  have further (s : Endless) : ∃ s' : Endless, (dense s.1).Step (dense s'.1) := by
    obtain ⟨s, tidy, canonical, endless⟩ := s
    cases round limits stop tidy canonical with
    | ends outcome final _ all => cases (all 0).symm.trans (endless 1)
    | pivots next h all =>
      exact ⟨⟨next, h.tidy, h.step.canonical canonical, fun fuel => (all fuel).symm.trans (endless _)⟩,
        h.step⟩
  choose next step using further
  let start : Endless := ⟨t, tidy, canonical, fun fuel => Option.eq_none_iff_forall_ne_some.mpr (never fuel)⟩
  refine no_infinite_steps (f := fun m => dense (next^[m] start).1) canonical fun m => ?_
  rw [Function.iterate_succ_apply']
  exact step _

end Tableaux

end LibPetri.Verified
