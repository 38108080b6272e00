import LibPetri.Basis.Delimited
import LibPetri.Verified.SparseTableau

/-! # The presolve

What the presolve drops does not change the optimum: the kept places are closed under the places their
producers consume from, and a row that was dropped produces into none of them.
-/

namespace LibPetri.Verified

open LibPetri.Basis LibPetri.Core LibPetri.Verification LibPetri.Verification.SlotBoundLp
open LibPetri.Verification.SmtEncoder

variable {S : Type} {P : Nat}

/-! ## The upstream places -/

section Upstream

variable {columns : List (List (Fin P × Int))} {inU inU' : Fin P → Bool}

/-- A set that grows, and says so. -/
structure Enlarged (state state' : (Fin P → Bool) × Bool) : Prop where
  mono : ∀ p, state.1 p = true → state'.1 p = true
  still : state'.2 = false → state' = state
  news : state'.2 = true → state.2 = true ∨ ∃ p, state.1 p = false ∧ state'.1 p = true

theorem Enlarged.refl (state : (Fin P → Bool) × Bool) : Enlarged state state :=
  ⟨fun _ h => h, fun _ => rfl, .inl⟩

theorem Enlarged.trans {a b c : (Fin P → Bool) × Bool} (first : Enlarged a b) (second : Enlarged b c) :
    Enlarged a c where
  mono p h := second.mono p (first.mono p h)
  still quiet := by
    obtain rfl := second.still quiet
    exact first.still quiet
  news changed := by
    rcases second.news changed with before | ⟨p, out, into⟩
    · rcases first.news before with start | ⟨p, out, into⟩
      · exact .inl start
      · exact .inr ⟨p, out, second.mono p into⟩
    · refine .inr ⟨p, ?_, into⟩
      cases was : a.1 p with
      | false => rfl
      | true => exact (first.mono p was).symm.trans out

section Fold

variable {α : Type} {f : (Fin P → Bool) × Bool → α → (Fin P → Bool) × Bool}

theorem grown_foldl (grows : ∀ state a, Enlarged state (f state a)) (items : List α)
    (state : (Fin P → Bool) × Bool) : Enlarged state (items.foldl f state) := by
  induction items generalizing state with
  | nil => exact .refl state
  | cons a items ih => exact (grows state a).trans (ih _)

/-- Where nothing changed in the end, no item changed anything. -/
theorem still_foldl (grows : ∀ state a, Enlarged state (f state a)) (items : List α)
    (state : (Fin P → Bool) × Bool) (quiet : (items.foldl f state).2 = false) :
    ∀ a ∈ items, f state a = state := by
  induction items generalizing state with
  | nil => exact fun _ mem => (by cases mem)
  | cons a items ih =>
    have rest := (grown_foldl grows items (f state a)).still quiet
    have here : f state a = state := by
      refine (grows state a).still ?_
      rw [← rest]
      exact quiet
    intro b mem
    rcases List.mem_cons.mp mem with rfl | later
    · exact here
    · have := ih (f state a) quiet b later
      rwa [here] at this

end Fold

theorem grown_take (state : (Fin P → Bool) × Bool) (e : Fin P × Int) :
    Enlarged state (if e.2 < 0 ∧ state.1 e.1 = false then (Function.update state.1 e.1 true, true)
      else state) := by
  split
  next taken =>
    refine ⟨fun p inside => ?_, nofun, fun _ => .inr ⟨e.1, taken.2, Function.update_self ..⟩⟩
    by_cases here : p = e.1
    · rw [here]
      exact Function.update_self ..
    · exact (Function.update_of_ne here ..).trans inside
  next => exact .refl state

theorem takeUpstream_eq (state : (Fin P → Bool) × Bool) (col : List (Fin P × Int)) :
    takeUpstream state col = col.foldl (fun state e =>
      if e.2 < 0 ∧ state.1 e.1 = false then (Function.update state.1 e.1 true, true) else state)
        state := rfl

theorem grown_column (state : (Fin P → Bool) × Bool) (col : List (Fin P × Int)) :
    Enlarged state (if producesInto col state.1 then takeUpstream state col else state) := by
  split
  · rw [takeUpstream_eq]
    exact grown_foldl grown_take col state
  · exact .refl state

theorem upstreamPass_eq (columns : List (List (Fin P × Int))) (inU : Fin P → Bool) :
    upstreamPass columns inU = columns.foldl (fun state col =>
      if producesInto col state.1 then takeUpstream state col else state) (inU, false) := rfl

theorem grown_pass (columns : List (List (Fin P × Int))) (inU : Fin P → Bool) :
    Enlarged (inU, false) (upstreamPass columns inU) := by
  rw [upstreamPass_eq]
  exact grown_foldl grown_column columns _

/-- Every column that produces into the set consumes from the set only. -/
def UpstreamClosed (columns : List (List (Fin P × Int))) (inU : Fin P → Bool) : Prop :=
  ∀ col ∈ columns, producesInto col inU = true → ∀ e ∈ col, e.2 < 0 → inU e.1 = true

theorem closed_of_still (quiet : (upstreamPass columns inU).2 = false) : UpstreamClosed columns inU := by
  intro col mem produces e listed consumes
  rw [upstreamPass_eq] at quiet
  have column := still_foldl grown_column columns _ quiet col mem
  rw [if_pos produces, takeUpstream_eq] at column
  have entry := still_foldl grown_take col (inU, false) (congrArg Prod.snd column) e listed
  by_contra out
  rw [if_pos ⟨consumes, Bool.eq_false_of_not_eq_true out⟩] at entry
  cases congrArg Prod.snd entry

theorem upstream_spec {fuel : Nat} (found : upstream columns fuel inU = some inU') :
    (∀ p, inU p = true → inU' p = true) ∧ UpstreamClosed columns inU' := by
  induction fuel generalizing inU with
  | zero => cases found
  | succ fuel ih =>
    have grown := grown_pass columns inU
    rw [upstream] at found
    cases pass : upstreamPass columns inU with
    | mk next changed =>
      rw [pass] at found grown
      cases changed with
      | true =>
        obtain ⟨mono, closed⟩ := ih found
        exact ⟨fun p h => mono p (grown.mono p h), closed⟩
      | false =>
        obtain rfl := Option.some.inj found
        obtain rfl : next = inU := congrArg Prod.fst (grown.still rfl)
        exact ⟨fun _ h => h, closed_of_still (congrArg Prod.snd pass)⟩

/-- The passes come to an end: each but the last takes in a place. -/
theorem exists_upstream (columns : List (List (Fin P × Int))) (inU : Fin P → Bool) :
    ∃ fuel₀ inU', ∀ fuel ≥ fuel₀, upstream columns fuel inU = some inU' := by
  obtain ⟨left, count⟩ : ∃ left, (Finset.univ.filter fun p => inU p = false).card = left := ⟨_, rfl⟩
  induction left using Nat.strong_induction_on generalizing inU with
  | _ left ih =>
    have grown := grown_pass columns inU
    cases pass : upstreamPass columns inU with
    | mk next changed =>
      rw [pass] at grown
      cases changed with
      | false =>
        refine ⟨1, next, fun fuel enough => ?_⟩
        obtain ⟨fuel, rfl⟩ : ∃ k, fuel = k + 1 := ⟨fuel - 1, by omega⟩
        rw [upstream, pass]
      | true =>
        have fewer : (Finset.univ.filter fun p => next p = false).card < left := by
          rw [← count]
          refine Finset.card_lt_card (Finset.ssubset_iff_subset_ne.mpr ⟨fun p mem => ?_, fun same => ?_⟩)
          · rw [Finset.mem_filter] at mem ⊢
            refine ⟨mem.1, Bool.eq_false_of_not_eq_true fun inside => ?_⟩
            exact Bool.false_ne_true (mem.2.symm.trans (grown.mono p inside))
          · obtain ⟨p, out, into⟩ := (grown.news rfl).resolve_left Bool.false_ne_true
            have : p ∈ Finset.univ.filter fun p => next p = false :=
              same ▸ Finset.mem_filter.mpr ⟨Finset.mem_univ p, out⟩
            exact Bool.false_ne_true ((Finset.mem_filter.mp this).2.symm.trans into)
        obtain ⟨fuel₀, inU', ends⟩ := ih _ fewer next rfl
        refine ⟨fuel₀ + 1, inU', fun fuel enough => ?_⟩
        obtain ⟨fuel, rfl⟩ : ∃ k, fuel = k + 1 := ⟨fuel - 1, by omega⟩
        rw [upstream, pass]
        exact ends fuel (by omega)

end Upstream

/-! ## The kept rows -/

section Rows

variable {n : Nat}

def keyPart (e : Fin n × Int) : List Char := Nat.toDigits 10 e.1.val ++ ':' :: (Int.repr e.2).toList

theorem toList_rowKey (row : List (Fin n × Int)) :
    (rowKey row).toList = [','].intercalate (row.map keyPart) := by
  rw [rowKey, String.toList_intercalate, List.map_map]
  congr 1
  refine List.map_congr_left fun e _ => ?_
  simp [keyPart, toString, Nat.repr]

theorem comma_notMem_keyPart (e : Fin n × Int) : ',' ∉ keyPart e := by
  intro comma
  rw [keyPart, List.mem_append, List.mem_cons] at comma
  rcases comma with digit | colon | number
  · exact absurd (digit_ne digit) (by decide)
  · exact absurd colon (by decide)
  · rcases mem_repr number with sign | digit
    · exact absurd sign (by decide)
    · exact absurd digit (by decide)

theorem keyPart_injective : Function.Injective (keyPart (n := n)) := by
  intro e e' same
  have colon : ¬(':'.isDigit = true) := by decide
  obtain ⟨digits, -, number⟩ := append_cons_inj (P := fun c => c.isDigit = true) (fun _ => digit_ne) colon
    (fun _ => digit_ne) colon same
  exact Prod.ext (Fin.ext (toDigits_inj digits)) (repr_inj (String.toList_inj.mp number))

/-- Two rows with one key are the same. -/
theorem rowKey_injective : Function.Injective (rowKey (n := n)) := by
  intro row row' same
  have texts := congrArg String.toList same
  rw [toList_rowKey, toList_rowKey] at texts
  have free (row : List (Fin n × Int)) : ∀ part ∈ row.map keyPart, ',' ∉ part := by
    intro part mem
    obtain ⟨e, -, rfl⟩ := List.mem_map.mp mem
    exact comma_notMem_keyPart e
  have some_ (row : List (Fin n × Int)) : ∀ part ∈ row.map keyPart, part ≠ [] := by
    intro part mem
    obtain ⟨e, -, rfl⟩ := List.mem_map.mp mem
    exact List.append_ne_nil_of_right_ne_nil _ (List.cons_ne_nil _ _)
  exact keyPart_injective.list_map
    (intercalate_inj_of_ne_nil (free row) (free row') (some_ row) (some_ row') texts)

theorem mem_unseenRows {rows : List (List (Fin n × Int))} {seen : List String} {row : List (Fin n × Int)} :
    row ∈ unseenRows rows seen ↔ row ∈ rows ∧ rowKey row ∉ seen := by
  induction rows generalizing seen with
  | nil => simp [unseenRows]
  | cons first rows ih =>
    rw [unseenRows]
    split
    next old =>
      rw [ih, List.mem_cons]
      constructor
      · exact fun ⟨mem, new⟩ => ⟨.inr mem, new⟩
      · rintro ⟨rfl | mem, new⟩
        · exact absurd old new
        · exact ⟨mem, new⟩
    next fresh =>
      rw [List.mem_cons, ih, List.mem_cons, List.mem_cons, not_or]
      constructor
      · rintro (rfl | ⟨mem, _, new⟩)
        · exact ⟨.inl rfl, fresh⟩
        · exact ⟨.inr mem, new⟩
      · rintro ⟨same | mem, new⟩
        · exact .inl same
        · by_cases here : row = first
          · exact .inl here
          · exact .inr ⟨mem, fun same => here (rowKey_injective same), new⟩

/-! ### Listed values -/

section Listed

variable {α β K : Type} {keep : α → Prop} [DecidablePred keep] {g : α → β} {c : α → K} {items : List α}

theorem mem_listed {b : β} {v : K} :
    (b, v) ∈ items.filterMap (fun a => if keep a then some (g a, c a) else none) ↔
      ∃ a ∈ items, keep a ∧ g a = b ∧ c a = v := by
  rw [List.mem_filterMap]
  refine exists_congr fun a => and_congr_right fun _ => ?_
  constructor
  · intro found
    split at found
    next kept =>
      obtain ⟨rfl, rfl⟩ := Prod.mk.inj (Option.some.inj found)
      exact ⟨kept, rfl, rfl⟩
    next => cases found
  · rintro ⟨kept, rfl, rfl⟩
    exact if_pos kept

theorem nodup_listed (injective : Function.Injective g) (nodup : items.Nodup) :
    ((items.filterMap fun a => if keep a then some (g a, c a) else none).map Prod.fst).Nodup := by
  rw [List.map_filterMap]
  refine nodup.filterMap fun a a' b from_a from_a' => injective ?_
  have key {a : α} (listed : b ∈ (if keep a then some (g a, c a) else none).map Prod.fst) : g a = b := by
    split at listed
    · exact Option.some.inj listed
    · cases listed
  exact (key from_a).trans (key from_a').symm

theorem valueAt_listed [DecidableEq β] [AddCommMonoid K] (injective : Function.Injective g)
    (nodup : items.Nodup) {a : α} (mem : a ∈ items) (zero : ¬keep a → c a = 0) :
    valueAt (items.filterMap fun a => if keep a then some (g a, c a) else none) (g a) = c a := by
  by_cases kept : keep a
  · exact valueAt_of_mem (nodup_listed injective nodup) (mem_listed.mpr ⟨a, mem, kept, rfl, rfl⟩)
  · rw [zero kept]
    refine valueAt_of_absent fun e listed same => ?_
    obtain ⟨b, v⟩ := e
    obtain ⟨a', -, kept', here, -⟩ := mem_listed.mp listed
    exact kept (injective (here.trans same) ▸ kept')

end Listed

/-! ### Columns and their restrictions -/

theorem mem_columnOf {t : FlatTransition S P} {p : Fin P} {v : Int} :
    (p, v) ∈ columnOf t ↔ t.postVector p ≠ t.preVector p ∧
      (t.postVector p : ℤ) - t.preVector p = v := by
  rw [columnOf, mem_listed]
  exact ⟨fun ⟨_, _, differs, here, value⟩ => here ▸ ⟨differs, value⟩,
    fun ⟨differs, value⟩ => ⟨p, List.mem_finRange p, differs, rfl, value⟩⟩

theorem nodup_columnOf (t : FlatTransition S P) : ((columnOf t).map Prod.fst).Nodup :=
  nodup_listed Function.injective_id (List.nodup_finRange P)

theorem valueAt_columnOf (t : FlatTransition S P) (p : Fin P) :
    valueAt (columnOf t) p = (t.postVector p : ℤ) - t.preVector p := by
  refine valueAt_listed Function.injective_id (List.nodup_finRange P) (List.mem_finRange p) fun same => ?_
  rw [not_not.mp same, sub_self]

theorem producesInto_columnOf {t : FlatTransition S P} {inU : Fin P → Bool} :
    producesInto (columnOf t) inU = true ↔
      ∃ p, inU p = true ∧ 0 < (t.postVector p : ℤ) - t.preVector p := by
  simp only [producesInto, List.any_eq_true, Bool.and_eq_true, decide_eq_true_eq]
  constructor
  · rintro ⟨⟨p, v⟩, mem, up, inside⟩
    obtain ⟨-, rfl⟩ := mem_columnOf.mp mem
    exact ⟨p, inside, up⟩
  · rintro ⟨p, inside, up⟩
    exact ⟨(p, _), mem_columnOf.mpr ⟨by omega, rfl⟩, up, inside⟩

variable {places : List (Fin P)}

theorem finIdxOf_eq_some {α : Type} [DecidableEq α] {xs : List α} (nodup : xs.Nodup) {x : α}
    {i : Fin xs.length} : xs.finIdxOf? x = some i ↔ xs.get i = x := by
  rw [List.finIdxOf?_eq_some_iff]
  constructor
  · exact And.left
  · rintro rfl
    exact ⟨rfl, fun j before same => before.ne (Fin.ext (nodup.getElem_inj_iff.mp same))⟩

theorem valueAt_restricted (nodup : places.Nodup) (col : List (Fin P × Int)) (i : Fin places.length) :
    valueAt (restricted places col) i = valueAt col (places.get i) := by
  induction col with
  | nil => rfl
  | cons e col ih =>
    rw [restricted, List.filterMap_cons, valueAt_cons, ← ih]
    cases found : places.finIdxOf? e.1 with
    | none =>
      have apart : e.1 ≠ places.get i := fun same => by
        rw [(finIdxOf_eq_some nodup).mpr same.symm] at found
        cases found
      rw [Option.map_none, if_neg apart, zero_add, restricted]
    | some i' =>
      have here := (finIdxOf_eq_some nodup).mp found
      rw [Option.map_some, valueAt_cons, restricted, ← here]
      simp only [List.get_eq_getElem, nodup.getElem_inj_iff, Fin.ext_iff]

theorem nodup_restricted (nodup : places.Nodup) {col : List (Fin P × Int)}
    (once : (col.map Prod.fst).Nodup) : ((restricted places col).map Prod.fst).Nodup := by
  have keys : (restricted places col).map Prod.fst = (col.map Prod.fst).filterMap places.finIdxOf? := by
    rw [restricted, List.map_filterMap, List.filterMap_map]
    refine List.filterMap_congr fun e _ => ?_
    rw [Option.map_map]
    exact congrFun Option.map_id _
  rw [keys]
  refine once.filterMap fun p q i from_p from_q => ?_
  exact ((finIdxOf_eq_some nodup).mp from_p).symm.trans ((finIdxOf_eq_some nodup).mp from_q)

end Rows

/-! ## The program -/

section Program

variable {flatNet : FlatNet S} {isColoured : flatNet.Index → Bool}
  {program : Presolved flatNet.places.length}

/-- What the presolve keeps of a net: the coloured places and what lies upstream of them, and for every
transition that produces into them one row. -/
structure Keeps (flatNet : FlatNet S) (isColoured : flatNet.Index → Bool)
    (program : Presolved flatNet.places.length) : Prop where
  nodup : program.places.Nodup
  coloured : ∀ p, isColoured p = true → p ∈ program.places
  rows_nodup : ∀ row ∈ program.rows, (row.map Prod.fst).Nodup
  row_of : ∀ t, (∃ p ∈ program.places, 0 < column flatNet t p) →
    ∃ row ∈ program.rows, ∀ i, valueAt row i = column flatNet t (program.places.get i)
  of_row : ∀ row ∈ program.rows, ∃ t, (∃ p ∈ program.places, 0 < column flatNet t p) ∧
    ∀ i, valueAt row i = column flatNet t (program.places.get i)
  upstream : ∀ t, (∃ p ∈ program.places, 0 < column flatNet t p) →
    ∀ p, column flatNet t p < 0 → p ∈ program.places

theorem keeps_of_presolve {fuel : Nat} (found : presolve flatNet isColoured fuel = some program) :
    Keeps flatNet isColoured program := by
  obtain ⟨inU, upstreamed, rfl⟩ := Option.map_eq_some_iff.mp found
  obtain ⟨grown, closed⟩ := upstream_spec upstreamed
  have nodup : ((List.finRange _).filter inU).Nodup := (List.nodup_finRange _).filter _
  have inside {p : flatNet.Index} : p ∈ (List.finRange _).filter inU ↔ inU p = true := by simp
  have produces {t : flatNet.Position} (h : ∃ p ∈ (List.finRange _).filter inU, 0 < column flatNet t p) :
      producesInto (columnOf (flatNet.transition t)) inU = true := by
    obtain ⟨p, mem, up⟩ := h
    exact producesInto_columnOf.mpr ⟨p, inside.mp mem, up⟩
  have value (t : flatNet.Position) (i : Fin ((List.finRange _).filter inU).length) :
      valueAt (restricted _ (columnOf (flatNet.transition t))) i =
        column flatNet t (((List.finRange _).filter inU).get i) := by
    rw [valueAt_restricted nodup, valueAt_columnOf]
    rfl
  have kept {row : List (Fin ((List.finRange _).filter inU).length × Int)} :
      row ∈ unseenRows (((flatNet.transitions.map columnOf).filter fun col =>
        producesInto col inU).map (restricted ((List.finRange _).filter inU))) [] ↔
      ∃ t, producesInto (columnOf (flatNet.transition t)) inU = true ∧
        restricted _ (columnOf (flatNet.transition t)) = row := by
    rw [mem_unseenRows, List.mem_map]
    simp only [List.mem_filter, List.mem_map, List.not_mem_nil, not_false_eq_true, and_true]
    constructor
    · rintro ⟨_, ⟨⟨ft, mem, rfl⟩, produces⟩, rfl⟩
      obtain ⟨t, rfl⟩ := flatNet.mem_transitions.mp mem
      exact ⟨t, produces, rfl⟩
    · rintro ⟨t, produces, rfl⟩
      exact ⟨_, ⟨⟨_, flatNet.transition_mem t, rfl⟩, produces⟩, rfl⟩
  constructor
  · exact nodup
  · exact fun p coloured => inside.mpr (grown p coloured)
  · intro row mem
    obtain ⟨t, -, rfl⟩ := kept.mp mem
    exact nodup_restricted nodup (nodup_columnOf _)
  · exact fun t h => ⟨_, kept.mpr ⟨t, produces h, rfl⟩, value t⟩
  · intro row mem
    obtain ⟨t, into, rfl⟩ := kept.mp mem
    obtain ⟨p, inU_p, up⟩ := producesInto_columnOf.mp into
    exact ⟨t, ⟨p, inside.mpr inU_p, up⟩, value t⟩
  · intro t h p down
    refine inside.mpr (closed _ (List.mem_map_of_mem (flatNet.transition_mem t)) (produces h)
      (p, column flatNet t p) (mem_columnOf.mpr ⟨fun same => ?_, rfl⟩) down)
    rw [column, same, sub_self] at down
    exact down.false

/-! ### The tableau -/

open Simplex

variable {m0 : flatNet.Index → Nat}

/-- One on a coloured place. -/
def least (isColoured : flatNet.Index → Bool) (p : flatNet.Index) : ℚ := if isColoured p then 1 else 0

theorem valueAt_flatMap {α K : Type} {k : Nat} [AddCommMonoid K] (items : List α)
    (f : α → List (Fin k × K)) (j : Fin k) :
    valueAt (items.flatMap f) j = (items.map fun a => valueAt (f a) j).sum := by
  induction items with
  | nil => rfl
  | cons a items ih => rw [List.flatMap_cons, valueAt_append, ih, List.map_cons, List.sum_cons]

theorem sum_finRange_ite {m : Nat} (f : Fin m → ℚ) (j : Fin m) :
    ((List.finRange m).map fun j' => if j' = j then f j' else 0).sum = f j := by
  rw [← List.ofFn_eq_map, List.sum_ofFn, Finset.sum_ite_eq', if_pos (Finset.mem_univ j)]

/-- Entries that are all put into one column. -/
theorem valueAt_map_const {α : Type} {k : Nat} (items : List α) (f : α → ℚ) (c j : Fin k) :
    valueAt (items.map fun a => (c, f a)) j = if c = j then (items.map f).sum else 0 := by
  induction items with
  | nil => simp
  | cons a items ih =>
    rw [List.map_cons, valueAt_cons, ih, List.map_cons, List.sum_cons]
    split
    · rfl
    · exact add_zero 0

theorem sum_map_neg_cast (entries : List (Fin program.places.length × ℤ)) :
    (entries.map fun e => -(e.2 : ℚ)).sum = -(((entries.map Prod.snd).sum : ℤ) : ℚ) := by
  induction entries with
  | nil => simp
  | cons e entries ih =>
    rw [List.map_cons, List.sum_cons, ih, List.map_cons, List.sum_cons]
    push_cast
    ring

/-- A row of the tableau on the column of a kept row. -/
theorem row_castAdd (i : Fin program.places.length) (j : Fin program.rows.length) :
    (dense (program.tableau isColoured m0)).row i (j.castAdd program.places.length) =
      -((valueAt (program.rows.get j) i : ℤ) : ℚ) := by
  have slack : i.natAdd program.rows.length ≠ j.castAdd program.places.length := by
    rw [ne_eq, Fin.ext_iff, Fin.val_natAdd, Fin.val_castAdd]
    omega
  simp only [dense, Presolved.tableau, vector_get_ofFn, valueAt_append, valueAt_flatMap, valueAt_map_const,
    valueAt_cons, valueAt_nil, Fin.castAdd_inj, slack, if_false, add_zero, sum_finRange_ite,
    sum_map_neg_cast]
  rfl

theorem row_natAdd (i k : Fin program.places.length) :
    (dense (program.tableau isColoured m0)).row i (k.natAdd program.rows.length) =
      if i = k then 1 else 0 := by
  have apart (j : Fin program.rows.length) :
      j.castAdd program.places.length ≠ k.natAdd program.rows.length := by
    rw [ne_eq, Fin.ext_iff, Fin.val_natAdd, Fin.val_castAdd]
    omega
  simp only [dense, Presolved.tableau, vector_get_ofFn, valueAt_append, valueAt_flatMap, valueAt_map_const,
    valueAt_cons, valueAt_nil, apart, if_false, add_zero, Fin.natAdd_inj, List.map_const', List.sum_replicate,
    smul_zero, zero_add]

/-- What a kept row produces into the coloured places. -/
def produced (isColoured : flatNet.Index → Bool) (program : Presolved flatNet.places.length)
    (j : Fin program.rows.length) : ℤ :=
  (((program.rows.get j).filter fun e => isColoured (program.places.get e.1)).map Prod.snd).sum

theorem obj_castAdd (j : Fin program.rows.length) :
    (dense (program.tableau isColoured m0)).obj (j.castAdd program.places.length) =
      -(produced isColoured program j : ℚ) := by
  refine valueAt_listed (g := fun j : Fin program.rows.length => j.castAdd program.places.length)
    (c := fun j => -(produced isColoured program j : ℚ)) (Fin.castAdd_injective _ _)
    (List.nodup_finRange _) (List.mem_finRange j) fun none_ => ?_
  rw [produced, not_not.mp none_, Int.cast_zero, neg_zero]

theorem obj_natAdd (k : Fin program.places.length) :
    (dense (program.tableau isColoured m0)).obj (k.natAdd program.rows.length) = 0 := by
  refine valueAt_of_absent fun e mem same => ?_
  obtain ⟨c, v⟩ := e
  obtain ⟨j, -, -, rfl, -⟩ := mem_listed.mp mem
  rw [Fin.ext_iff, Fin.val_natAdd, Fin.val_castAdd] at same
  omega

theorem tidy_tableau (m0 : flatNet.Index → Nat) (keeps : Keeps flatNet isColoured program) :
    Tidy (program.tableau isColoured m0) := by
  constructor
  · intro i
    simp only [Presolved.tableau, vector_get_ofFn]
    refine List.pairwise_append.mpr ⟨List.pairwise_flatMap.mpr ⟨fun j _ => ?_, ?_⟩,
      List.pairwise_singleton _ _, fun e mem e' mem' => ?_⟩
    · -- a kept row has one entry at most at a place
      refine List.pairwise_map.mpr ?_
      have once : ((program.rows.get j).filter fun e => e.1 = i).Pairwise fun a b => a.1 ≠ b.1 :=
        List.pairwise_map.mp
          ((keeps.rows_nodup _ (List.get_mem program.rows j)).sublist (List.filter_sublist.map Prod.fst))
      refine once.imp_of_mem fun {a b} mem mem' apart => absurd ?_ apart
      have at_a := (List.mem_filter.mp mem).2
      have at_b := (List.mem_filter.mp mem').2
      exact (of_decide_eq_true at_a).trans (of_decide_eq_true at_b).symm
    · refine (List.pairwise_lt_finRange _).imp fun {j j'} less e mem e' mem' => ?_
      obtain ⟨_, -, rfl⟩ := List.mem_map.mp mem
      obtain ⟨_, -, rfl⟩ := List.mem_map.mp mem'
      exact less
    · obtain ⟨j, -, mem⟩ := List.mem_flatMap.mp mem
      obtain ⟨_, -, rfl⟩ := List.mem_map.mp mem
      obtain rfl := List.mem_singleton.mp mem'
      rw [Fin.lt_def, Fin.val_natAdd, Fin.val_castAdd]
      omega
  · refine (List.pairwise_lt_finRange _).filterMap _ fun j j' less e found e' found' => ?_
    dsimp only at found found'
    split at found
    · split at found'
      · obtain rfl := Option.some.inj found
        obtain rfl := Option.some.inj found'
        exact less
      · cases found'
    · cases found

theorem basis_tableau (k : Fin program.places.length) :
    (dense (program.tableau isColoured m0)).basis k = k.natAdd program.rows.length :=
  vector_get_ofFn _ k

theorem rhs_tableau (i : Fin program.places.length) :
    (dense (program.tableau isColoured m0)).rhs i = m0 (program.places.get i) :=
  vector_get_ofFn _ i

theorem canonical_tableau : (dense (program.tableau isColoured m0)).Canonical where
  unit i k := by rw [basis_tableau, row_natAdd]
  free k := by rw [basis_tableau, obj_natAdd]
  feasible i := by
    rw [rhs_tableau]
    exact Nat.cast_nonneg _

/-! ### The two programs -/

/-- A weighting of all places: at least one on the coloured places, and raised by no transition. -/
structure Covers (flatNet : FlatNet S) (isColoured : flatNet.Index → Bool) (y : flatNet.Index → ℚ) :
    Prop where
  nonneg : ∀ p, 0 ≤ y p
  coloured : ∀ p, isColoured p = true → 1 ≤ y p
  lowers : ∀ t, ∑ p, y p * (column flatNet t p : ℚ) ≤ 0

/-- The weighted tokens. -/
def coverValue (m0 : flatNet.Index → Nat) (y : flatNet.Index → ℚ) : ℚ := ∑ p, y p * (m0 p : ℚ)

/-- Sums over the kept places. -/
theorem sum_places (keeps : Keeps flatNet isColoured program) (f : flatNet.Index → ℚ) :
    ∑ i, f (program.places.get i) = ∑ p, if p ∈ program.places then f p else 0 := by
  rw [← Finset.sum_filter]
  have listed : Finset.univ.filter (fun p => p ∈ program.places) = program.places.toFinset := by
    ext p
    simp
  rw [listed, List.sum_toFinset f keeps.nodup, ← Fin.sum_univ_fun_getElem]
  rfl

theorem produced_eq (j : Fin program.rows.length) :
    (produced isColoured program j : ℚ) =
      ∑ i, least isColoured (program.places.get i) * ((valueAt (program.rows.get j) i : ℤ) : ℚ) := by
  rw [produced]
  induction program.rows.get j with
  | nil => simp
  | cons e row ih =>
    obtain ⟨q, v⟩ := e
    have first : ∑ i, least isColoured (program.places.get i) * (((if q = i then v else 0 : ℤ)) : ℚ) =
        least isColoured (program.places.get q) * (v : ℚ) := by
      rw [Finset.sum_eq_single q]
      · rw [if_pos rfl]
      · intro i _ apart
        rw [if_neg apart.symm, Int.cast_zero, mul_zero]
      · exact fun absent => absurd (Finset.mem_univ _) absent
    simp only [valueAt_cons, Int.cast_add, mul_add, Finset.sum_add_distrib, first, ← ih]
    rw [List.filter_cons, least]
    split
    · rw [List.map_cons, List.sum_cons, Int.cast_add, one_mul]
    · rw [zero_mul, zero_add]

/-- A solution of the dual program is a weighting of the kept places that no kept row raises. -/
theorem mem_dual_iff {π : Fin program.places.length → ℚ} :
    π ∈ (dense (program.tableau isColoured m0)).Dual ↔ (∀ i, 0 ≤ π i) ∧
      ∀ j : Fin program.rows.length, ∑ i, (π i + least isColoured (program.places.get i)) *
        ((valueAt (program.rows.get j) i : ℤ) : ℚ) ≤ 0 := by
  rw [Tableau.Dual, Set.mem_ofPred_eq, Fin.forall_fin_add, and_comm]
  refine and_congr (forall_congr' fun k => ?_) (forall_congr' fun j => ?_)
  · simp only [obj_natAdd, row_natAdd, mul_ite, mul_one, mul_zero, Finset.sum_ite_eq', Finset.mem_univ,
      if_true, zero_add]
  · simp only [obj_castAdd, row_castAdd, add_mul, Finset.sum_add_distrib, ← produced_eq, mul_neg,
      Finset.sum_neg_distrib]
    constructor <;> intro <;> linarith

theorem cost_tableau (π : Fin program.places.length → ℚ) :
    (dense (program.tableau isColoured m0)).cost π = ∑ i, π i * (m0 (program.places.get i) : ℚ) := by
  simp only [Tableau.cost, rhs_tableau]
  exact zero_add _

/-- The weighting of the kept places, extended by zero. -/
def extended (isColoured : flatNet.Index → Bool) (program : Presolved flatNet.places.length)
    (π : Fin program.places.length → ℚ) (p : flatNet.Index) : ℚ :=
  match program.places.finIdxOf? p with
  | none => 0
  | some i => π i + least isColoured p

theorem extended_get (keeps : Keeps flatNet isColoured program) (π : Fin program.places.length → ℚ)
    (i : Fin program.places.length) :
    extended isColoured program π (program.places.get i) =
      π i + least isColoured (program.places.get i) := by
  rw [extended, (finIdxOf_eq_some keeps.nodup).mpr rfl]

theorem extended_of_notMem {π : Fin program.places.length → ℚ} {p : flatNet.Index}
    (out : p ∉ program.places) : extended isColoured program π p = 0 := by
  rw [extended, List.finIdxOf?_eq_none_iff.mpr out]

/-- Sums against the extended weighting are sums over the kept places. -/
theorem sum_extended (keeps : Keeps flatNet isColoured program) (π : Fin program.places.length → ℚ)
    (f : flatNet.Index → ℚ) :
    ∑ p, extended isColoured program π p * f p =
      ∑ i, (π i + least isColoured (program.places.get i)) * f (program.places.get i) := by
  simp only [← extended_get keeps]
  rw [sum_places keeps fun p => extended isColoured program π p * f p]
  refine Finset.sum_congr rfl fun p _ => ?_
  split
  next => rfl
  next out => rw [extended_of_notMem out, zero_mul]

theorem least_nonneg (p : flatNet.Index) : 0 ≤ least isColoured p := by
  rw [least]
  split
  · exact zero_le_one
  · exact le_rfl

theorem extended_nonneg (keeps : Keeps flatNet isColoured program) {π : Fin program.places.length → ℚ}
    (nonneg : ∀ i, 0 ≤ π i) (p : flatNet.Index) : 0 ≤ extended isColoured program π p := by
  by_cases inside : p ∈ program.places
  · obtain ⟨i, rfl⟩ := List.get_of_mem inside
    rw [extended_get keeps]
    exact add_nonneg (nonneg i) (least_nonneg _)
  · rw [extended_of_notMem inside]

/-- A solution of the dual program covers the whole net. -/
theorem covers_of_dual (keeps : Keeps flatNet isColoured program) {π : Fin program.places.length → ℚ}
    (dual : π ∈ (dense (program.tableau isColoured m0)).Dual) :
    Covers flatNet isColoured (extended isColoured program π) := by
  obtain ⟨nonneg, lowers⟩ := mem_dual_iff.mp dual
  refine ⟨extended_nonneg keeps nonneg, fun p coloured => ?_, fun t => ?_⟩
  · obtain ⟨i, rfl⟩ := List.get_of_mem (keeps.coloured p coloured)
    rw [extended_get keeps, least, if_pos coloured]
    exact le_add_of_nonneg_left (nonneg i)
  · by_cases into : ∃ p ∈ program.places, 0 < column flatNet t p
    · obtain ⟨row, mem, value⟩ := keeps.row_of t into
      obtain ⟨j, rfl⟩ := List.get_of_mem mem
      rw [sum_extended keeps]
      simp only [← value]
      exact lowers j
    · -- the row was dropped: it produces into no kept place
      push Not at into
      refine Finset.sum_nonpos fun p _ => ?_
      by_cases inside : p ∈ program.places
      · exact mul_nonpos_of_nonneg_of_nonpos (extended_nonneg keeps nonneg p)
          (Int.cast_nonpos.mpr (into p inside))
      · rw [extended_of_notMem inside, zero_mul]

theorem value_of_dual (keeps : Keeps flatNet isColoured program) (π : Fin program.places.length → ℚ) :
    coverValue m0 (extended isColoured program π) =
      (dense (program.tableau isColoured m0)).cost π +
        ∑ i, least isColoured (program.places.get i) * (m0 (program.places.get i) : ℚ) := by
  rw [coverValue, sum_extended keeps π fun p => (m0 p : ℚ), cost_tableau]
  simp only [add_mul, Finset.sum_add_distrib]

/-- The excess of a cover over the coloured places is a solution of the dual program. -/
theorem dual_of_covers (keeps : Keeps flatNet isColoured program) {y : flatNet.Index → ℚ}
    (covers : Covers flatNet isColoured y) :
    (fun i => y (program.places.get i) - least isColoured (program.places.get i)) ∈
      (dense (program.tableau isColoured m0)).Dual := by
  refine mem_dual_iff.mpr ⟨fun i => sub_nonneg.mpr ?_, fun j => ?_⟩
  · rw [least]
    split
    next coloured => exact covers.coloured _ coloured
    next => exact covers.nonneg _
  · obtain ⟨t, into, value⟩ := keeps.of_row _ (List.get_mem program.rows j)
    simp only [sub_add_cancel, value]
    rw [sum_places keeps fun p => y p * (column flatNet t p : ℚ)]
    refine le_trans (Finset.sum_le_sum fun p _ => ?_) (covers.lowers t)
    split
    next => exact le_rfl
    next out =>
      -- a kept row consumes from kept places only
      have up : 0 ≤ column flatNet t p := not_lt.mp fun down => out (keeps.upstream t into p down)
      exact mul_nonneg (covers.nonneg p) (Int.cast_nonneg up)

theorem value_of_covers (m0 : flatNet.Index → Nat) (keeps : Keeps flatNet isColoured program) {y : flatNet.Index → ℚ}
    (covers : Covers flatNet isColoured y) :
    (dense (program.tableau isColoured m0)).cost (fun i =>
        y (program.places.get i) - least isColoured (program.places.get i)) +
      ∑ i, least isColoured (program.places.get i) * (m0 (program.places.get i) : ℚ) ≤
        coverValue m0 y := by
  rw [cost_tableau, ← Finset.sum_add_distrib]
  simp only [← add_mul, sub_add_cancel]
  rw [sum_places keeps fun p => y p * (m0 p : ℚ), coverValue]
  refine Finset.sum_le_sum fun p _ => ?_
  split
  · exact le_rfl
  · exact mul_nonneg (covers.nonneg p) (Nat.cast_nonneg _)

end Program

end LibPetri.Verified
