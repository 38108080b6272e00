import LibPetri.Basis.Delimited
import LibPetri.Runtime.CompiledNet
import LibPetri.Verification.NameMarking

/-! # The canonical key of a name marking

The key is the text of the sorted signatures of the live symbols, column by column.  The signatures are read
back from it, and two markings have the same ones exactly when a permutation of the symbols leads from one to
the other.
-/

namespace LibPetri.Verified

open LibPetri.Basis LibPetri.Core LibPetri.Verification LibPetri.Verification.NameMarking

/-! ## The order of the signatures -/

theorem compareNumberArrays_eq_zero {a b : List Nat} : compareNumberArrays a b = 0 ↔ a = b := by
  fun_induction compareNumberArrays a b with
  | case1 a as b bs differ =>
    have : ¬a :: as = b :: bs := fun eq => differ (List.cons.inj eq).1
    simp only [this, iff_false]
    omega
  | case2 a as b bs same ih =>
    rw [ih]
    simp [not_not.mp same]
  | case3 as bs other =>
    cases as with
    | nil =>
      cases bs with
      | nil => simp
      | cons => simp; omega
    | cons a as =>
      cases bs with
      | nil => simp; omega
      | cons b bs => exact absurd rfl (other a as b bs rfl)

theorem compareNumberArrays_neg {a b : List Nat} : compareNumberArrays a b < 0 ↔ a < b := by
  fun_induction compareNumberArrays a b with
  | case1 a as b bs differ =>
    rw [List.cons_lt_cons_iff]
    omega
  | case2 a as b bs same ih =>
    rw [List.cons_lt_cons_iff, ih]
    simp [not_not.mp same]
  | case3 as bs other =>
    cases as with
    | nil =>
      cases bs with
      | nil => simp
      | cons b bs => simp; omega
    | cons a as =>
      cases bs with
      | nil => simp; omega
      | cons b bs => exact absurd rfl (other a as b bs rfl)

/-- Signatures first, and for equal ones the numbers of the symbols. -/
theorem ranks_iff (a b : List Nat × Sym) :
    (let c := compareNumberArrays a.1 b.1
    if c ≠ 0 then c else (a.2 : Int) - b.2) ≤ 0 ↔ toLex a ≤ toLex b := by
  rw [Prod.Lex.le_iff, ← compareNumberArrays_neg, ← compareNumberArrays_eq_zero]
  dsimp only [ofLex_toLex]
  by_cases same : compareNumberArrays a.1 b.1 = 0
  · rw [if_neg (not_not.mpr same)]
    simp [same]
  · rw [if_pos same]
    simp only [same, false_and, or_false]
    omega

variable {m m' : NameMarking} {order : List PlaceName}

theorem perm_ranked : (m.ranked order).Perm (m.liveSymbols.map fun s => (m.signature order s, s)) :=
  List.perm_insertionSort _ _

theorem pairwise_ranked : (m.ranked order).Pairwise fun a b => toLex a ≤ toLex b := by
  unfold ranked
  set r := fun a b : List Nat × Sym => (let c := compareNumberArrays a.1 b.1
    if c ≠ 0 then c else (a.2 : Int) - b.2) ≤ 0
  have total : Std.Total r := ⟨fun a b => by
    simp only [r, ranks_iff]
    exact le_total _ _⟩
  have trans : IsTrans _ r := ⟨fun a b c => by
    simp only [r, ranks_iff]
    exact le_trans⟩
  exact (List.pairwise_insertionSort r _).imp fun {a b} h => (ranks_iff a b).mp h

/-- The signatures of the live symbols in ascending order. -/
def signatures (m : NameMarking) (order : List PlaceName) : List (List Nat) :=
  (m.ranked order).map Prod.fst

theorem perm_signatures : (signatures m order).Perm (m.liveSymbols.map (m.signature order)) := by
  have := (@perm_ranked m order).map Prod.fst
  rwa [List.map_map] at this

theorem pairwise_signatures : (signatures m order).Pairwise (· ≤ ·) := by
  refine List.pairwise_map.mpr (pairwise_ranked.imp fun {a b} h => ?_)
  rcases Prod.Lex.le_iff.mp h with less | ⟨same, -⟩
  · exact le_of_lt less
  · exact le_of_eq same

theorem perm_symbols : ((m.ranked order).map Prod.snd).Perm m.liveSymbols := by
  have := (@perm_ranked m order).map Prod.snd
  rwa [List.map_map, show (Prod.snd ∘ fun s => (m.signature order s, s)) = id from rfl,
    List.map_id] at this

theorem nodup_liveSymbols : m.liveSymbols.Nodup := Runtime.CompiledNet.nodup_eraseDups _

theorem nodup_symbols : ((m.ranked order).map Prod.snd).Nodup :=
  perm_symbols.nodup_iff.mpr nodup_liveSymbols

/-- A symbol stands in the ranking with its signature. -/
theorem ranked_getElem {r : Nat} (h : r < (m.ranked order).length) :
    (m.ranked order)[r].1 = m.signature order (m.ranked order)[r].2 := by
  obtain ⟨s, -, eq⟩ := List.mem_map.mp (perm_ranked.mem_iff.mp (List.getElem_mem h))
  rw [← eq]

/-! ## The columns -/

/-- The counts at one place, with the ranks of the signatures they are in. -/
def countColumn (sigs : List (List Nat)) (i : Nat) : List (Nat × Nat) :=
  sigs.zipIdx.filterMap fun (sig, r) => if 0 < sig.getD i 0 then some (r, sig.getD i 0) else none

theorem mem_countColumn {sigs : List (List Nat)} {i r c : Nat} :
    (r, c) ∈ countColumn sigs i ↔ ∃ h : r < sigs.length, sigs[r].getD i 0 = c ∧ 0 < c := by
  unfold countColumn
  rw [List.mem_filterMap]
  constructor
  · rintro ⟨⟨sig, k⟩, mem, found⟩
    obtain ⟨h, eq⟩ := List.mem_zipIdx' mem
    dsimp only at found eq
    split at found
    next pos =>
      obtain ⟨rfl, rfl⟩ := Prod.mk.inj (Option.some.inj found)
      exact ⟨h, by rw [← eq], pos⟩
    next => cases found
  · rintro ⟨h, rfl, pos⟩
    refine ⟨(sigs[r], r), ?_, ?_⟩
    · exact List.mem_zipIdx_iff_getElem?.mpr (List.getElem?_eq_getElem h)
    · dsimp only
      rw [if_pos pos]

theorem pairwise_countColumn (sigs : List (List Nat)) (i : Nat) :
    (countColumn sigs i).Pairwise fun a b => a.1 < b.1 := by
  unfold countColumn
  rw [List.pairwise_filterMap]
  have ascending : sigs.zipIdx.Pairwise fun a b => a.2 < b.2 := by
    have := List.pairwise_lt_range' (s := 0) (n := sigs.length)
    rw [← List.zipIdx_map_snd 0 sigs] at this
    exact List.pairwise_map.mp this
  refine ascending.imp fun {a b} less x found y found' => ?_
  dsimp only at found found'
  split at found
  · split at found'
    · rw [← Option.some.inj found, ← Option.some.inj found']
      exact less
    · cases found'
  · cases found

theorem rankOf_getElem {r : Nat} (h : r < (m.ranked order).length) :
    m.rankOf order (m.ranked order)[r].2 = r := by
  have h' : r < ((m.ranked order).map Prod.snd).length := by rwa [List.length_map]
  have := (@nodup_symbols m order).idxOf_getElem r h'
  rwa [List.getElem_map] at this

theorem exists_rank {s : Sym} (live : s ∈ m.liveSymbols) :
    ∃ h : m.rankOf order s < (m.ranked order).length, (m.ranked order)[m.rankOf order s].2 = s := by
  have mem : s ∈ (m.ranked order).map Prod.snd := perm_symbols.mem_iff.mpr live
  have h := List.idxOf_lt_length_iff.mpr mem
  have eq := List.getElem_idxOf h
  rw [List.getElem_map] at eq
  rw [List.length_map] at h
  exact ⟨h, eq⟩

/-- The entries of a place are its column of the signatures. -/
theorem rankedEntries_eq {i : Nat} (h : i < order.length) :
    m.rankedEntries order order[i] = countColumn (signatures m order) i := by
  have count (s : Sym) : (m.signature order s).getD i 0 = m.countOf order[i] s := by
    simp [signature, h]
  have members (r c : Nat) : (r, c) ∈ m.rankedEntries order order[i] ↔
      (r, c) ∈ countColumn (signatures m order) i := by
    rw [rankedEntries, (List.perm_insertionSort _ _).mem_iff, List.mem_map, mem_countColumn]
    constructor
    · rintro ⟨⟨s, c⟩, entry, eq⟩
      obtain ⟨rfl, rfl⟩ := Prod.mk.inj eq
      obtain ⟨same, pos⟩ := mem_symbolCounts.mp entry
      obtain ⟨bound, at_⟩ := @exists_rank m order _ (mem_liveSymbols.mpr ⟨order[i], same ▸ pos⟩)
      refine ⟨by rwa [signatures, List.length_map], ?_, pos⟩
      simp only [signatures, List.getElem_map]
      rw [ranked_getElem bound, at_, count, same]
    · rintro ⟨bound, rfl, pos⟩
      have bound : r < (m.ranked order).length := by rwa [signatures, List.length_map] at bound
      simp only [signatures, List.getElem_map] at pos ⊢
      rw [ranked_getElem bound, count] at pos ⊢
      exact ⟨((m.ranked order)[r].2, _), mem_symbolCounts.mpr ⟨rfl, pos⟩, by rw [rankOf_getElem bound]⟩
  set le := fun a b : Nat × Nat => (if a.1 ≠ b.1 then (a.1 : Int) - b.1 else (a.2 : Int) - b.2) ≤ 0
    with le_def
  have le_iff (a b : Nat × Nat) : le a b ↔ toLex a ≤ toLex b := by
    rw [Prod.Lex.le_iff, le_def]
    dsimp only [ofLex_toLex]
    split <;> omega
  have total : Std.Total le := ⟨fun a b => by
    simp only [le_iff]
    exact le_total _ _⟩
  have trans : IsTrans _ le := ⟨fun a b c => by
    simp only [le_iff]
    exact le_trans⟩
  refine @List.Perm.eq_of_pairwise _ le _ _ ?_ ?_ ?_ ?_
  · intro a b _ _ ab ba
    exact toLex_inj.mp (le_antisymm ((le_iff a b).mp ab) ((le_iff b a).mp ba))
  · exact List.pairwise_insertionSort le _
  · refine (pairwise_countColumn _ i).imp fun {a b} less => (le_iff a b).mpr ?_
    exact Prod.Lex.le_iff.mpr (.inl less)
  · have nodup : (m.rankedEntries order order[i]).Nodup := by
      refine (List.perm_insertionSort _ _).nodup_iff.mpr ?_
      refine List.Nodup.map_on ?_ (List.Nodup.of_map _ (m.symbolCounts order[i]).nodup)
      rintro ⟨s, c⟩ mem ⟨s', c'⟩ mem' eq
      obtain ⟨rank, rfl⟩ := Prod.mk.inj eq
      obtain ⟨same, pos⟩ := mem_symbolCounts.mp mem
      obtain ⟨same', pos'⟩ := mem_symbolCounts.mp mem'
      obtain ⟨bound, at_⟩ := @exists_rank m order _ (mem_liveSymbols.mpr ⟨order[i], same ▸ pos⟩)
      obtain ⟨bound', at'⟩ := @exists_rank m order _ (mem_liveSymbols.mpr ⟨order[i], same' ▸ pos'⟩)
      have : s = s' := by
        rw [← at_, ← at']
        simp only [rank]
      rw [this]
    have nodup' : (countColumn (signatures m order) i).Nodup :=
      (pairwise_countColumn _ i).imp fun {a b} less eq => by
        rw [eq] at less
        exact less.false
    exact (List.perm_ext_iff_of_nodup nodup nodup').mpr fun ⟨r, c⟩ => members r c

/-! ## The text of the columns -/

/-- The characters of one entry. -/
def entryText (e : Nat × Nat) : List Char := Nat.toDigits 10 e.1 ++ 'x' :: Nat.toDigits 10 e.2

theorem mem_entryText {e : Nat × Nat} {c : Char} (mem : c ∈ entryText e) : c = 'x' ∨ c.isDigit = true := by
  rcases List.mem_append.mp mem with digit | mem
  · exact .inr (digit_ne digit)
  · rcases List.mem_cons.mp mem with eq | digit
    · exact .inl eq
    · exact .inr (digit_ne digit)

theorem entryText_injective : Function.Injective entryText := by
  intro a b same
  have digits (n : Nat) : ∀ c ∈ Nat.toDigits 10 n, c.isDigit = true := fun c mem => digit_ne mem
  obtain ⟨first, -, second⟩ := append_cons_inj (digits a.1) (by decide) (digits b.1) (by decide) same
  exact Prod.ext (toDigits_inj first) (toDigits_inj second)

/-- The characters between the braces. -/
def innerText (entries : List (Nat × Nat)) : List Char := [','].intercalate (entries.map entryText)

theorem innerText_injective : Function.Injective innerText := by
  intro es es' same
  have free (es : List (Nat × Nat)) : ∀ part ∈ es.map entryText, ',' ∉ part := by
    intro part mem comma
    obtain ⟨e, -, rfl⟩ := List.mem_map.mp mem
    rcases mem_entryText comma with eq | digit
    · exact absurd eq (by decide)
    · exact absurd digit (by decide)
  have some_ (es : List (Nat × Nat)) : ∀ part ∈ es.map entryText, part ≠ [] := by
    intro part mem
    obtain ⟨e, -, rfl⟩ := List.mem_map.mp mem
    exact List.append_ne_nil_of_right_ne_nil _ (List.cons_ne_nil _ _)
  exact entryText_injective.list_map
    (intercalate_inj_of_ne_nil (free es) (free es') (some_ es) (some_ es') same)

theorem not_mem_innerText (es : List (Nat × Nat)) : ∀ c ∈ innerText es, c ≠ '}' := by
  rintro c mem rfl
  unfold innerText at mem
  induction es with
  | nil => simp [List.intercalate] at mem
  | cons e es ih =>
    have entry : '}' ∉ entryText e := fun mem => by
      rcases mem_entryText mem with eq | digit
      · exact absurd eq (by decide)
      · exact absurd digit (by decide)
    cases es with
    | nil =>
      rw [List.map_singleton, List.intercalate_singleton] at mem
      exact entry mem
    | cons f es =>
      rw [List.map_cons, List.intercalate_cons_of_ne_nil (by simp), List.append_assoc] at mem
      rcases List.mem_append.mp mem with first | mem
      · exact entry first
      · rcases List.mem_append.mp mem with comma | rest
        · revert comma
          decide
        · exact ih rest

theorem toList_partText (p : PlaceName) (entries : List (Nat × Nat)) :
    (partText p entries).toList = p.toList ++ ':' :: '{' :: (innerText entries ++ ['}']) := by
  have entry (e : Nat × Nat) : (s!"{e.1}x{e.2}").toList = entryText e := by
    simp [ToString.toString, entryText]
  have inner : (",".intercalate (entries.map fun e => s!"{e.1}x{e.2}")).toList = innerText entries := by
    rw [String.toList_intercalate, List.map_map, innerText]
    congr 1
    exact List.map_congr_left fun e _ => entry e
  unfold partText
  simp only [String.toList_append, inner]
  simp

/-- The parts of a key are read back place by place. -/
theorem parts_inj {f g : PlaceName → List (Nat × Nat)} {places : List PlaceName}
    (same : "#".intercalate (places.map fun p => partText p (f p)) =
      "#".intercalate (places.map fun p => partText p (g p))) : ∀ p ∈ places, f p = g p := by
  replace same := congrArg String.toList same
  rw [String.toList_intercalate, String.toList_intercalate, List.map_map, List.map_map] at same
  have more (part next : List Char) (parts : List (List Char)) :
      "#".toList.intercalate (part :: next :: parts) =
        part ++ ("#".toList ++ "#".toList.intercalate (next :: parts)) := by
    rw [List.intercalate_cons_of_ne_nil (List.cons_ne_nil _ _), List.append_assoc]
  have part {p : PlaceName} {es es' : List (Nat × Nat)} {rest rest' : List Char}
      (same : (partText p es).toList ++ rest = (partText p es').toList ++ rest') :
      es = es' ∧ rest = rest' := by
    rw [toList_partText, toList_partText] at same
    simp only [List.append_assoc, List.cons_append, List.append_cancel_left_eq, List.cons.injEq,
      true_and, List.nil_append] at same
    obtain ⟨inner, -, behind⟩ := append_cons_inj (not_mem_innerText es) (fun h => h rfl)
      (not_mem_innerText es') (fun h => h rfl) same
    exact ⟨innerText_injective inner, behind⟩
  induction places with
  | nil => exact fun _ mem => (by cases mem)
  | cons p places ih =>
    cases places with
    | nil =>
      rw [List.map_singleton, List.map_singleton, List.intercalate_singleton,
        List.intercalate_singleton] at same
      have here := @part p _ _ [] [] (by simpa using same)
      intro q mem
      rw [List.mem_singleton.mp mem]
      exact here.1
    | cons q places =>
      simp only [List.map_cons, more] at same ih
      obtain ⟨here, behind⟩ := part same
      rintro r (- | ⟨-, mem⟩)
      · exact here
      · exact ih (List.append_cancel_left behind) r mem

/-! ## Equal keys -/

/-- The named places are coloured ones. -/
def Coloured (m : NameMarking) (order : List PlaceName) : Prop := ∀ p ∈ m.perPlace.keys, p ∈ order

theorem Coloured.mem (h : Coloured m order) {p : PlaceName} {s : Sym} (pos : 0 < m.countOf p s) :
    p ∈ order := by
  refine h p ?_
  by_contra absent
  have none_ := (m.perPlace.get?_eq_none_iff p).mpr absent
  simp [countOf, symbolCounts, none_] at pos

theorem length_of_mem {sig : List Nat} (mem : sig ∈ signatures m order) : sig.length = order.length := by
  obtain ⟨s, -, rfl⟩ := List.mem_map.mp (perm_signatures.mem_iff.mp mem)
  rw [signature, List.length_map]

/-- A live symbol stands in some coloured place. -/
theorem Coloured.exists_pos (h : Coloured m order) {sig : List Nat} (mem : sig ∈ signatures m order) :
    ∃ i < order.length, 0 < sig.getD i 0 := by
  obtain ⟨s, live, rfl⟩ := List.mem_map.mp (perm_signatures.mem_iff.mp mem)
  obtain ⟨p, pos⟩ := mem_liveSymbols.mp live
  obtain ⟨i, bound, rfl⟩ := List.getElem_of_mem (h.mem pos)
  exact ⟨i, bound, by simpa [signature, bound] using pos⟩

theorem signatures_eq_of_columns (h : Coloured m order) (h' : Coloured m' order)
    (columns : ∀ i < order.length, countColumn (signatures m order) i = countColumn (signatures m' order) i) :
    signatures m order = signatures m' order := by
  -- every row has an entry in some countColumn, so there are as many rows
  have rows {m m' : NameMarking} (h : Coloured m order)
      (columns : ∀ i < order.length, countColumn (signatures m order) i = countColumn (signatures m' order) i)
      {r : Nat} (bound : r < (signatures m order).length) : r < (signatures m' order).length := by
    obtain ⟨i, inside, pos⟩ := h.exists_pos (List.getElem_mem bound)
    have mem := mem_countColumn.mpr ⟨bound, rfl, pos⟩
    rw [columns i inside] at mem
    exact (mem_countColumn.mp mem).1
  have lengths : (signatures m order).length = (signatures m' order).length := by
    by_contra differ
    rcases Nat.lt_or_gt_of_ne differ with less | more
    · exact (rows h' (fun i inside => (columns i inside).symm) less).false
    · exact (rows h columns more).false
  refine List.ext_getElem lengths fun r bound bound' => ?_
  have wide := length_of_mem (List.getElem_mem bound)
  have wide' := length_of_mem (List.getElem_mem bound')
  refine List.ext_getElem (wide.trans wide'.symm) fun i inside inside' => ?_
  have entry {m m' : NameMarking} (bound : r < (signatures m order).length)
      (bound' : r < (signatures m' order).length)
      (same : countColumn (signatures m order) i = countColumn (signatures m' order) i)
      (pos : 0 < (signatures m order)[r].getD i 0) :
      (signatures m' order)[r].getD i 0 = (signatures m order)[r].getD i 0 := by
    have mem := mem_countColumn.mpr ⟨bound, rfl, pos⟩
    rw [same] at mem
    exact (mem_countColumn.mp mem).2.1
  have column_i := columns i (wide ▸ inside)
  have both : (signatures m order)[r].getD i 0 = (signatures m' order)[r].getD i 0 := by
    by_cases pos : 0 < (signatures m order)[r].getD i 0
    · exact (entry bound bound' column_i pos).symm
    · by_cases pos' : 0 < (signatures m' order)[r].getD i 0
      · exact entry bound' bound column_i.symm pos'
      · omega
  simpa [inside, inside'] using both

/-- The key is the text of the signatures. -/
theorem canonicalKey_eq_iff_signatures (h : Coloured m order) (h' : Coloured m' order) :
    m.canonicalKey order = m'.canonicalKey order ↔ signatures m order = signatures m' order := by
  constructor
  · intro same
    refine signatures_eq_of_columns h h' fun i inside => ?_
    have := parts_inj same order[i] (List.getElem_mem inside)
    rwa [rankedEntries_eq inside, rankedEntries_eq inside] at this
  · intro same
    unfold canonicalKey
    congr 1
    refine List.map_congr_left fun p mem => ?_
    obtain ⟨i, inside, rfl⟩ := List.getElem_of_mem mem
    rw [rankedEntries_eq inside, rankedEntries_eq inside, same]

/-- One marking is the other one with its symbols renamed. -/
def Renames (σ : Equiv.Perm Sym) (m m' : NameMarking) : Prop := ∀ p s, m'.countOf p (σ s) = m.countOf p s

theorem Renames.signatures_eq {σ : Equiv.Perm Sym} (h : Renames σ m m') :
    signatures m order = signatures m' order := by
  have live : m'.liveSymbols.Perm (m.liveSymbols.map σ) := by
    refine (List.perm_ext_iff_of_nodup nodup_liveSymbols
      (nodup_liveSymbols.map σ.injective)).mpr fun s => ?_
    rw [mem_liveSymbols, List.mem_map]
    constructor
    · rintro ⟨p, pos⟩
      refine ⟨σ.symm s, mem_liveSymbols.mpr ⟨p, ?_⟩, σ.apply_symm_apply s⟩
      rwa [← h p, σ.apply_symm_apply]
    · rintro ⟨s, mem, rfl⟩
      obtain ⟨p, pos⟩ := mem_liveSymbols.mp mem
      exact ⟨p, by rwa [h p]⟩
  have same (s : Sym) : m'.signature order (σ s) = m.signature order s :=
    List.map_congr_left fun p _ => h p s
  have perm : (signatures m order).Perm (signatures m' order) := by
    have renamed := live.map (m'.signature order)
    rw [List.map_map, show m'.signature order ∘ σ = m.signature order from funext same] at renamed
    exact perm_signatures.trans (renamed.symm.trans perm_signatures.symm)
  exact perm.eq_of_pairwise (fun a b _ _ ab ba => le_antisymm ab ba) pairwise_signatures
    pairwise_signatures

theorem exists_renames (h : Coloured m order) (h' : Coloured m' order)
    (same : signatures m order = signatures m' order) : ∃ σ, Renames σ m m' := by
  have lengths : (m.ranked order).length = (m'.ranked order).length := by
    have := congrArg List.length same
    rwa [signatures, signatures, List.length_map, List.length_map] at this
  set symbol := fun r : Fin (m.ranked order).length => (m.ranked order)[r].2
  set symbol' := fun r : Fin (m.ranked order).length => ((m'.ranked order).get (r.cast lengths)).2
  have distinct (m : NameMarking) {r r' : Nat} (bound : r < (m.ranked order).length)
      (bound' : r' < (m.ranked order).length)
      (eq : (m.ranked order)[r].2 = (m.ranked order)[r'].2) : r = r' := by
    rw [← rankOf_getElem bound, eq, rankOf_getElem bound']
  obtain ⟨σ, ranks⟩ := Equiv.Perm.exists_extending_pair symbol symbol'
    (fun r r' eq => Fin.ext (distinct m r.isLt r'.isLt eq))
    (fun r r' eq => Fin.ext (distinct m' (r.cast lengths).isLt (r'.cast lengths).isLt eq))
  refine ⟨σ, fun p s => ?_⟩
  have signed (r : Fin (m.ranked order).length) :
      m'.signature order (σ (symbol r)) = m.signature order (symbol r) := by
    have bound := r.isLt
    have bound' : r.val < (m'.ranked order).length := lengths ▸ bound
    have sig := List.getElem_of_eq same (i := r.val) (by rwa [signatures, List.length_map])
    simp only [signatures, List.getElem_map] at sig
    rw [ranked_getElem bound, ranked_getElem bound'] at sig
    rw [ranks r]
    exact sig.symm
  by_cases live : s ∈ m.liveSymbols
  · obtain ⟨bound, at_⟩ := @exists_rank m order _ live
    have eq := signed ⟨_, bound⟩
    have here : symbol ⟨_, bound⟩ = s := at_
    rw [here] at eq
    by_cases mem : p ∈ order
    · exact List.map_inj_left.mp eq p mem
    · have zero : m.countOf p s = 0 := Nat.eq_zero_of_not_pos fun pos => mem (h.mem pos)
      have zero' : m'.countOf p (σ s) = 0 := Nat.eq_zero_of_not_pos fun pos => mem (h'.mem pos)
      rw [zero, zero']
  · -- the permutation takes the live symbols to the live ones, so it takes no other to one
    have live' : σ s ∉ m'.liveSymbols := by
      intro mem
      obtain ⟨bound, at_⟩ := @exists_rank m' order _ mem
      set r : Fin (m.ranked order).length := ⟨_, lengths ▸ bound⟩
      have : σ (symbol r) = σ s := (ranks r).trans at_
      rw [← σ.injective this] at live
      exact live (perm_symbols.mem_iff.mp (List.mem_map_of_mem (List.getElem_mem r.isLt)))
    have zero : m.countOf p s = 0 :=
      Nat.eq_zero_of_not_pos fun pos => live (mem_liveSymbols.mpr ⟨p, pos⟩)
    have zero' : m'.countOf p (σ s) = 0 :=
      Nat.eq_zero_of_not_pos fun pos => live' (mem_liveSymbols.mpr ⟨p, pos⟩)
    rw [zero, zero']

/-- The tokens of a place. -/
def plainCount (m : NameMarking) (p : PlaceName) : Nat := (m.symbolCounts p).values.sum

theorem Renames.plainCount_eq {σ : Equiv.Perm Sym} (h : Renames σ m m') (p : PlaceName) :
    plainCount m p = plainCount m' p := by
  have perm : (m'.symbolCounts p).entries.Perm ((m.symbolCounts p).entries.map fun e => (σ e.1, e.2)) := by
    refine (List.perm_ext_iff_of_nodup (List.Nodup.of_map _ (m'.symbolCounts p).nodup) ?_).mpr ?_
    · refine (List.Nodup.of_map _ (m.symbolCounts p).nodup).map ?_
      exact fun a b eq => Prod.ext (σ.injective (Prod.mk.inj eq).1) (Prod.mk.inj eq).2
    · rintro ⟨s, c⟩
      rw [mem_symbolCounts, List.mem_map]
      constructor
      · rintro ⟨rfl, pos⟩
        have eq := h p (σ.symm s)
        rw [σ.apply_symm_apply] at eq
        refine ⟨(σ.symm s, m.countOf p (σ.symm s)), mem_symbolCounts.mpr ⟨rfl, eq ▸ pos⟩, ?_⟩
        rw [eq, σ.apply_symm_apply]
      · rintro ⟨⟨s, c⟩, entry, eq⟩
        obtain ⟨rfl, rfl⟩ := Prod.mk.inj eq
        obtain ⟨same, pos⟩ := mem_symbolCounts.mp entry
        exact ⟨(h p s).trans same, pos⟩
  have sums := (perm.map Prod.snd).sum_eq
  rw [List.map_map] at sums
  exact sums.symm

/-- Two markings of coloured places have one key exactly when a permutation of the symbols leads from one to
the other. -/
theorem canonicalKey_eq_iff {order : List PlaceName} {m m' : NameMarking} (h : Coloured m order)
    (h' : Coloured m' order) : m.canonicalKey order = m'.canonicalKey order ↔
      ∃ σ : Equiv.Perm Sym, Renames σ m m' ∧ ∀ p, plainCount m p = plainCount m' p := by
  rw [canonicalKey_eq_iff_signatures h h']
  constructor
  · intro same
    obtain ⟨σ, renames⟩ := exists_renames h h' same
    exact ⟨σ, renames, renames.plainCount_eq⟩
  · rintro ⟨σ, renames, -⟩
    exact renames.signatures_eq

/-- One symbol in two places and another one in the second. -/
def sharedName (shared other : Sym) : NameMarking :=
  ((NameMarking.empty.add "a" shared 1).add "b" shared 1).add "b" other 2

theorem canonicalKey_eq_iff_sharedName :
    (sharedName 0 1).canonicalKey ["a", "b"] = (sharedName 7 3).canonicalKey ["a", "b"] ↔
      ∃ σ : Equiv.Perm Sym, Renames σ (sharedName 0 1) (sharedName 7 3) ∧
        ∀ p, plainCount (sharedName 0 1) p = plainCount (sharedName 7 3) p :=
  canonicalKey_eq_iff (by unfold Coloured; decide +kernel) (by unfold Coloured; decide +kernel)

end LibPetri.Verified
