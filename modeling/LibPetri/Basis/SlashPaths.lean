import Mathlib

/-! # Paths written with slashes

A path is a list of segments, not empty, each of them neither empty nor with a slash in it.  Joined, it reads
back as it was; its parent drops the last segment; and two paths have a longest common beginning.
-/

namespace LibPetri.Basis

/-- The segments between the slashes. -/
def segments (text : String) : List String := (text.toList.splitOn '/').map String.ofList

/-- Segments with slashes between them. -/
def joined (path : List String) : String := "/".intercalate path

/-- A path: at least one segment, each with something in it and without a slash. -/
structure IsPath (path : List String) : Prop where
  ne_nil : path ≠ []
  filled : ∀ s ∈ path, s ≠ ""
  slashless : ∀ s ∈ path, '/' ∉ s.toList

section Paths

variable {path path' : List String}

theorem IsPath.take (h : IsPath path) {n : Nat} (pos : 0 < n) : IsPath (path.take n) where
  ne_nil := by
    obtain ⟨s, rest, rfl⟩ := List.exists_cons_of_ne_nil h.ne_nil
    rw [← Nat.succ_pred_eq_of_pos pos, List.take_succ_cons]
    exact List.cons_ne_nil _ _
  filled s mem := h.filled s (List.mem_of_mem_take mem)
  slashless s mem := h.slashless s (List.mem_of_mem_take mem)

theorem toList_joined (path : List String) :
    (joined path).toList = ['/'].intercalate (path.map String.toList) := by
  rw [joined, String.toList_intercalate]
  rfl

theorem segments_joined (h : IsPath path) : segments (joined path) = path := by
  have free : ∀ part ∈ path.map String.toList, '/' ∉ part := by
    intro part mem
    obtain ⟨s, smem, rfl⟩ := List.mem_map.mp mem
    exact h.slashless s smem
  rw [segments, toList_joined, List.splitOn_intercalate _ free (by simpa using h.ne_nil), List.map_map]
  exact (List.map_congr_left fun s _ => String.ofList_toList).trans (List.map_id _)

theorem joined_eq_iff (h : IsPath path) (h' : IsPath path') : joined path = joined path' ↔ path = path' := by
  refine ⟨fun same => ?_, congrArg joined⟩
  rw [← segments_joined h, same, segments_joined h']

theorem joined_singleton (s : String) : joined [s] = s := String.intercalate_singleton

theorem joined_concat (ne : path ≠ []) (s : String) : joined (path ++ [s]) = joined path ++ "/" ++ s := by
  rw [joined, String.intercalate_append_of_ne_nil ne (List.cons_ne_nil _ _), String.intercalate_singleton]
  rfl

theorem joined_ne_empty (h : IsPath path) : joined path ≠ "" := by
  obtain ⟨s, rest, rfl⟩ := List.exists_cons_of_ne_nil h.ne_nil
  have filled := h.filled s List.mem_cons_self
  intro empty
  cases rest with
  | nil =>
    rw [joined_singleton] at empty
    exact filled empty
  | cons t rest =>
    rw [joined, String.intercalate_cons_cons] at empty
    have := congrArg String.length empty
    simp [String.length_append] at this

end Paths

/-! ## The last slash -/

/-- Where a character stands for the last time. -/
def lastIndexOf (c : Char) : List Char → Option Nat
  | [] => none
  | a :: l =>
    match lastIndexOf c l with
    | some i => some (i + 1)
    | none => if a = c then some 0 else none

theorem lastIndexOf_absent {c : Char} {l : List Char} (absent : c ∉ l) : lastIndexOf c l = none := by
  induction l with
  | nil => rfl
  | cons a l ih =>
    rw [List.mem_cons, not_or] at absent
    rw [lastIndexOf, ih absent.2]
    exact if_neg fun same => absent.1 same.symm

theorem lastIndexOf_append {c : Char} (l : List Char) {rest : List Char} (absent : c ∉ rest) :
    lastIndexOf c (l ++ c :: rest) = some l.length := by
  induction l with
  | nil =>
    rw [List.nil_append, lastIndexOf, lastIndexOf_absent absent]
    exact if_pos rfl
  | cons a l ih =>
    rw [List.cons_append, lastIndexOf, ih]
    rfl

/-! ## Common beginnings -/

section Common

variable {α : Type} [DecidableEq α]

/-- The longest common beginning of two lists. -/
def commonBeginning : List α → List α → List α
  | a :: as, b :: bs => if a = b then a :: commonBeginning as bs else []
  | _, _ => []

theorem commonBeginning_prefix_left (l l' : List α) : commonBeginning l l' <+: l := by
  induction l generalizing l' with
  | nil => exact List.prefix_refl _
  | cons a l ih =>
    cases l' with
    | nil => exact List.nil_prefix
    | cons b l' =>
      rw [commonBeginning]
      split
      · exact List.cons_prefix_cons.mpr ⟨rfl, ih l'⟩
      · exact List.nil_prefix

theorem commonBeginning_prefix_right (l l' : List α) : commonBeginning l l' <+: l' := by
  induction l generalizing l' with
  | nil => exact List.nil_prefix
  | cons a l ih =>
    cases l' with
    | nil => exact List.nil_prefix
    | cons b l' =>
      rw [commonBeginning]
      split
      next same => exact List.cons_prefix_cons.mpr ⟨same, ih l'⟩
      next => exact List.nil_prefix

/-- It is the longest. -/
theorem prefix_commonBeginning {l l' beginning : List α} (left : beginning <+: l) (right : beginning <+: l') :
    beginning <+: commonBeginning l l' := by
  induction beginning generalizing l l' with
  | nil => exact List.nil_prefix
  | cons a beginning ih =>
    cases l with
    | nil => exact absurd (List.prefix_nil.mp left) (List.cons_ne_nil _ _)
    | cons b l =>
      cases l' with
      | nil => exact absurd (List.prefix_nil.mp right) (List.cons_ne_nil _ _)
      | cons c l' =>
        obtain ⟨same, left'⟩ := List.cons_prefix_cons.mp left
        obtain ⟨same', right'⟩ := List.cons_prefix_cons.mp right
        subst same same'
        rw [commonBeginning, if_pos rfl]
        exact List.cons_prefix_cons.mpr ⟨rfl, ih left' right'⟩

end Common

end LibPetri.Basis
