import Mathlib

/-! # Picking from a queue

The first elements of a queue that satisfy a test, taken out one after the other, with the place each of them
stood at when it was taken.
-/

namespace LibPetri.Basis

open List

variable {α : Type} (pick : α → Bool)

/-- The first `n` elements that satisfy the test, or all of them, each with its index at that time. -/
def picked : Nat → List α → List (Nat × α)
  | 0, _ => []
  | n + 1, queue =>
    match queue.find? pick with
    | none => []
    | some a => (queue.findIdx pick, a) :: picked n (queue.eraseP pick)

/-- What they leave behind. -/
def leftBy : Nat → List α → List α
  | 0, queue => queue
  | n + 1, queue => leftBy n (queue.eraseP pick)

variable {pick} {queue : List α} {a : α} {n : Nat}

theorem eraseIdx_findIdx : queue.eraseIdx (queue.findIdx pick) = queue.eraseP pick := by
  induction queue with
  | nil => rfl
  | cons a queue ih =>
    rw [findIdx_cons]
    cases here : pick a with
    | true => rw [eraseP_cons_of_pos here]; rfl
    | false =>
      rw [eraseP_cons_of_neg (by simp [here]), ← ih]
      rfl

/-- The element a search finds, in front of what is left without it. -/
theorem perm_cons_of_find? (found : queue.find? pick = some a) : queue.Perm (a :: queue.eraseP pick) := by
  induction queue with
  | nil => cases found
  | cons b queue ih =>
    cases here : pick b with
    | true =>
      rw [find?_cons_of_pos here, Option.some.injEq] at found
      rw [eraseP_cons_of_pos here, found]
    | false =>
      rw [find?_cons_of_neg (by simp [here])] at found
      rw [eraseP_cons_of_neg (by simp [here])]
      exact ((ih found).cons b).trans (Perm.swap a b _)

theorem eraseP_of_find?_eq_none (absent : queue.find? pick = none) : queue.eraseP pick = queue :=
  eraseP_of_forall_not fun a mem => by simpa using find?_eq_none.mp absent a mem

theorem leftBy_of_find?_eq_none (absent : queue.find? pick = none) (n : Nat) : leftBy pick n queue = queue := by
  induction n with
  | zero => rfl
  | succ n ih => rw [leftBy, eraseP_of_find?_eq_none absent, ih]

theorem countP_eraseP_of_find?_eq_some (found : queue.find? pick = some a) :
    queue.countP pick = (queue.eraseP pick).countP pick + 1 := by
  have perm := perm_cons_of_find? found
  rw [perm.countP_eq, countP_cons_of_pos (find?_some found)]

theorem leftBy_sublist (n : Nat) (queue : List α) : (leftBy pick n queue).Sublist queue := by
  induction n generalizing queue with
  | zero => exact Sublist.refl _
  | succ n ih => exact (ih _).trans eraseP_sublist

theorem length_picked (enough : n ≤ queue.countP pick) : (picked pick n queue).length = n := by
  induction n generalizing queue with
  | zero => rfl
  | succ n ih =>
    cases found : queue.find? pick with
    | none =>
      rw [countP_eq_zero.mpr fun a mem => by simpa using find?_eq_none.mp found a mem] at enough
      omega
    | some a =>
      have one := countP_eraseP_of_find?_eq_some found
      simp only [picked, found, length_cons]
      rw [ih (by omega)]

theorem pick_of_mem_picked {e : Nat × α} (mem : e ∈ picked pick n queue) : pick e.2 = true := by
  induction n generalizing queue with
  | zero => cases mem
  | succ n ih =>
    cases found : queue.find? pick with
    | none =>
      simp only [picked, found] at mem
      cases mem
    | some a =>
      simp only [picked, found] at mem
      cases mem with
      | head => exact find?_some found
      | tail _ mem => exact ih mem

theorem filter_eraseP (queue : List α) : (queue.eraseP pick).filter pick = (queue.filter pick).tail := by
  induction queue with
  | nil => rfl
  | cons a queue ih =>
    cases here : pick a with
    | true => rw [eraseP_cons_of_pos here, filter_cons_of_pos here, tail_cons]
    | false =>
      have skipped : ¬pick a = true := by simp [here]
      rw [eraseP_cons_of_neg skipped, filter_cons_of_neg skipped, filter_cons_of_neg skipped, ih]

/-- The first of those that satisfy the test. -/
theorem map_snd_picked (n : Nat) (queue : List α) : (picked pick n queue).map Prod.snd = (queue.filter pick).take n := by
  induction n generalizing queue with
  | zero => rw [take_zero]; rfl
  | succ n ih =>
    rw [picked]
    cases found : queue.find? pick with
    | none =>
      have nothing : queue.filter pick = [] := filter_eq_nil_iff.mpr fun a mem => find?_eq_none.mp found a mem
      rw [nothing, take_nil]
      rfl
    | some a =>
      have first : (queue.filter pick).head? = some a := by rw [head?_filter, found]
      obtain ⟨rest, split⟩ := head?_eq_some_iff.mp first
      rw [map_cons, ih, filter_eraseP, split, tail_cons, take_succ_cons]

/-- What is picked and what is left are all there was. -/
theorem picked_append_leftBy (n : Nat) (queue : List α) :
    ((picked pick n queue).map Prod.snd ++ leftBy pick n queue).Perm queue := by
  induction n generalizing queue with
  | zero => exact Perm.refl _
  | succ n ih =>
    cases found : queue.find? pick with
    | none =>
      simp only [picked, found, leftBy_of_find?_eq_none found]
      exact Perm.refl _
    | some a =>
      simp only [picked, found, leftBy, map_cons, cons_append]
      exact ((ih _).cons a).trans (perm_cons_of_find? found).symm

theorem countP_leftBy (n : Nat) (queue : List α) :
    (leftBy pick n queue).countP pick = queue.countP pick - n := by
  induction n generalizing queue with
  | zero => rfl
  | succ n ih =>
    rw [leftBy, ih]
    cases found : queue.find? pick with
    | none =>
      have none : queue.countP pick = 0 :=
        countP_eq_zero.mpr fun a mem => by simpa using find?_eq_none.mp found a mem
      rw [eraseP_of_find?_eq_none found, none]
      omega
    | some a =>
      have one := countP_eraseP_of_find?_eq_some found
      omega

/-- Without a test they are the oldest. -/
theorem picked_true (n : Nat) (queue : List α) :
    picked (fun _ => true) n queue = (queue.take n).map fun a => (0, a) := by
  induction n generalizing queue with
  | zero => simp [picked]
  | succ n ih =>
    cases queue with
    | nil => simp [picked]
    | cons a queue => simp [picked, ih, findIdx_cons]

theorem leftBy_true (n : Nat) (queue : List α) : leftBy (fun _ => true) n queue = queue.drop n := by
  induction n generalizing queue with
  | zero => rfl
  | succ n ih =>
    cases queue with
    | nil => simp [leftBy, ih]
    | cons a queue => simp [leftBy, ih]

end LibPetri.Basis
