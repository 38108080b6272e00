import Mathlib

/-! # FIFO queues with a minimum

Two stacks, each beside the stack of its running minima, so that the least element of the queue is
the lesser of two tops.  `toList` is the queue as a list, oldest element first; the operations are
specified by it.
-/

namespace LibPetri.Basis

variable {α : Type} [LinearOrder α]

/-- For every non-empty suffix of the stack, its least element. -/
def runningMin : List α → List α
  | [] => []
  | v :: rest =>
    match runningMin rest with
    | [] => [v]
    | m :: ms => min m v :: m :: ms

/-- The queue.  A stack is listed from its top. -/
structure MinQueue (α : Type) [LinearOrder α] where
  inStack : List α
  inMin : List α
  outStack : List α
  outMin : List α
  inMin_eq : inMin = runningMin inStack
  outMin_eq : outMin = runningMin outStack

/-! ## Running minima -/

theorem runningMin_tail (stack : List α) : runningMin stack.tail = (runningMin stack).tail := by
  cases stack with
  | nil => rfl
  | cons v rest =>
    rw [List.tail_cons, runningMin]
    split
    next h => rw [h]; rfl
    next m ms h => rw [h]; rfl

theorem runningMin_head (stack : List α) :
    stack.minimum = match (runningMin stack).head? with
      | some m => (m : WithTop α)
      | none => ⊤ := by
  induction stack with
  | nil => rfl
  | cons v rest ih =>
    rw [List.minimum_cons, ih, runningMin]
    rcases runningMin rest with _ | ⟨m, ms⟩
    · rfl
    · show Min.min (v : WithTop α) (m : WithTop α) = ((Min.min m v : α) : WithTop α)
      rw [WithTop.coe_min, min_comm]

namespace MinQueue

def empty : MinQueue α := ⟨[], [], [], [], rfl, rfl⟩

/-- The queue as a list, oldest element first. -/
def toList (q : MinQueue α) : List α := q.outStack ++ q.inStack.reverse

def size (q : MinQueue α) : Nat := q.inStack.length + q.outStack.length

def pushBack (q : MinQueue α) (v : α) : MinQueue α where
  inStack := v :: q.inStack
  inMin := match q.inMin with
    | [] => [v]
    | m :: ms => min m v :: m :: ms
  outStack := q.outStack
  outMin := q.outMin
  inMin_eq := by rw [runningMin, ← q.inMin_eq]
  outMin_eq := q.outMin_eq

/-- Moves the in-stack, element by element, onto the out-stack. -/
def refill : List α → List α → List α
  | [], out => out
  | v :: rest, out => refill rest (v :: out)

omit [LinearOrder α] in
theorem refill_eq (stack out : List α) : refill stack out = stack.reverse ++ out := by
  induction stack generalizing out with
  | nil => rfl
  | cons v rest ih => rw [refill, ih, List.reverse_cons, List.append_assoc, List.singleton_append]

def popFront (q : MinQueue α) : MinQueue α :=
  if q.outStack = [] then
    { inStack := [], inMin := []
      outStack := (refill q.inStack []).tail
      outMin := (runningMin (refill q.inStack [])).tail
      inMin_eq := rfl
      outMin_eq := (runningMin_tail _).symm }
  else
    { q with
      outStack := q.outStack.tail
      outMin := q.outMin.tail
      outMin_eq := by rw [runningMin_tail, q.outMin_eq] }

/-- The least element, or `⊤` when the queue is empty. -/
def min (q : MinQueue α) : WithTop α :=
  let a : WithTop α := match q.inMin.head? with
    | some m => m
    | none => ⊤
  let b : WithTop α := match q.outMin.head? with
    | some m => m
    | none => ⊤
  if a < b then a else b

/-! ## The queue as a list -/

@[simp] theorem toList_empty : (empty : MinQueue α).toList = [] := rfl

theorem size_eq (q : MinQueue α) : q.size = q.toList.length := by
  rw [size, toList, List.length_append, List.length_reverse, Nat.add_comm]

@[simp] theorem toList_pushBack (q : MinQueue α) (v : α) :
    (q.pushBack v).toList = q.toList ++ [v] := by
  simp [toList, pushBack]

@[simp] theorem toList_popFront (q : MinQueue α) : q.popFront.toList = q.toList.tail := by
  rw [popFront]
  split
  next h => simp [toList, h, refill_eq]
  next h => rw [toList, toList, List.tail_append_of_ne_nil h]

theorem min_eq (q : MinQueue α) : q.min = q.toList.minimum := by
  have ins := runningMin_head q.inStack
  have outs := runningMin_head q.outStack
  rw [← q.inMin_eq] at ins
  rw [← q.outMin_eq] at outs
  rw [min, ← ins, ← outs, toList, List.minimum_append, (List.reverse_perm _).minimum_eq]
  split
  next lt => exact (min_eq_right (le_of_lt lt)).symm
  next ge => exact (min_eq_left (not_lt.mp ge)).symm

end MinQueue

end LibPetri.Basis
