import LibPetri.Basis.OrderedMap
import LibPetri.Runtime.ExecutorSupport

/-! # The marking of the bitmap executor

Place name to FIFO queue.  A place that was drained stays in the map with an empty queue.
-/

namespace LibPetri.Runtime

open LibPetri.Basis LibPetri.Core

variable {V : Type}

/-- The index of the first token whose value satisfies the predicate, with the token. -/
def findFirst (predicate : V → Except Thrown Bool) :
    Nat → List (Token V) → Except Thrown (Option (Nat × Token V))
  | _, [] => .ok none
  | i, token :: rest => do
    if ← predicate token.value then pure (some (i, token)) else findFirst predicate (i + 1) rest

/-- The number of tokens whose values satisfy the predicate. -/
def countIf (predicate : V → Except Thrown Bool) : List (Token V) → Except Thrown Nat
  | [] => .ok 0
  | token :: rest => do
    let here ← predicate token.value
    let later ← countIf predicate rest
    pure (if here then later + 1 else later)

structure Marking (V : Type) where
  tokens : OrderedMap PlaceName (List (Token V))

namespace Marking

def empty : Marking V := ⟨OrderedMap.empty⟩

def peekTokens (m : Marking V) (place : PlaceName) : List (Token V) := (m.tokens.get? place).getD []

/-- `Marking.from`: each key of the map overwrites the queue of its name. -/
def ofInitial (initial : List (PlaceName × List (Token V))) : Marking V :=
  ⟨initial.foldl (fun tokens e => tokens.set e.1 e.2) OrderedMap.empty⟩

def addToken (m : Marking V) (place : PlaceName) (token : Token V) : Marking V :=
  ⟨m.tokens.set place (m.peekTokens place ++ [token])⟩

def removeFirst (m : Marking V) (place : PlaceName) : Option (Token V) × Marking V :=
  match m.peekTokens place with
  | [] => (none, m)
  | token :: rest => (some token, ⟨m.tokens.set place rest⟩)

def removeAll (m : Marking V) (place : PlaceName) : List (Token V) × Marking V :=
  match m.peekTokens place with
  | [] => ([], m)
  | tokens => (tokens, ⟨m.tokens.set place []⟩)

def removeFirstMatching (m : Marking V) (place : PlaceName) (predicate : V → Except Thrown Bool) :
    Except Thrown (Option (Nat × Token V)) × Marking V :=
  match findFirst predicate 0 (m.peekTokens place) with
  | .error e => (.error e, m)
  | .ok none => (.ok none, m)
  | .ok (some (i, token)) =>
    (.ok (some (i, token)), ⟨m.tokens.set place ((m.peekTokens place).eraseIdx i)⟩)

def countMatching (m : Marking V) (place : PlaceName) (predicate : V → Except Thrown Bool) :
    Except Thrown Nat := countIf predicate (m.peekTokens place)

/-- The non-empty places, by name. -/
def snapshot (m : Marking V) : List (PlaceName × List (Token V)) :=
  sortByName (m.tokens.entries.filter fun e => !e.2.isEmpty)

/-! ## Queues -/

@[simp] theorem peekTokens_set (tokens : OrderedMap PlaceName (List (Token V))) (p q : PlaceName)
    (queue : List (Token V)) :
    (Marking.mk (tokens.set p queue)).peekTokens q =
      if q = p then queue else (Marking.mk tokens).peekTokens q := by
  unfold peekTokens
  rw [OrderedMap.get?_set]
  split <;> rfl

@[simp] theorem peekTokens_addToken (m : Marking V) (p q : PlaceName) (token : Token V) :
    (m.addToken p token).peekTokens q =
      if q = p then m.peekTokens p ++ [token] else m.peekTokens q :=
  peekTokens_set _ _ _ _

end Marking

end LibPetri.Runtime
