import Mathlib

/-! # Strongly connected components

One depth-first search that numbers the nodes as it meets them and keeps, for each, the lowest number it can
step back to.  A node that cannot step back below itself closes a component: everything above it on the stack.
-/

namespace LibPetri.Verification

variable {T : Type} [DecidableEq T]

/-- The variables of `computeSCCs`.  The stack has its top first, a component its members as they are added. -/
structure SccSearch (T : Type) where
  indexMap : T → Option Nat
  lowlink : T → Nat
  onStack : T → Bool
  stack : List T
  sccs : List (List T)
  index : Nat

def SccSearch.start : SccSearch T := ⟨fun _ => none, fun _ => 0, fun _ => false, [], [], 0⟩

/-- Numbers a node and pushes it. -/
def SccSearch.visit (s : SccSearch T) (v : T) : SccSearch T :=
  { s with
    indexMap := Function.update s.indexMap v (some s.index)
    lowlink := Function.update s.lowlink v s.index
    index := s.index + 1
    stack := v :: s.stack
    onStack := Function.update s.onStack v true }

/-- `lowlink.set(v, Math.min(lowlink.get(v), low))`. -/
def SccSearch.lower (s : SccSearch T) (v : T) (low : Nat) : SccSearch T :=
  { s with lowlink := Function.update s.lowlink v (min (s.lowlink v) low) }

/-- The stack down to a node, and what is left below it. -/
def popTo (v : T) : List T → List T × List T
  | [] => ([], [])
  | w :: stack => if w = v then ([w], stack) else (w :: (popTo v stack).1, (popTo v stack).2)

/-- Closes the component of a node that cannot step back below itself. -/
def SccSearch.close (s : SccSearch T) (v : T) : SccSearch T :=
  if some (s.lowlink v) = s.indexMap v then
    let (scc, rest) := popTo v s.stack
    { s with
      stack := rest
      onStack := fun w => if w ∈ scc then false else s.onStack w
      sccs := s.sccs ++ [scc] }
  else s

section Search

variable (successors : T → List T)

/-- One successor of `v`: a new one is searched first, one on the stack can be stepped back to. -/
def examine (connect : T → SccSearch T → Option (SccSearch T)) (v : T) (s : SccSearch T) (w : T) :
    Option (SccSearch T) :=
  match s.indexMap w with
  | none => do
    let s ← connect w s
    return s.lower v (s.lowlink w)
  | some i => if s.onStack w then some (s.lower v i) else some s

/-- The recursion, as deep as the fuel allows. -/
def strongConnect : Nat → T → SccSearch T → Option (SccSearch T)
  | 0, _, _ => none
  | fuel + 1, v, s => do
    let s ← (successors v).foldlM (examine (strongConnect fuel) v) (s.visit v)
    return s.close v

/-- Every node that no search has met yet starts one.  A recursion can be as deep as there are nodes. -/
def computeSCCs (nodes : List T) : Option (List (List T)) := do
  let s ← nodes.foldlM
    (fun s node => if (s.indexMap node).isSome then some s else strongConnect successors nodes.length node s)
    SccSearch.start
  return s.sccs

/-- The components with no edge to a node outside of them. -/
def findTerminalSCCs (nodes : List T) : Option (List (List T)) := do
  let allSCCs ← computeSCCs successors nodes
  return allSCCs.filter fun scc => scc.all fun node => (successors node).all fun succ => succ ∈ scc

end Search

end LibPetri.Verification
