import LibPetri.Verification.BranchOutcomes
import LibPetri.Verification.MarkingState

/-! # Stubborn sets

At each class the reduced exploration expands the enabled transitions of one stubborn set only.  A
stubborn set holds an enabled transition, with it every transition that depends on it, and with a
disabled transition every transition that can make its first unsatisfied condition true.
-/

namespace LibPetri.Verification

open LibPetri.Basis LibPetri.Core LibPetri.Runtime

variable {V N : Type}

/-- A transition by its position in the net. -/
abbrev NetTransition (net : PetriNet V N) : Type := Fin net.transitions.length

def transitionAt {net : PetriNet V N} (t : NetTransition net) : Transition V N := net.transitions[t]

theorem transitionAt_mem {net : PetriNet V N} (t : NetTransition net) :
    transitionAt t ∈ net.transitions := List.getElem_mem _

/-- An enabling condition: an inhibitor needs its place empty. -/
structure Condition where
  place : PlaceName
  need : Nat
  inhibitor : Bool
  deriving DecidableEq, Repr

/-- `c.inhibitor ? have > 0 : have < c.need`. -/
def Condition.unsatisfied (counts : PlaceName → Nat) (c : Condition) : Bool :=
  if c.inhibitor then 0 < counts c.place else counts c.place < c.need

namespace StubbornSets

/-! ## Footprints -/

section Footprints

variable (t : Transition V N)

/-- The places the outcomes of `t` deposit into. -/
def increases : List PlaceName := (outcomes t).flatMap fun o => o.deposits.map Prod.fst

/-- Its inputs and resets. -/
def decreases : List PlaceName := t.inputSpecs.map In.place ++ t.resets

def tests : List PlaceName := t.inputSpecs.map In.place ++ t.reads ++ t.inhibitors

def writes : List PlaceName := decreases t ++ increases t

def drains : In → Bool
  | .one _ => false
  | .exactly _ _ => false
  | .all _ => true
  | .atLeast _ _ => true

def overwrites : List PlaceName := (t.inputSpecs.filter drains).map In.place ++ t.resets

/-- Its conditions: inputs and reads by place name, an input before a read, then inhibitors. -/
def conditions : List Condition :=
  let needs : List Condition :=
    (t.inputSpecs.map fun (spec : In) => ⟨spec.place, spec.requiredCount, false⟩) ++
      t.reads.map fun p => ⟨p, 1, false⟩
  needs.insertionSort (fun x y => x.place ≤ y.place) ++
    (t.inhibitors.insertionSort (· ≤ ·)).map fun p => ⟨p, 0, true⟩

/-- `t` and `u` are dependent: one writes what the other tests, or overwrites what the other writes. -/
def dependent (u : Transition V N) : Bool :=
  (writes t).any (· ∈ tests u) || (tests t).any (· ∈ writes u) ||
    (overwrites t).any (· ∈ writes u) || (writes t).any (· ∈ overwrites u)

end Footprints

variable (net : PetriNet V N)

variable {net} in
/-- Every other transition dependent with `i`. -/
def dependents (i : NetTransition net) : List (NetTransition net) :=
  (List.finRange _).filter fun j => j ≠ i ∧ dependent (transitionAt i) (transitionAt j)

/-- The transitions with an outcome that deposits into `place`. -/
def increasers (place : PlaceName) : List (NetTransition net) :=
  (List.finRange _).filter fun i => place ∈ increases (transitionAt i)

/-- The transitions with `place` among their inputs or resets. -/
def decreasers (place : PlaceName) : List (NetTransition net) :=
  (List.finRange _).filter fun i => place ∈ decreases (transitionAt i)

variable {net} (counts : PlaceName → Nat)

/-- The transitions that can satisfy the first unsatisfied condition of `i`, which is disabled. -/
def scapegoat (i : NetTransition net) : List (NetTransition net) :=
  match (conditions (transitionAt i)).find? (Condition.unsatisfied counts) with
  | none => []
  | some c => if c.inhibitor then decreasers net c.place else increasers net c.place

/-! ## Closures -/

/-- The members of a growing set, and those that wait to be processed. -/
structure Work (net : PetriNet V N) where
  inSet : List (NetTransition net)
  work : List (NetTransition net)

def push (w : Work net) (j : NetTransition net) : Work net :=
  if j ∈ w.inSet then w else ⟨j :: w.inSet, j :: w.work⟩

variable (isEnabled : NetTransition net → Bool)

/-- The closure of a set, as its enabled members, unless there are `bound` of them or more.  A
transition waits once, so there are no more turns than transitions. -/
def close (bound : Option Nat) : Nat → Work net → Nat → Option (List (NetTransition net))
  | _, ⟨inSet, []⟩, _ => some ((List.finRange _).filter fun i => i ∈ inSet ∧ isEnabled i)
  | 0, ⟨_, _ :: _⟩, _ => none
  | fuel + 1, ⟨inSet, i :: work⟩, enabledCount =>
    if isEnabled i then
      if bound.any (· ≤ enabledCount + 1) then none
      else close bound fuel ((dependents i).foldl push ⟨inSet, work⟩) (enabledCount + 1)
    else close bound fuel ((scapegoat counts i).foldl push ⟨inSet, work⟩) enabledCount

def closure (seed : NetTransition net) (bound : Option Nat) :
    Option (List (NetTransition net)) :=
  close counts isEnabled bound net.transitions.length ⟨[seed], [seed]⟩ 0

/-- The smallest closure over the seeds, the first of several. -/
def best : List (NetTransition net) → Option (List (NetTransition net)) →
    Option (List (NetTransition net))
  | [], best => best
  | seed :: seeds, found =>
    match closure counts isEnabled seed (found.map List.length) with
    | none => best seeds found
    | some set =>
      if found.all fun b => set.length < b.length then
        if set.length = 1 then some set else best seeds (some set)
      else best seeds found

/-- The enabled transitions to expand at `marking`. -/
def select (marking : MarkingState) (enabled : List (NetTransition net)) :
    List (NetTransition net) :=
  if enabled.length ≤ 1 then enabled
  else
    let seeds := enabled.insertionSort fun x y => (transitionAt x).name ≤ (transitionAt y).name
    let chosen := (best marking.tokens (fun i => i ∈ enabled) seeds none).getD []
    enabled.filter fun t => t ∈ chosen

theorem select_subset {marking : MarkingState} {enabled : List (NetTransition net)}
    {t : NetTransition net} (mem : t ∈ select marking enabled) : t ∈ enabled := by
  unfold select at mem
  split at mem
  · exact mem
  · exact List.mem_of_mem_filter mem

end StubbornSets

end LibPetri.Verification
