import LibPetri.Runtime.ExecutorSupport

/-! # Branch outcomes

What one firing of a transition can deposit, for every analysis that expands an output specification.
An action writes one branch, a token per place.  An action timeout writes the places of the timeout
branch and nothing else, and a forwarded input moves one token per token the firing consumed.
-/

namespace LibPetri.Verification

open LibPetri.Basis LibPetri.Core LibPetri.Runtime

variable {V N : Type}

/-! ## Branches -/

def crossProduct (a b : List (List PlaceName)) : List (List PlaceName) :=
  a.flatMap fun setA => b.map (mergeClaim setA)

mutual

/-- The sets of places the branches of a specification name. -/
def enumerateBranches : Out → List (List PlaceName)
  | .place p => [[p]]
  | .forwardInput _ target => [[target]]
  | .and children => enumerateAnd children [[]]
  | .xor children => enumerateXor children
  | .timeout _ child => enumerateBranches child

def enumerateAnd : List Out → List (List PlaceName) → List (List PlaceName)
  | [], result => result
  | child :: children, result =>
    enumerateAnd children (crossProduct result (enumerateBranches child))

def enumerateXor : List Out → List (List PlaceName)
  | [] => []
  | child :: children => enumerateBranches child ++ enumerateXor children

end

/-! ## Outcomes -/

/-- The tokens an outcome deposits into a place: a fixed count, or as many as the firing drained from
an input. -/
inductive Deposit
  | tokens (count : Nat)
  | drained (source : PlaceName)
  deriving DecidableEq, Repr

/-- One way a firing can end: each place it deposits into, in code-point order. -/
structure Outcome where
  deposits : List (PlaceName × Deposit)
  nodup : (deposits.map Prod.fst).Nodup
  deriving DecidableEq

def makeOutcome (deposits : OrderedMap PlaceName Deposit) : Outcome where
  deposits := sortByName deposits.entries
  nodup := ((List.perm_insertionSort _ deposits.entries).map Prod.fst).nodup_iff.mpr deposits.nodup

def emptyOutcome : Outcome := makeOutcome OrderedMap.empty

/-- `deposit`, a drained one resolved by `drained`. -/
def depositCount (drained : PlaceName → Nat) : Deposit → Nat
  | .tokens count => count
  | .drained source => drained source

/-- The outcome of an action that writes the places of `branch`. -/
def branchOutcome (branch : List PlaceName) : Outcome :=
  makeOutcome (branch.foldl (fun deposits p => deposits.set p (.tokens 1)) OrderedMap.empty)

/-- What a timeout forward from `source` deposits.  A place that is no input forwards nothing. -/
def forwardDeposit (t : Transition V N) (source : PlaceName) : Deposit :=
  match t.inputSpecs.find? fun s => s.place = source with
  | none => .tokens 0
  | some (.one _) => .tokens 1
  | some (.exactly count _) => .tokens count
  | some (.all p) => .drained p
  | some (.atLeast _ p) => .drained p

mutual

/-- The deposits of a timeout branch.  No built transition has an `xor` there. -/
def timeoutDeposits (t : Transition V N) :
    Out → OrderedMap PlaceName Deposit → OrderedMap PlaceName Deposit
  | .place p, acc => acc.set p (.tokens 1)
  | .forwardInput source target, acc =>
    let deposit := forwardDeposit t source
    if deposit = .tokens 0 then acc else acc.set target deposit
  | .timeout _ child, acc => timeoutDeposits t child acc
  | .and children, acc => timeoutDepositsAll t children acc
  | .xor _, acc => acc

def timeoutDepositsAll (t : Transition V N) :
    List Out → OrderedMap PlaceName Deposit → OrderedMap PlaceName Deposit
  | [], acc => acc
  | child :: children, acc => timeoutDepositsAll t children (timeoutDeposits t child acc)

end

/-- The outcomes of an action: one for each branch. -/
def actionOutcomes (spec : Out) : List Outcome :=
  let branches := (enumerateBranches spec).map branchOutcome
  if branches = [] then [emptyOutcome] else branches

/-- The outcome of an action timeout. -/
def timeoutOutcome (t : Transition V N) (child : Out) : Outcome :=
  makeOutcome (timeoutDeposits t child OrderedMap.empty)

/-- The ways one firing of `t` can deposit: the branches of its action, then its timeout, if that is
none of them. -/
def outcomes (t : Transition V N) : List Outcome :=
  match t.outputSpec with
  | none => [emptyOutcome]
  | some spec =>
    match t.actionTimeout with
    | none => actionOutcomes spec
    | some (_, child) =>
      if timeoutOutcome t child ∈ actionOutcomes spec then actionOutcomes spec
      else actionOutcomes spec ++ [timeoutOutcome t child]

/-- Some timeout of the net forwards a drained input. -/
def drainedForward (net : PetriNet V N) : Bool :=
  net.transitions.any fun t => (outcomes t).any fun o => o.deposits.any fun d =>
    match d.2 with
    | .tokens _ => false
    | .drained _ => true

/-- A firing ends with its action or with its timeout. -/
theorem mem_outcomes {t : Transition V N} {spec : Out} (h : t.outputSpec = some spec)
    {o : Outcome} :
    o ∈ outcomes t ↔ o ∈ actionOutcomes spec ∨
      ∃ afterMs child, t.actionTimeout = some (afterMs, child) ∧ o = timeoutOutcome t child := by
  unfold outcomes
  rw [h]
  cases timed : t.actionTimeout with
  | none => simp
  | some timeout =>
    obtain ⟨afterMs, child⟩ := timeout
    simp only [Option.some.injEq, Prod.mk.injEq, ↓existsAndEq, true_and]
    split
    next known =>
      constructor
      · exact .inl
      · rintro (action | rfl)
        · exact action
        · exact known
    next => rw [List.mem_append, List.mem_singleton]

theorem actionOutcomes_ne_nil (spec : Out) : actionOutcomes spec ≠ [] := by
  unfold actionOutcomes
  dsimp only
  split
  · exact List.cons_ne_nil _ _
  · assumption

theorem outcomes_ne_nil (t : Transition V N) : outcomes t ≠ [] := by
  cases spec : t.outputSpec with
  | none => simp [outcomes, spec]
  | some spec' =>
    obtain ⟨o, mem⟩ := List.exists_mem_of_ne_nil _ (actionOutcomes_ne_nil spec')
    exact List.ne_nil_of_mem ((mem_outcomes spec).mpr (.inl mem))

end LibPetri.Verification
