import LibPetri.Verification.BranchOutcomes

/-! # Output checks

The two checks a transition's output specification passes when it is built: no branch names a place twice,
and no two branches claim the same places.  Neither enumerates the branches.
-/

namespace LibPetri.Verification

open LibPetri.Basis LibPetri.Core LibPetri.Runtime

/-! ## A place named twice -/

/-- Two leaves of one branch that name the same place. -/
structure BranchDuplicate where
  name : PlaceName
  first : PlaceName
  second : PlaceName
  deriving DecidableEq, Repr

/-- The leaves of one child join those of the children before it.  Under an `and` a name that is already
there is a duplicate. -/
def addLeaves (isAnd : Bool) : List (PlaceName × PlaceName) → OrderedMap PlaceName PlaceName →
    Except BranchDuplicate (OrderedMap PlaceName PlaceName)
  | [], leaves => .ok leaves
  | e :: found, leaves =>
    match leaves.get? e.1 with
    | some prior =>
      if isAnd then .error ⟨e.1, prior, e.2⟩ else addLeaves isAnd found leaves
    | none => addLeaves isAnd found (leaves.set e.1 e.2)

mutual

/-- The names of the leaves, each with the first leaf of that name, or a duplicate. -/
def findDuplicate (nameOf : PlaceName → PlaceName) :
    Out → Except BranchDuplicate (OrderedMap PlaceName PlaceName)
  | .place p => .ok (OrderedMap.empty.set (nameOf p) p)
  | .forwardInput _ target => .ok (OrderedMap.empty.set (nameOf target) target)
  | .timeout _ child => findDuplicate nameOf child
  | .xor children => findDuplicateAll nameOf false children OrderedMap.empty
  | .and children => findDuplicateAll nameOf true children OrderedMap.empty

def findDuplicateAll (nameOf : PlaceName → PlaceName) (isAnd : Bool) :
    List Out → OrderedMap PlaceName PlaceName →
      Except BranchDuplicate (OrderedMap PlaceName PlaceName)
  | [], leaves => .ok leaves
  | child :: children, leaves =>
    match findDuplicate nameOf child with
    | .error dup => .error dup
    | .ok found =>
      match addLeaves isAnd found.entries leaves with
      | .error dup => .error dup
      | .ok leaves => findDuplicateAll nameOf isAnd children leaves

end

def duplicateInBranch (out : Out) (nameOf : PlaceName → PlaceName) : Option BranchDuplicate :=
  match findDuplicate nameOf out with
  | .ok _ => none
  | .error dup => some dup

/-! ## The branches of a specification, by index -/

/-- `new Set(…)`. -/
def toSet (names : List PlaceName) : List PlaceName := mergeClaim [] names

/-- The remainder or quotient of a `bigint` by zero. -/
def divisionByZero : Thrown := .error "RangeError" "Division by zero"

mutual

/-- The number of branches. -/
def count : Out → Nat
  | .place _ => 1
  | .forwardInput _ _ => 1
  | .timeout _ child => count child
  | .xor children => countXor children
  | .and children => countAnd children

def countXor : List Out → Nat
  | [] => 0
  | c :: children => count c + countXor children

def countAnd : List Out → Nat
  | [] => 1
  | c :: children => count c * countAnd children

end

mutual

/-- Every place name any branch claims. -/
def universe_ : Out → List PlaceName
  | .place p => [p]
  | .forwardInput _ target => [target]
  | .timeout _ child => universe_ child
  | .xor children => universeAll children []
  | .and children => universeAll children []

def universeAll : List Out → List PlaceName → List PlaceName
  | [], u => u
  | c :: children, u => universeAll children (mergeClaim u (universe_ c))

end

mutual

/-- The place names of a branch, leaves left to right. -/
def decode : Out → Nat → Except Thrown (List PlaceName)
  | .place p, _ => .ok [p]
  | .forwardInput _ target, _ => .ok [target]
  | .timeout _ child, index => decode child index
  | .xor children, index => decodeXor children index
  | .and children, index =>
    match decodeAnd children index with
    | .error e => .error e
    | .ok (parts, _) => .ok parts

def decodeXor : List Out → Nat → Except Thrown (List PlaceName)
  | [], _ => .error (.error "Error" "branch index out of range")
  | c :: children, rest =>
    if rest < count c then decode c rest else decodeXor children (rest - count c)

/-- From the last child to the first, with what is left of the index. -/
def decodeAnd : List Out → Nat → Except Thrown (List PlaceName × Nat)
  | [], rest => .ok ([], rest)
  | c :: children, rest =>
    match decodeAnd children rest with
    | .error e => .error e
    | .ok (parts, rest) =>
      if count c = 0 then .error divisionByZero
      else
        match decode c (rest % count c) with
        | .error e => .error e
        | .ok part => .ok (part ++ parts, rest / count c)

end

/-- One part of a set for each child: a name goes to the first child that can claim it. -/
def splitAmong (children : List Out) (set : List PlaceName) : Option (List (List PlaceName)) :=
  set.foldlM (fun parts p =>
    (children.findIdx? fun c => p ∈ universe_ c).map fun k => parts.modify k (· ++ [p]))
    (children.map fun _ => [])

mutual

/-- The smallest index of a branch whose set is `set`. -/
def firstIndexOf : Out → List PlaceName → Option Nat
  | .place p, set => if set.length = 1 ∧ p ∈ set then some 0 else none
  | .forwardInput _ target, set => if set.length = 1 ∧ target ∈ set then some 0 else none
  | .timeout _ child, set => firstIndexOf child set
  | .xor children, set => firstIndexOfXor children set 0
  | .and children, set =>
    match splitAmong children set with
    | none => none
    | some parts => firstIndexOfAnd children parts 0

def firstIndexOfXor : List Out → List PlaceName → Nat → Option Nat
  | [], _, _ => none
  | c :: children, set, offset =>
    match firstIndexOf c set with
    | some idx => some (offset + idx)
    | none => firstIndexOfXor children set (offset + count c)

def firstIndexOfAnd : List Out → List (List PlaceName) → Nat → Option Nat
  | c :: children, part :: parts, index =>
    match firstIndexOf c part with
    | none => none
    | some idx => firstIndexOfAnd children parts (index * count c + idx)
  | _, _, index => some index

end

/-! ## Branches within a set of places -/

mutual

/-- Some branch claims no place. -/
def canBeEmpty : Out → Bool
  | .place _ => false
  | .forwardInput _ _ => false
  | .timeout _ child => canBeEmpty child
  | .xor children => canBeEmptySome children
  | .and children => canBeEmptyEvery children

def canBeEmptySome : List Out → Bool
  | [] => false
  | c :: children => canBeEmpty c || canBeEmptySome children

def canBeEmptyEvery : List Out → Bool
  | [] => true
  | c :: children => canBeEmpty c && canBeEmptyEvery children

end

mutual

/-- Some branch names only places in `within`. -/
def canStayWithin (within : List PlaceName) : Out → Bool
  | .place p => decide (p ∈ within)
  | .forwardInput _ target => decide (target ∈ within)
  | .timeout _ child => canStayWithin within child
  | .xor children => canStayWithinSome within children
  | .and children => canStayWithinEvery within children

def canStayWithinSome (within : List PlaceName) : List Out → Bool
  | [] => false
  | c :: children => canStayWithin within c || canStayWithinSome within children

def canStayWithinEvery (within : List PlaceName) : List Out → Bool
  | [] => true
  | c :: children => canStayWithin within c && canStayWithinEvery within children

end

mutual

/-- The branches whose places all lie in `within`, in index order, with their indices. -/
def branchesWithin (within : List PlaceName) : Out → List (Nat × List PlaceName)
  | .place p => if p ∈ within then [(0, [p])] else []
  | .forwardInput _ target => if target ∈ within then [(0, [target])] else []
  | .timeout _ child => branchesWithin within child
  | .xor children => branchesWithinXor within children 0
  | .and children => if canStayWithinEvery within children then productWithin within children else []

def branchesWithinXor (within : List PlaceName) : List Out → Nat → List (Nat × List PlaceName)
  | [], _ => []
  | c :: children, offset =>
    (branchesWithin within c).map (fun e => (offset + e.1, e.2)) ++
      branchesWithinXor within children (offset + count c)

def productWithin (within : List PlaceName) : List Out → List (Nat × List PlaceName)
  | [] => [(0, [])]
  | c :: children =>
    (branchesWithin within c).flatMap fun head =>
      (productWithin within children).map fun tail =>
        (head.1 * countAnd children + tail.1, head.2 ++ tail.2)

end

/-! ## Two branches that claim the same places -/

/-- The first of the branches up to `bound` that one of the rivals claims too. -/
def firstRivalled (rivals : List Out) (bound : Option Nat) :
    List (Nat × List PlaceName) → Option Nat
  | [] => none
  | e :: branches =>
    if bound.any (· < e.1) then none
    else if rivals.any fun r => (firstIndexOf r (toSet e.2)).isSome then some e.1
    else firstRivalled rivals bound branches

/-- The earlier alternatives that may claim what `child` claims. -/
def rivalsOf (earlier : List Out) (child : Out) : List Out :=
  earlier.filter fun e =>
    (universe_ e).any (fun p => p ∈ universe_ child) || (canBeEmpty child && canBeEmpty e)

/-- The smallest index, at most `bound`, of a branch of `child` that some earlier alternative claims
too. -/
def firstClaimedEarlier (earlier : List Out) (child : Out) (bound : Option Nat) : Option Nat :=
  let rivals := rivalsOf earlier child
  if rivals = [] then none
  else
    let within := rivals.foldl (fun within r => mergeClaim within (universe_ r)) []
    firstRivalled rivals bound (branchesWithin within child)

/-- `cross !== null && (own === null || cross <= own) ? cross : own`. -/
def earlierOf (cross own : Option Nat) : Option Nat :=
  match cross, own with
  | some cross, some own => if cross ≤ own then some cross else some own
  | some cross, none => some cross
  | none, own => own

mutual

/-- The first branch whose set an earlier branch also claims. -/
def firstCollision : Out → Option Nat
  | .place _ => none
  | .forwardInput _ _ => none
  | .timeout _ child => firstCollision child
  | .and children => (firstCollisionAnd children).1
  | .xor children => firstCollisionXor [] children 0

/-- From the last child to the first, with the stride of the child to come. -/
def firstCollisionAnd : List Out → Option Nat × Nat
  | [] => (none, 1)
  | c :: children =>
    match firstCollisionAnd children with
    | (some j, stride) => (some j, stride)
    | (none, stride) =>
      match firstCollision c with
      | some jc => (some (jc * stride), stride)
      | none => (none, stride * count c)

def firstCollisionXor (earlier : List Out) : List Out → Nat → Option Nat
  | [], _ => none
  | c :: children, offset =>
    let own := firstCollision c
    match earlierOf (firstClaimedEarlier earlier c own) own with
    | some first => some (offset + first)
    | none => firstCollisionXor (earlier ++ [c]) children (offset + count c)

end

/-- Two branches that claim the same set of places. -/
structure AmbiguousBranches where
  i : Nat
  j : Nat
  places : List PlaceName
  deriving DecidableEq, Repr

def ambiguousBranches (out : Out) : Except Thrown (Option AmbiguousBranches) :=
  match firstCollision out with
  | none => .ok none
  | some j =>
    match decode out j with
    | .error e => .error e
    | .ok set =>
      match firstIndexOf out (toSet set) with
      -- The source asserts that there is one; an index `null` would mix with a `bigint`.
      | none => .error (.error "TypeError" "Cannot mix BigInt and other types, use explicit conversions")
      | some i =>
        match decode out i with
        | .error e => .error e
        | .ok places => .ok (some ⟨i, j, places⟩)

end LibPetri.Verification
