import LibPetri.Basis.Bitset
import LibPetri.Verification.SmtEncoder

/-! # P-invariants

The incidence matrix of a flat net, the laws computed from it by elimination, and the exact re-check that
every law passes before it is used.
-/

namespace LibPetri.Verification

open LibPetri.Basis LibPetri.Core LibPetri.Runtime

variable {S : Type}

/-! ## The incidence matrix -/

/-- A matrix with a row for each transition: what it takes from each place and what it puts there. -/
structure IncidenceMatrix (P : Nat) where
  pre : List (Fin P → Nat)
  post : List (Fin P → Nat)
  /-- `incidence[t][p]`, the net effect of transition `t` on place `p`. -/
  incidence : List (Fin P → Int)

namespace IncidenceMatrix

variable {P : Nat} (matrix : IncidenceMatrix P)

def numTransitions : Nat := matrix.incidence.length

def numPlaces : Nat := P

/-- The matrix of a flat net.  Each injected place adds the column of a transition that only produces
into it. -/
def ofFlatNet (flatNet : FlatNet S) : IncidenceMatrix flatNet.places.length :=
  let injected := (AbstractReplayer.envInj flatNet).map Prod.fst
  let unit : flatNet.Index → flatNet.Index → Nat := fun idx p => if p = idx then 1 else 0
  { pre := flatNet.transitions.map FlatTransition.preVector ++ injected.map fun _ _ => 0
    post := flatNet.transitions.map FlatTransition.postVector ++ injected.map unit
    incidence := (flatNet.transitions.map fun ft p => (ft.postVector p - ft.preVector p : Int)) ++
      injected.map fun idx p => (unit idx p : Int) }

end IncidenceMatrix

namespace PInvariantComputer

/-- `Number.isSafeInteger`. -/
def isSafeInteger (q : ℚ) : Bool := q.isInt && q.num.natAbs ≤ 2 ^ 53 - 1

/-! ## Elimination -/

section Elimination

/-- A row of the augmented matrix: a place's entries of the transposed incidence matrix, and the weights that
combine the places to it. -/
structure AugmentedRow (P T : Nat) where
  ct : Fin T → Int
  identity : Fin P → Int

variable {P T : Nat}

/-- The greatest common divisor of the entries of a row. -/
def rowGcd (row : AugmentedRow P T) : Nat :=
  (List.finRange P).foldl (fun g i => g.gcd (row.identity i).natAbs)
    ((List.finRange T).foldl (fun g c => g.gcd (row.ct c).natAbs) 0)

/-- Divides a row by its greatest common divisor. -/
def normalizeRow (row : AugmentedRow P T) : AugmentedRow P T :=
  let g := rowGcd row
  if 1 < g then ⟨fun c => row.ct c / g, fun i => row.identity i / g⟩ else row

/-- Clears a column in every row but the pivot row. -/
def eliminate (rows : Fin P → AugmentedRow P T) (pivotRow : Fin P) (col : Fin T) :
    Fin P → AugmentedRow P T := fun row =>
  if row = pivotRow || (rows row).ct col = 0 then rows row
  else
    let a := (rows pivotRow).ct col
    let b := (rows row).ct col
    normalizeRow ⟨fun c => a * (rows row).ct c - b * (rows pivotRow).ct c,
      fun i => a * (rows row).identity i - b * (rows pivotRow).identity i⟩

/-- One column: its first entry from the pivot row down becomes the pivot. -/
def eliminateColumn (state : (Fin P → AugmentedRow P T) × Nat) (col : Fin T) :
    (Fin P → AugmentedRow P T) × Nat :=
  let (rows, pivotRow) := state
  if bound : pivotRow < P then
    match (List.finRange P).find? fun row => pivotRow ≤ row.val && (rows row).ct col ≠ 0 with
    | none => state
    | some pivot =>
      (eliminate (rows ∘ Equiv.swap ⟨pivotRow, bound⟩ pivot) ⟨pivotRow, bound⟩ col, pivotRow + 1)
  else state

/-- The augmented matrix, reduced column by column. -/
def reduced (incidence : Fin T → Fin P → Int) : Fin P → AugmentedRow P T :=
  ((List.finRange T).foldl eliminateColumn
    ((fun i => ⟨fun c => incidence c i, fun j => if j = i then 1 else 0⟩), 0)).1

end Elimination

section Invariants

variable (flatNet : FlatNet S) (matrix : IncidenceMatrix flatNet.places.length)
  (initialMarking : MarkingState)

/-- The law of a vector of weights. -/
def pInvariant (weights : flatNet.Index → Int) : PInvariant flatNet.places.length :=
  let support := (List.finRange _).filter fun p => weights p ≠ 0
  ⟨weights, (support.map fun p => weights p * initialMarking.tokens (flatNet.placeAt p)).sum, support⟩

/-- The law of a row whose entries have been eliminated.  A row of weights outside the safe integers is left
as it is, any other one is turned so that not all its weights are negative. -/
def lawOf (row : AugmentedRow flatNet.places.length matrix.numTransitions) :
    Option (PInvariant flatNet.places.length) :=
  if (List.finRange _).any fun c => row.ct c ≠ 0 then none
  else if (List.finRange _).any fun p => !isSafeInteger (row.identity p) then
    some (pInvariant flatNet initialMarking row.identity)
  else
    let hasPositive := (List.finRange _).any fun p => 0 < row.identity p
    let hasNegative := (List.finRange _).any fun p => row.identity p < 0
    if !hasPositive && !hasNegative then none
    else some (pInvariant flatNet initialMarking
      (if hasPositive then row.identity else fun p => -row.identity p))

/-- The laws of the net: the rows that elimination clears. -/
def computePInvariants : List (PInvariant flatNet.places.length) :=
  if flatNet.places.length = 0 || matrix.numTransitions = 0 then []
  else
    let rows := reduced fun t p => matrix.incidence[t] p
    (List.finRange _).filterMap fun row => lawOf flatNet matrix initialMarking (rows row)

end Invariants

/-! ## Semiflows -/

section Semiflows

/-- A generator: a weighting and what each transition changes of it. -/
structure SemiflowRow (P T : Nat) where
  sig : Fin T → Int
  weight : Fin P → Int

/-- The caps of the enumeration, and the integers that the arithmetic holds exactly. -/
structure Limits where
  maxSemiflowRows : Nat
  maxSemiflowCandidates : Nat
  isSafe : Int → Bool

/-- The limits of the implementation, whose numbers are doubles. -/
def doubleLimits : Limits := ⟨8192, 65536, fun v => isSafeInteger v⟩

variable {P T : Nat}

/-- Divides a generator by the greatest common divisor of its entries. -/
def reduceGcd (row : SemiflowRow P T) : SemiflowRow P T :=
  let g : Nat := (List.finRange P).foldl (fun g p => g.gcd (row.weight p).natAbs)
    ((List.finRange T).foldl (fun g t => g.gcd (row.sig t).natAbs) 0)
  if 1 < g then ⟨fun t => row.sig t / g, fun p => row.weight p / g⟩ else row

/-- `cp·a + cn·b`, the generator dropped where an entry is not held exactly. -/
def combineRow (isSafe : Int → Bool) (cp : Int) (a : SemiflowRow P T) (cn : Int)
    (b : SemiflowRow P T) : Option (SemiflowRow P T) :=
  let combined : SemiflowRow P T :=
    ⟨fun t => cp * a.sig t + cn * b.sig t, fun p => cp * a.weight p + cn * b.weight p⟩
  if (List.finRange T).all (fun t => isSafe (combined.sig t)) &&
      (List.finRange P).all fun p => isSafe (combined.weight p) then some (reduceGcd combined)
  else none

/-! ### The sweep for minimal supports -/

/-- The support of a generator, a bit for each place. -/
def supportBits (row : SemiflowRow P T) : Bitset P :=
  (List.finRange P).foldl (fun bits p => if row.weight p ≠ 0 then bits.setBit p else bits) Bitset.empty

def supportSize (row : SemiflowRow P T) : Nat :=
  (List.finRange P).countP fun p => row.weight p ≠ 0

/-- No word of `a` has a bit that `b` lacks. -/
def subsetBits (a b : Bitset P) : Bool :=
  (List.range (wordCount P)).all fun w => a.word w &&& ~~~b.word w = 0#32

/-- The generators whose support holds no strictly smaller one.  They are visited by ascending support
size, each compared with those before it until the sizes are equal. -/
def keepSupportMinimal (rows : List (SemiflowRow P T)) : List (SemiflowRow P T) :=
  if rows.length < 2 then rows
  else
    let bits := rows.map supportBits
    let sizes := rows.map supportSize
    let size := fun i : Nat => sizes.getD i 0
    let order := (List.range rows.length).mergeSort fun i j => size i ≤ size j
    let dropped := (List.range rows.length).filter fun oi =>
      let i := order.getD oi 0
      ((order.take oi).takeWhile fun j => size j < size i).any fun j =>
        subsetBits (bits.getD j Bitset.empty) (bits.getD i Bitset.empty)
    let keep := fun i : Nat => i ∉ dropped.map fun oi => order.getD oi 0
    (rows.zipIdx.filter fun r => keep r.2).map Prod.fst

/-! ### The enumeration -/

variable (limits : Limits)

/-- Adds the combinations of the pairs, until there are too many candidates. -/
def addCandidates (t : Fin T) : List (SemiflowRow P T × SemiflowRow P T) → List (SemiflowRow P T) →
    List (SemiflowRow P T)
  | [], next => next
  | (rp, rn) :: pairs, next =>
    if limits.maxSemiflowCandidates ≤ next.length then next
    else
      match combineRow limits.isSafe (-rn.sig t) rp (rp.sig t) rn with
      | none => addCandidates t pairs next
      | some row => addCandidates t pairs (next ++ [row])

/-- The pairs of generators that a transition changes in opposite directions. -/
def oppositePairs (t : Fin T) (rows : List (SemiflowRow P T)) :
    List (SemiflowRow P T × SemiflowRow P T) :=
  (rows.filter fun r => 0 < r.sig t).flatMap fun rp =>
    (rows.filter fun r => r.sig t < 0).map fun rn => (rp, rn)

/-- One round: the generators that a transition does not change, and the combinations that cancel it. -/
def eliminateTransition (rows : List (SemiflowRow P T)) (t : Fin T) : List (SemiflowRow P T) :=
  (keepSupportMinimal (addCandidates limits t (oppositePairs t rows)
    (rows.filter fun r => r.sig t = 0))).take limits.maxSemiflowRows

/-- One generator for each place. -/
def unitRows (incidence : Fin T → Fin P → Int) : List (SemiflowRow P T) :=
  (List.finRange P).map fun p => ⟨fun t => incidence t p, fun q => if q = p then 1 else 0⟩

def semiflowRows (incidence : Fin T → Fin P → Int) : List (SemiflowRow P T) :=
  (List.finRange T).foldl (eliminateTransition limits) (unitRows incidence)

variable (flatNet : FlatNet S) (matrix : IncidenceMatrix flatNet.places.length)
  (initialMarking : MarkingState)

/-- The semiflows of minimal support. -/
def computePSemiflows : List (PInvariant flatNet.places.length) :=
  (semiflowRows limits fun t p => matrix.incidence[t] p).filterMap fun row =>
    if (List.finRange _).all fun p => row.weight p = 0 then none
    else
      let semiflow := pInvariant flatNet initialMarking row.weight
      if limits.isSafe semiflow.constant then some semiflow else none

end Semiflows

/-! ## The exact re-check -/

/-- A law as the computation hands it over, its numbers whatever the computation made of them. -/
structure RawInvariant where
  weights : List ℚ
  constant : ℚ
  support : List Nat

/-- Why a law is dropped. -/
inductive CheckFailure
  | length (entries expected : Nat)
  | weightOverflow (place : PlaceName)
  | constantRange (constant : ℚ)
  | nonlinear (place : PlaceName)
  | entryRange (entry : Int) (t p : Nat)
  | notNull (dot : Int) (column : String)
  | markingRange (p tokens : Nat)
  | constantMismatch (constant : ℚ) (exact : Int)

/-- The reason in the report.  `number` renders a JavaScript number. -/
def CheckFailure.text (number : ℚ → String) : CheckFailure → String
  | .length entries expected => s!"weight vector has {entries} entries, expected {expected}"
  | .weightOverflow place => s!"weight overflow at place '{place}' " ++
      "(exact value outside this implementation's integer extraction range)"
  | .constantRange constant => s!"constant {number constant} is outside the safe-integer range"
  | .nonlinear place => s!"support intersects consume-all/reset place '{place}' " ++
      "(non-linear consumption; see Strengthening.lean H1)"
  | .entryRange entry t p =>
      s!"incidence entry {entry} at [t={t}][p={p}] is outside the safe-integer range"
  | .notNull dot column => s!"y*C is {dot} (not 0) at {column}"
  | .markingRange p tokens =>
      s!"initial marking of place {p} ({tokens}) is outside the safe-integer range"
  | .constantMismatch constant exact =>
      s!"constant {number constant} does not match exact y*M0 = {exact}"

section Exact

variable (flatNet : FlatNet S)

/-- The name of a column; those behind the transitions are the injector columns. -/
def columnName (t : Nat) : String :=
  match flatNet.transitions[t]? with
  | some ft => s!"transition '{ft.name}'"
  | none => s!"env-injector column {t - flatNet.transitions.length}"

variable (matrix : IncidenceMatrix flatNet.places.length) (initialMarking : MarkingState)

section Weights

variable (y : flatNet.Index → ℚ)

/-- `y·C = 0` on one column. -/
def columnFailure (t : Nat) (row : flatNet.Index → Int) : Option CheckFailure :=
  let weighted := (List.finRange _).filter fun p => y p ≠ 0
  let dot := (weighted.map fun p => (y p).num * row p).sum
  (weighted.findSome? fun p =>
    if isSafeInteger (row p) then none else some (.entryRange (row p) t p)) <|>
  if dot = 0 then none else some (.notNull dot (columnName flatNet t))

/-- The constant is `y·M0`. -/
def constantFailure (constant : ℚ) : Option CheckFailure :=
  let weighted := (List.finRange _).filter fun p => y p ≠ 0
  let tokens := fun p => initialMarking.tokens (flatNet.placeAt p)
  let exact := (weighted.map fun p => (y p).num * tokens p).sum
  (weighted.findSome? fun p =>
    if isSafeInteger (tokens p) then none else some (.markingRange p (tokens p))) <|>
  if (exact : ℚ) = constant then none else some (.constantMismatch constant exact)

end Weights

/-- Why a law fails the re-check, `none` when it passes. -/
def exactCheckFailure (inv : RawInvariant) : Option CheckFailure :=
  let y := fun p : flatNet.Index => inv.weights.getD p 0
  if inv.weights.length ≠ flatNet.places.length then
    some (.length inv.weights.length flatNet.places.length)
  else
    ((List.finRange _).findSome? fun p =>
      if isSafeInteger (y p) then none else some (.weightOverflow (flatNet.placeAt p))) <|>
    (if isSafeInteger inv.constant then none else some (.constantRange inv.constant)) <|>
    ((List.finRange _).findSome? fun p =>
      if y p ≠ 0 && SmtEncoder.nonlinearPlaces flatNet p then
        some (.nonlinear (flatNet.placeAt p))
      else none) <|>
    (matrix.incidence.zipIdx.findSome? fun (row, t) => columnFailure flatNet y t row) <|>
    constantFailure flatNet initialMarking y inv.constant

/-- The laws that pass the re-check, and those that fail it with the reasons. -/
def validateInvariantsExact (invariants : List RawInvariant) :
    List RawInvariant × List (RawInvariant × CheckFailure) :=
  (invariants.filter fun inv => (exactCheckFailure flatNet matrix initialMarking inv).isNone,
    invariants.filterMap fun inv =>
      (exactCheckFailure flatNet matrix initialMarking inv).map fun reason => (inv, reason))

end Exact

end PInvariantComputer

end LibPetri.Verification
