import LibPetri.Verification.SmtEncoder

/-! # The bound of the colour slots

A weighting of the places, at least one on every coloured place and raised by no row, bounds the tokens on
the coloured places.  The least such bound is the optimum of a linear program.  It is solved on its dual by
the simplex method over sparse rows, and the weighting found is checked again on the whole net.
-/

namespace LibPetri.Verification

open LibPetri.Basis LibPetri.Core LibPetri.Runtime

namespace SlotBoundLp

variable {S : Type}

/-- The largest bound a plan may carry. -/
def slotCap : Int := 2147483647

def slotLpMaxPlaces : Nat := 4096

def slotLpMaxRows : Nat := 16384

def slotLpWorkLimit : Nat := 4000000

/-- The largest magnitude of a numerator or a denominator in a tableau. -/
def coefficientMax : Nat := 2 ^ 63 - 1

/-- The limits of a solve, `none` where there is no limit. -/
structure Limits where
  maxPlaces : Option Nat
  maxRows : Option Nat
  work : Option Nat
  coefficient : Option Nat

/-- The limits of the verifier. -/
def Limits.verifier : Limits :=
  ⟨some slotLpMaxPlaces, some slotLpMaxRows, some slotLpWorkLimit, some coefficientMax⟩

def Limits.unlimited : Limits := ⟨none, none, none, none⟩

/-- Whether a size is past a limit. -/
def past (limit : Option Nat) (n : Nat) : Bool := limit.any (· < n)

@[simp] theorem past_none (n : Nat) : past none n = false := rfl

/-! ## Answers -/

/-- A weighting in integers: `y_p = weights[p] / denominator`, one weight for each place. -/
structure ScaledCover where
  weights : List Int
  denominator : Int
  deriving DecidableEq

inductive LpAnswer
  | optimal (cover : ScaledCover) (places rows : Nat)
  | infeasible (places rows : Nat)
  | tooLarge (places rows : Nat)
  | workLimit (pivots : Nat)
  | coefficientLimit (pivots : Nat)
  | stopped
  deriving DecidableEq

/-- `k = ⌊Y·M0 / D⌋` and `Y·M0 / D`. -/
structure CheckedCover where
  k : Int
  value : ℚ
  deriving DecidableEq

inductive SlotBound
  | bound (k : Int) (value : ℚ) (places rows : Nat)
  | infeasible (places rows : Nat)
  | tooLarge (places rows : Nat)
  | workLimit (pivots : Nat)
  | coefficientLimit (pivots : Nat)
  | checkFailed (reason : String)
  | stopped
  deriving DecidableEq

/-! ## The check -/

section Check

variable (flatNet : FlatNet S)

/-- How much a row raises the weighted sum. -/
def delta {P : Nat} (y : Fin P → Int) (row : FlatTransition S P) : Int :=
  ((List.finRange P).map fun p => y p * (row.postVector p - row.preVector p : Int)).sum

/-- The bound of a weighting, or the first clause that it fails. -/
def checkCover (initial : MarkingState) (coloured : List flatNet.Index) (cover : ScaledCover) :
    Except String CheckedCover :=
  let n := flatNet.places.length
  let y := fun p : flatNet.Index => cover.weights.getD p 0
  let d := cover.denominator
  if cover.weights.length ≠ n then
    .error s!"weighting has {cover.weights.length} entries for {n} places"
  else if d ≤ 0 then .error s!"denominator {d} is not positive"
  else
    match (List.finRange n).find? fun p => y p < 0 with
    | some p => .error s!"place '{flatNet.placeAt p}' has negative weight {y p}"
    | none =>
      match (coloured.insertionSort (· ≤ ·)).find? fun p => y p < d with
      | some p =>
        .error (s!"coloured place '{flatNet.placeAt p}' has weight {y p} below the denominator " ++ s!"{d}")
      | none =>
        match flatNet.transitions.find? fun row => 0 < delta y row with
        | some row => .error s!"transition '{row.name}' increases the weighted sum by {delta y row}"
        | none =>
          let v := ((List.finRange n).map fun p => y p * initial.tokens (flatNet.placeAt p)).sum
          let k := v / d
          if slotCap < k then .error s!"k={k} exceeds {slotCap}" else .ok ⟨k, v / d⟩

/-- The bound of what the simplex answered: `k` never comes from a weighting that is not checked. -/
def checkedSlotBound (initial : MarkingState) (coloured : List flatNet.Index) :
    LpAnswer → SlotBound
  | .optimal cover places rows =>
    match checkCover flatNet initial coloured cover with
    | .ok checked => .bound checked.k checked.value places rows
    | .error reason => .checkFailed reason
  | .infeasible places rows => .infeasible places rows
  | .tooLarge places rows => .tooLarge places rows
  | .workLimit pivots => .workLimit pivots
  | .coefficientLimit pivots => .coefficientLimit pivots
  | .stopped => .stopped

end Check

/-! ## The presolve -/

section Presolve

variable {P : Nat}

/-- The entries of `post − pre` that are not zero. -/
def columnOf (t : FlatTransition S P) : List (Fin P × Int) :=
  (List.finRange P).filterMap fun p =>
    if t.postVector p ≠ t.preVector p then some (p, (t.postVector p - t.preVector p : Int)) else none

def producesInto (col : List (Fin P × Int)) (inU : Fin P → Bool) : Bool :=
  col.any fun (q, v) => 0 < v && inU q

/-- Takes in what a column consumes from, and says whether anything was new. -/
def takeUpstream (state : (Fin P → Bool) × Bool) (col : List (Fin P × Int)) : (Fin P → Bool) × Bool :=
  col.foldl (fun (inU, changed) (p, v) =>
    if v < 0 ∧ inU p = false then (Function.update inU p true, true) else (inU, changed)) state

/-- One pass over the columns. -/
def upstreamPass (columns : List (List (Fin P × Int))) (inU : Fin P → Bool) : (Fin P → Bool) × Bool :=
  columns.foldl (fun (inU, changed) col =>
    if producesInto col inU then takeUpstream (inU, changed) col else (inU, changed)) (inU, false)

/-- The passes until nothing changes. -/
def upstream (columns : List (List (Fin P × Int))) : Nat → (Fin P → Bool) → Option (Fin P → Bool)
  | 0, _ => none
  | fuel + 1, inU =>
    match upstreamPass columns inU with
    | (inU, true) => upstream columns fuel inU
    | (inU, false) => some inU

/-- The places of the program and its rows, over the positions of the places. -/
structure Presolved (P : Nat) where
  places : List (Fin P)
  rows : List (List (Fin places.length × Int))

/-- A column over the positions of the places that are kept. -/
def restricted (places : List (Fin P)) (col : List (Fin P × Int)) : List (Fin places.length × Int) :=
  col.filterMap fun e => (places.finIdxOf? e.1).map fun i => (i, e.2)

def rowKey {n : Nat} (row : List (Fin n × Int)) : String :=
  ",".intercalate (row.map fun (i, v) => s!"{i.val}:{v}")

/-- The rows whose keys were not seen before. -/
def unseenRows {n : Nat} : List (List (Fin n × Int)) → List String → List (List (Fin n × Int))
  | [], _ => []
  | row :: rows, seen =>
    if rowKey row ∈ seen then unseenRows rows seen
    else row :: unseenRows rows (rowKey row :: seen)

def presolve (flatNet : FlatNet S) (isColoured : flatNet.Index → Bool) (fuel : Nat) :
    Option (Presolved flatNet.places.length) :=
  let columns := flatNet.transitions.map columnOf
  (upstream columns fuel isColoured).map fun inU =>
    let places := (List.finRange _).filter inU
    { places
      rows := unseenRows ((columns.filter fun col => producesInto col inU).map (restricted places)) [] }

end Presolve

/-! ## Sparse rows -/

/-- The entries of a row by column. -/
abbrev SparseRow (k : Nat) : Type := List (Fin k × ℚ)

section Sparse

variable {k : Nat}

/-- The binary search between `lo` and `hi`, the latter not included. -/
def searchIndex (row : SparseRow k) (col : Fin k) : Nat → Nat → Nat → Option Nat
  | 0, _, _ => none
  | fuel + 1, lo, hi =>
    if lo < hi then
      let mid := (lo + (hi - 1)) / 2
      match row[mid]? with
      | none => none
      | some (c, _) =>
        if c = col then some mid
        else if c < col then searchIndex row col fuel (mid + 1) hi
        else searchIndex row col fuel lo mid
    else none

def lookupIndex (row : SparseRow k) (col : Fin k) : Option Nat :=
  searchIndex row col (row.length + 1) 0 row.length

def lookup (row : SparseRow k) (col : Fin k) : Option ℚ :=
  (lookupIndex row col).bind fun i => row[i]?.map Prod.snd

/-- Whether numerator and denominator are within the limit. -/
def fits (limits : Limits) (v : ℚ) : Bool :=
  !past limits.coefficient v.num.natAbs && !past limits.coefficient v.den

def rowFits (limits : Limits) (row : SparseRow k) : Bool := row.all fun (_, v) => fits limits v

/-- `row − f·prow`, zeros dropped. -/
def subScaled (f : ℚ) : SparseRow k → SparseRow k → SparseRow k
  | [], prow => prow.map fun e => (e.1, -(f * e.2))
  | row, [] => row
  | (ci, vi) :: row, (cj, vj) :: prow =>
    if ci < cj then (ci, vi) :: subScaled f row ((cj, vj) :: prow)
    else if cj < ci then (cj, -(f * vj)) :: subScaled f ((ci, vi) :: row) prow
    else if vi - f * vj = 0 then subScaled f row prow
    else (ci, vi - f * vj) :: subScaled f row prow
termination_by row prow => row.length + prow.length

end Sparse

/-! ## The tableau -/

/-- `largest` takes the most negative objective entry; only `bland` is used by the solver. -/
inductive PivotRule
  | bland
  | largest
  deriving DecidableEq

inductive SimplexOutcome
  | optimal
  | unbounded
  | workLimit
  | coefficientLimit
  | stopped
  deriving DecidableEq

/-- `z + Σ obj_j·x_j = objValue` and `rows·x = rhs`, with one basic column for each row. -/
structure SlotTableau (n k : Nat) where
  rows : Vector (SparseRow k) n
  rhs : Vector ℚ n
  obj : SparseRow k
  basis : Vector (Fin k) n
  objValue : ℚ := 0
  /-- Pivots performed so far. -/
  pivots : Nat := 0
  /-- Work done so far, in entry updates. -/
  work : Nat := 0

namespace SlotTableau

variable {n k : Nat} (t : SlotTableau n k)

def entering : PivotRule → Option (Fin k)
  | .bland => (t.obj.find? fun e => e.2 < 0).map Prod.fst
  | .largest =>
    (t.obj.foldl (fun (best : Option (Fin k × ℚ)) (c, v) =>
      if v < 0 ∧ best.all fun b => v < b.2 then some (c, v) else best) none).map Prod.fst

/-- Whether a row with a ratio leaves in place of the best one so far. -/
def better (rule : PivotRule) (i : Fin n) (ratio : ℚ) : Option (Fin n × ℚ) → Bool
  | none => true
  | some (b, least) =>
    ratio < least || ratio = least && rule = .bland && t.basis.get i < t.basis.get b

def leaving (rule : PivotRule) (e : Fin k) : Option (Fin n) :=
  ((List.finRange n).foldl (fun (best : Option (Fin n × ℚ)) i =>
    match lookup (t.rows.get i) e with
    | none => best
    | some a =>
      if a ≤ 0 then best
      else if t.better rule i (t.rhs.get i / a) best then some (i, t.rhs.get i / a)
      else best) none).map Prod.fst

/-- Whether every entry is within the coefficient limit. -/
def fits (limits : Limits) : Bool :=
  t.rows.all (rowFits limits) && t.rhs.all (SlotBoundLp.fits limits) && rowFits limits t.obj &&
    SlotBoundLp.fits limits t.objValue

/-- The work of pivoting on `(r, e)`. -/
def pivotWork (r : Fin n) (e : Fin k) : Nat :=
  let p := (t.rows.get r).length
  let updated := fun row : SparseRow k => if lookupIndex row e = none then 0 else row.length + p
  p + updated t.obj +
    (((List.finRange n).filter fun i => i ≠ r).map fun i => updated (t.rows.get i)).sum

/-- `row − f·prow` where the row has an entry `f` at `e`. -/
def reduced (row : SparseRow k) (e : Fin k) (prow : SparseRow k) : SparseRow k :=
  match lookup row e with
  | none => row
  | some f => subScaled f row prow

/-- `value − f·prhs` where the row has an entry `f` at `e`. -/
def reducedValue (value : ℚ) (row : SparseRow k) (e : Fin k) (prhs : ℚ) : ℚ :=
  match lookup row e with
  | none => value
  | some f => value - f * prhs

/-- Pivots on `(r, e)`, and says whether every entry written is within the coefficient limit. -/
def pivot (limits : Limits) (r : Fin n) (e : Fin k) : Except Thrown (SlotTableau n k × Bool) :=
  match lookup (t.rows.get r) e with
  | none => .error (.error "Error" "pivot entry")
  | some a =>
    let prow := (t.rows.get r).map fun e => (e.1, e.2 / a)
    let prhs := t.rhs.get r / a
    let next : SlotTableau n k :=
      { t with
        rows := Vector.ofFn fun i => if i = r then prow else reduced (t.rows.get i) e prow
        rhs := Vector.ofFn fun i =>
          if i = r then prhs else reducedValue (t.rhs.get i) (t.rows.get i) e prhs
        obj := reduced t.obj e prow
        objValue := reducedValue t.objValue t.obj e prhs
        basis := Vector.ofFn fun i => if i = r then e else t.basis.get i }
    let written := (List.finRange n).filter fun i => i = r ∨ lookup (t.rows.get i) e ≠ none
    let within := (written.all fun i =>
        rowFits limits (next.rows.get i) && SlotBoundLp.fits limits (next.rhs.get i)) &&
      (lookup t.obj e = none || rowFits limits next.obj && SlotBoundLp.fits limits next.objValue)
    .ok (next, within)

/-- The rounds of the loop, none left where it has not ended yet.  `stop` answers the polls in order. -/
def rounds (limits : Limits) (rule : PivotRule) (stop : Nat → Bool) :
    Nat → SlotTableau n k → Option (Except Thrown (SimplexOutcome × SlotTableau n k))
  | 0, _ => none
  | fuel + 1, t =>
    match t.entering rule with
    | none => some (.ok (.optimal, t))
    | some e =>
      match t.leaving rule e with
      | none => some (.ok (.unbounded, t))
      | some r =>
        if past limits.work (t.work + t.pivotWork r e) then some (.ok (.workLimit, t))
        else if stop t.pivots then some (.ok (.stopped, t))
        else
          match t.pivot limits r e with
          | .error thrown => some (.error thrown)
          | .ok (next, within) =>
            let next := { next with pivots := t.pivots + 1, work := t.work + t.pivotWork r e }
            if within then rounds limits rule stop fuel next
            else some (.ok (.coefficientLimit, next))

def run (limits : Limits) (rule : PivotRule) (stop : Nat → Bool) (fuel : Nat) :
    Option (Except Thrown (SimplexOutcome × SlotTableau n k)) :=
  if t.fits limits then t.rounds limits rule stop fuel else some (.ok (.coefficientLimit, t))

end SlotTableau

/-! ## The solve -/

section Solve

variable {P : Nat}

/-- The dual in standard form: the kept rows are the first columns, the slacks of the places the others. -/
def Presolved.tableau (program : Presolved P) (isColoured : Fin P → Bool) (m0 : Fin P → Nat) :
    SlotTableau program.places.length (program.rows.length + program.places.length) :=
  let columns := List.finRange program.rows.length
  { rows := Vector.ofFn fun i =>
      (columns.flatMap fun j => ((program.rows.get j).filter fun e => e.1 = i).map fun e =>
        (j.castAdd program.places.length, -(e.2 : ℚ))) ++ [(i.natAdd program.rows.length, 1)]
    rhs := Vector.ofFn fun i => (m0 (program.places.get i) : ℚ)
    obj := columns.filterMap fun j =>
      let c := (((program.rows.get j).filter fun e => isColoured (program.places.get e.1)).map
        Prod.snd).sum
      if c ≠ 0 then some (j.castAdd program.places.length, -(c : ℚ)) else none
    basis := Vector.ofFn fun i => i.natAdd program.rows.length }

/-- `π_i`, and one more on a coloured place; zero on the places that are not kept. -/
def Presolved.weighting (program : Presolved P) (isColoured : Fin P → Bool)
    (obj : SparseRow (program.rows.length + program.places.length)) (p : Fin P) : ℚ :=
  match program.places.finIdxOf? p with
  | none => 0
  | some i =>
    let pi := (lookup obj (i.natAdd program.rows.length)).getD 0
    if isColoured p then pi + 1 else pi

/-- A weighting over its least common denominator. -/
def scaled (y : Fin P → ℚ) : ScaledCover :=
  let denominator : Nat := (List.finRange P).foldl (fun denominator p =>
    denominator / denominator.gcd (y p).den * (y p).den) 1
  { weights := (List.finRange P).map fun p => (y p).num * (denominator / (y p).den : Nat)
    denominator }

/-- What the outcome of the simplex answers. -/
def Presolved.answer (program : Presolved P) (isColoured : Fin P → Bool)
    (final : SlotTableau program.places.length (program.rows.length + program.places.length)) :
    SimplexOutcome → LpAnswer
  | .optimal =>
    .optimal (scaled (program.weighting isColoured final.obj)) program.places.length program.rows.length
  | .unbounded => .infeasible program.places.length program.rows.length
  | .workLimit => .workLimit final.pivots
  | .coefficientLimit => .coefficientLimit final.pivots
  | .stopped => .stopped

/-- The answer of the simplex for the coloured places, none where the fuel is used up before it ends. -/
def solveSlotBound (flatNet : FlatNet S) (limits : Limits) (stop : Nat → Bool) (initial : MarkingState)
    (coloured : List flatNet.Index) (fuel : Nat) : Option (Except Thrown LpAnswer) :=
  let isColoured := fun p => decide (p ∈ coloured)
  match presolve flatNet isColoured fuel with
  | none => none
  | some program =>
    let places := program.places.length
    let rows := program.rows.length
    if past limits.maxPlaces places || past limits.maxRows rows then some (.ok (.tooLarge places rows))
    else
      let tableau := program.tableau isColoured fun p => initial.tokens (flatNet.placeAt p)
      (tableau.run limits .bland stop fuel).map fun result => do
        let (outcome, final) ← result
        .ok (program.answer isColoured final outcome)

end Solve

end SlotBoundLp

end LibPetri.Verification
