import LibPetri.Basis.BoundMatrix

/-! # Firing domains

The zones of the state classes, as difference bound matrices.  Index 0 is the reference clock and
index `k + 1` the clock of the `k`-th enabled transition; a clock holds the time that is left until its
transition fires.  Bounds are exact, in seconds.
-/

namespace LibPetri.Verification

open LibPetri.Basis

/-- 1e-9. -/
def EPSILON : ℚ := 1 / 1000000000

/-- A clock that starts, with its interval. -/
structure Clock where
  name : String
  lower : ℚ
  upper : Bound
  deriving DecidableEq

structure DBM where
  bounds : BoundMatrix
  clockNames : List String
  isEmpty : Bool

namespace DBM

/-- The reference clock stays, clock `k` is clock `ks[k]`. -/
def reindex (ks : List Nat) : Nat → Nat
  | 0 => 0
  | k + 1 => ks.getD k 0 + 1

/-- An empty zone. -/
def empty (clockNames : List String) : DBM where
  bounds := .ofFn 1 fun _ _ => 0
  clockNames := clockNames
  isEmpty := true

/-- `canonicalizeInPlace`: the tightest bounds, unless they contradict each other. -/
def canonicalizeInPlace (bounds : BoundMatrix) : Option BoundMatrix :=
  let canon := bounds.tighten
  if (List.range canon.dim).any fun i => canon.get i i < ((-EPSILON : ℚ) : Bound) then none
  else some canon

/-- `new DBM(bounds, dim, clockNames, false).canonicalize()`. -/
def canonicalize (bounds : BoundMatrix) (clockNames : List String) : DBM :=
  match canonicalizeInPlace bounds with
  | none => empty clockNames
  | some canon => ⟨canon, clockNames, false⟩

/-- The bounds of clocks that start together. -/
def initialBounds (clocks : List Clock) : BoundMatrix :=
  .ofFn (clocks.length + 1) fun i j =>
    match i, j with
    | 0, 0 => 0
    | 0, k + 1 => ((clocks[k]?.map fun c => -c.lower).getD 0 : ℚ)
    | k + 1, 0 => (clocks[k]?.map fun c => c.upper).getD 0
    | i + 1, j + 1 => if i = j then 0 else ⊤

def create (clocks : List Clock) : DBM :=
  canonicalize (initialBounds clocks) (clocks.map Clock.name)

/-- Whether the clock may run out now: its lower bound is not above `EPSILON`. -/
def canFire (d : DBM) (clockIndex : Nat) : Bool :=
  !d.isEmpty && (d.clockNames.length ≤ clockIndex ||
    ((-EPSILON : ℚ) : Bound) ≤ d.bounds.get 0 (clockIndex + 1))

/-- The bounds under which clock `firedClock` runs out first. -/
def constrain (bounds : BoundMatrix) (firedClock : Nat) : BoundMatrix :=
  .ofFn bounds.dim fun i j =>
    if i = firedClock + 1 ∧ j ≠ 0 ∧ j ≠ firedClock + 1 then min (bounds.get i j) 0
    else bounds.get i j

/-- The bounds behind a firing: the persistent clocks are read off against the fired one, the new ones
start. -/
def successorBounds (constrained : BoundMatrix) (firedClock : Nat) (newClocks : List Clock)
    (persistentClocks : List Nat) : BoundMatrix :=
  let persistent := persistentClocks.length
  let f := firedClock + 1
  .ofFn (persistent + newClocks.length + 1) fun i j =>
    match i, j with
    | 0, 0 => 0
    | 0, k + 1 =>
      if k < persistent then min 0 (constrained.get f (reindex persistentClocks (k + 1)))
      else ((newClocks[k - persistent]?.map fun c => -c.lower).getD 0 : ℚ)
    | k + 1, 0 =>
      if k < persistent then constrained.get (reindex persistentClocks (k + 1)) f
      else (newClocks[k - persistent]?.map fun c => c.upper).getD 0
    | i + 1, j + 1 =>
      if i < persistent ∧ j < persistent then
        constrained.get (reindex persistentClocks (i + 1)) (reindex persistentClocks (j + 1))
      else if i = j then 0 else ⊤

/-- The domain behind the firing of clock `firedClock`, one of the clocks: the persistent clocks, then
the new ones. -/
def fireTransition (d : DBM) (firedClock : Nat) (newClocks : List Clock)
    (persistentClocks : List Nat) : DBM :=
  if d.isEmpty then d
  else
    match canonicalizeInPlace (constrain d.bounds firedClock) with
    | none => empty []
    | some constrained =>
      canonicalize (successorBounds constrained firedClock newClocks persistentClocks)
        (persistentClocks.map (fun k => d.clockNames.getD k "") ++ newClocks.map Clock.name)

/-- The zone with its clocks reordered: clock `k` is clock `order[k]`. -/
def permuted (d : DBM) (order : List Nat) : DBM :=
  if d.isEmpty then d
  else
    { bounds := .ofFn d.bounds.dim fun i j => d.bounds.get (reindex order i) (reindex order j)
      clockNames := order.map fun k => d.clockNames.getD k ""
      isEmpty := false }

/-- Lets time pass: no clock has a lower bound of its own any more. -/
def letTimePass (d : DBM) : DBM :=
  if d.isEmpty then d
  else
    canonicalize (.ofFn d.bounds.dim fun i j => if i = 0 ∧ j ≠ 0 then 0 else d.bounds.get i j)
      d.clockNames

/-! ## The text of a zone -/

/-- `b.toFixed(3)`: the closest number of three decimals, the larger one of two, by magnitude. -/
def toFixed3 (q : ℚ) : String :=
  let n := ⌊|q| * 1000 + 1 / 2⌋.toNat
  let decimals := Nat.repr (n % 1000)
  (if q < 0 then "-" else "") ++ Nat.repr (n / 1000) ++ "." ++
    String.ofList (List.replicate (3 - decimals.length) '0') ++ decimals

def formatBound : Bound → String
  | none => "∞"
  | some q => if q.isInt then Int.repr q.num else toFixed3 q

/-- The clock names and the whole matrix. -/
def zoneKey (d : DBM) : String :=
  if d.isEmpty then "DBM[empty]"
  else "|".intercalate (",".intercalate d.clockNames :: d.bounds.entries.map formatBound)

end DBM

end LibPetri.Verification
