import LibPetri.Runtime.CompiledNet

/-! # The precompiled net

Flat tables read off the compiled net: sparse masks, consumption programs and output fast paths.
-/

namespace LibPetri.Runtime

open LibPetri.Basis LibPetri.Core CompiledNet

variable {V N : Type} {net : PetriNet V N}

namespace PrecompiledNet

/-! ## Opcodes -/

/-- Next word: pid. -/
@[match_pattern] abbrev CONSUME_ONE : Nat := 0

/-- Next words: pid, count. -/
@[match_pattern] abbrev CONSUME_N : Nat := 1

/-- Next word: pid. -/
@[match_pattern] abbrev CONSUME_ALL : Nat := 2

/-- Next words: pid, minimum. -/
@[match_pattern] abbrev CONSUME_ATLEAST : Nat := 3

/-- Next word: pid. -/
@[match_pattern] abbrev RESET : Nat := 4

variable (net) in
def compileInput : In → List Nat
  | .one p => [CONSUME_ONE, placeId net p]
  | .exactly count p => [CONSUME_N, placeId net p, count]
  | .all p => [CONSUME_ALL, placeId net p]
  | .atLeast minimum p => [CONSUME_ATLEAST, placeId net p, minimum]

/-- The program of a firing, inputs before resets. -/
def consumeOps (tid : Tid net) : List Nat :=
  (transition tid).inputSpecs.flatMap (compileInput net) ++
    (transition tid).resets.flatMap fun p => [RESET, placeId net p]

/-- Where the resets begin. -/
def resetOpsStart (tid : Tid net) : Nat :=
  ((transition tid).inputSpecs.flatMap (compileInput net)).length

def readOps (tid : Tid net) : List Nat := (transition tid).reads.map (placeId net)

/-! ## Sparse enablement -/

def SPARSE_EMPTY : Int := -2

def SPARSE_MULTI : Int := -1

/-- A mask by its non-zero words. -/
structure SparseMask where
  singleWordIndex : Int
  singleWordMask : BitVec 32
  /-- The indices and the masks of the non-zero words, where there are several. -/
  words : List (Nat × BitVec 32)

def compileSparse {n : Nat} (mask : Bitset n) : SparseMask :=
  let nonZero := (List.range (wordCount n)).filter fun w => mask.word w != 0#32
  match nonZero with
  | [] => ⟨SPARSE_EMPTY, 0#32, []⟩
  | [w] => ⟨w, mask.word w, []⟩
  | _ => ⟨SPARSE_MULTI, 0#32, nonZero.map fun w => (w, mask.word w)⟩

/-- Every bit of the mask is set. -/
def SparseMask.containedIn {n : Nat} (m : SparseMask) (snapshot : Bitset n) : Bool :=
  if m.singleWordIndex = SPARSE_EMPTY then true
  else if 0 ≤ m.singleWordIndex then
    snapshot.word m.singleWordIndex.toNat &&& m.singleWordMask == m.singleWordMask
  else m.words.all fun e => snapshot.word e.1 &&& e.2 == e.2

/-- No bit of the mask is set. -/
def SparseMask.disjointFrom {n : Nat} (m : SparseMask) (snapshot : Bitset n) : Bool :=
  if m.singleWordIndex = SPARSE_EMPTY then true
  else if 0 ≤ m.singleWordIndex then
    snapshot.word m.singleWordIndex.toNat &&& m.singleWordMask == 0#32
  else m.words.all fun e => snapshot.word e.1 &&& e.2 == 0#32

def canEnableSparse (tid : Tid net) (snapshot : Bitset (placeCount net)) : Bool :=
  (compileSparse (needsMask tid)).containedIn snapshot &&
    (compileSparse (inhibitorMask tid)).disjointFrom snapshot

/-! ## Priorities and outputs -/

/-- The priority as an `Int32Array` holds it. -/
def priorities (tid : Tid net) : Int := (transition tid).priority.bmod (2 ^ 32)

/-- -2 without a specification, -1 for a complex one, and the place id of a single place. -/
def simpleOutputPlaceId (tid : Tid net) : Int :=
  match (transition tid).outputSpec with
  | none => -2
  | some (.place p) => placeId net p
  | some _ => -1

end PrecompiledNet

end LibPetri.Runtime
