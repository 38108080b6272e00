import LibPetri.Composition.TransitionBuilder

/-! # The subnet rewriter

One engine rebuilds a transition under a place remap: for instantiation, for the ports of a composition and
for fusion.  A channel composition merges two transitions into one.
-/

namespace LibPetri.Composition

open LibPetri.Basis LibPetri.Core LibPetri.Verification LibPetri.Runtime

variable {V N A : Type}

/-- Replacements of places by name. -/
abbrev Remap := OrderedMap PlaceName PlaceName

/-- The replacement of a place, or the place itself. -/
def resolve (p : PlaceName) (remap : Remap) : PlaceName := (remap.get? p).getD p

/-! ## Rewriting arcs -/

def rewriteIn (spec : In) (remap : Remap) : In :=
  match spec with
  | .one p => .one (resolve p remap)
  | .exactly count p => .exactly count (resolve p remap)
  | .all p => .all (resolve p remap)
  | .atLeast minimum p => .atLeast minimum (resolve p remap)

mutual

def rewriteOut (remap : Remap) : Out → Out
  | .place p => .place (resolve p remap)
  | .forwardInput source target => .forwardInput (resolve source remap) (resolve target remap)
  | .and children => .and (rewriteOuts remap children)
  | .xor children => .xor (rewriteOuts remap children)
  | .timeout afterMs child => .timeout afterMs (rewriteOut remap child)

def rewriteOuts (remap : Remap) : List Out → List Out
  | [] => []
  | child :: children => rewriteOut remap child :: rewriteOuts remap children

end

def remapKey (remap : Remap) (k : MatchKey V N) : MatchKey V N := ⟨resolve k.place remap, k.key⟩

def remapMatch (remap : Remap) (ms : MatchSpec V N) : MatchSpec V N :=
  ⟨ms.keys.map (remapKey remap), ms.relays.map (remapKey remap)⟩

/-! ## The declared places -/

/-- The places of the arcs, in the order the correspondence records them. -/
def recordedPlaces (t : Transition V N) : List PlaceName :=
  t.inputSpecs.map In.place ++ t.reads ++ t.inhibitors ++ t.resets ++ t.outputPlaces

/-- Every declared place, with the place it now stands for. -/
def carriedAlias (t : Transition V N) (remap : Remap) : OrderedMap PlaceName PlaceName :=
  if t.placeAlias = [] then
    (recordedPlaces t).foldl (fun known p => if (known.get? p).isSome then known else known.set p (resolve p remap))
      OrderedMap.empty
  else
    t.placeAlias.foldl (fun known e => known.set e.1 (resolve e.2 remap)) OrderedMap.empty

/-- The correspondence after a rewrite.  One that maps every place to itself is dropped. -/
def buildPlaceAlias (t : Transition V N) (remap : Remap) : List (PlaceName × PlaceName) :=
  if remap.entries = [] ∧ t.placeAlias = [] then []
  else
    let known := (carriedAlias t remap).entries
    if known.any fun e => e.2 ≠ e.1 then known else []

/-! ## Rebuilding -/

/-- What `rebuildWithName` gives the builder. -/
def renamedDraft (t : Transition V N) (name : String) (remap : Remap) (inputSpecs : List In) :
    TransitionDraft V N where
  name := name
  inputSpecs := inputSpecs
  outputSpec := t.outputSpec.map (rewriteOut remap)
  inhibitors := t.inhibitors.map fun p => resolve p remap
  reads := t.reads.map fun p => resolve p remap
  resets := t.resets.map fun p => resolve p remap
  timing := t.timing
  timing_valid := t.timing_valid
  priority := t.priority
  placeAlias := buildPlaceAlias t remap
  matchSpec := t.matchSpec.map (remapMatch remap)

/-- Rebuilds a transition under `name`. -/
def rebuildWithName (t : Transition V N) (name : String) (remap : Remap)
    (normalizeInputs : List In → Except Thrown (List In)) : Except Thrown (Transition V N) := do
  let inputSpecs ← normalizeInputs (t.inputSpecs.map fun spec => rewriteIn spec remap)
  build (renamedDraft t name remap inputSpecs)

def rewriteTransition (t : Transition V N) (prefix_ : String) (remap : Remap) :
    Except Thrown (Transition V N) :=
  rebuildWithName t (prefix_ ++ "/" ++ t.name) remap .ok

def substitutePlaces (t : Transition V N) (remap : Remap) : Except Thrown (Transition V N) :=
  rebuildWithName t t.name remap .ok

/-! ## Merging input arcs -/

/-- The cardinality of an arc, as a message names it. -/
def describeIn : In → String
  | .one _ => "one()"
  | .exactly count _ => s!"exactly({count})"
  | .all _ => "all()"
  | .atLeast minimum _ => s!"atLeast({minimum})"

/-- What `one` and `exactly` consume. -/
def summableCount : In → Option Nat
  | .one _ => some 1
  | .exactly count _ => some count
  | _ => none

def collidingInputsMessage (seam : String) (a b : In) : String :=
  s!"{seam}: input arcs {describeIn a} and {describeIn b} collide on place '{a.place}' and have no additive " ++
    "merge (MOD-021 rule (c)). Use a single arc with exactly(n) / atLeast(n)."

/-- Two input arcs on one place as one. -/
def mergeInPair (a b : In) (seam : String) : Except Thrown In :=
  match a, b with
  | .all p, .all _ => .ok (.all p)
  | .atLeast m p, .atLeast n q => .ok (if n ≤ m then .atLeast m p else .atLeast n q)
  | a, b =>
    match summableCount a, summableCount b with
    | some countA, some countB => .ok (.exactly (countA + countB) a.place)
    | _, _ => raised (collidingInputsMessage seam a b)

def normalizeInputArc (seamOf : PlaceName → String) (byPlace : OrderedMap PlaceName In) (arc : In) :
    Except Thrown (OrderedMap PlaceName In) :=
  match byPlace.get? arc.place with
  | none => .ok (byPlace.set arc.place arc)
  | some prior => do
    let merged ← mergeInPair prior arc (seamOf arc.place)
    pure (byPlace.set arc.place merged)

/-- One input arc for each place, in the order of the first. -/
def normalizeInputArcs (arcs : List In) (seamOf : PlaceName → String) : Except Thrown (List In) := do
  let byPlace ← arcs.foldlM (normalizeInputArc seamOf) OrderedMap.empty
  pure byPlace.values

/-! ## Conflicts between the two sides -/

/-- The kinds of arcs that touch no output, in alphabetical order. -/
inductive ArcKind
  | inhibitor
  | input
  | read
  | reset
  deriving DecidableEq, Repr

def ArcKind.text : ArcKind → String
  | .inhibitor => "inhibitor"
  | .input => "input"
  | .read => "read"
  | .reset => "reset"

def ArcKind.all : List ArcKind := [.inhibitor, .input, .read, .reset]

def addKind (kind : ArcKind) (kinds : OrderedMap PlaceName (List ArcKind)) (p : PlaceName) :
    OrderedMap PlaceName (List ArcKind) :=
  let set := (kinds.get? p).getD []
  kinds.set p (if kind ∈ set then set else set ++ [kind])

def arcKindsByPlace (t : Transition V N) : OrderedMap PlaceName (List ArcKind) :=
  let inputs := (t.inputSpecs.map In.place).foldl (addKind .input) OrderedMap.empty
  let inhibitors := t.inhibitors.foldl (addKind .inhibitor) inputs
  let reads := t.reads.foldl (addKind .read) inhibitors
  t.resets.foldl (addKind .reset) reads

def sameKindSet (a b : List ArcKind) : Bool := ArcKind.all.all fun kind => decide (kind ∈ a ↔ kind ∈ b)

def describeKinds (kinds : List ArcKind) : String :=
  "[" ++ String.intercalate ", " ((ArcKind.all.filter fun kind => kind ∈ kinds).map ArcKind.text) ++ "]"

def kindConflictMessage (mergedName : String) (place : PlaceName) (callerKinds instanceKinds : List ArcKind) :
    String :=
  s!"Channel composition '{mergedName}': conflicting arc kinds on place '{place}' — caller-side " ++
    describeKinds callerKinds ++ " vs instance-side " ++ describeKinds instanceKinds ++
    ". Different arc types on one place cannot be merged (MOD-021 rule (d)). Resolve explicitly."

/-- A place on which the two sides put different kinds of arcs. -/
def kindConflict (callerKinds : OrderedMap PlaceName (List ArcKind)) (e : PlaceName × List ArcKind) : Bool :=
  match callerKinds.get? e.1 with
  | none => false
  | some set => !sameKindSet set e.2

def rejectCrossSideKindConflicts (caller inst : Transition V N) (mergedName : String) : Except Thrown Unit :=
  let callerKinds := arcKindsByPlace caller
  match (arcKindsByPlace inst).entries.find? (kindConflict callerKinds) with
  | none => .ok ()
  | some e => raised (kindConflictMessage mergedName e.1 ((callerKinds.get? e.1).getD []) e.2)

/-! ## Merging the rest -/

def mergeMatchSpecs (caller inst : Option (MatchSpec V N)) (channelName : String) :
    Except Thrown (Option (MatchSpec V N)) :=
  match caller, inst with
  | none, inst => .ok inst
  | some caller, none => .ok (some caller)
  | some _, some _ =>
    raised (s!"Channel composition '{channelName}': both the caller-side and instance-side " ++
      "transition carry a ν-net match — refusing to fuse two independent correlations " ++
      "into one transition (NU-060). Resolve explicitly by keeping the match on a single side.")

def aliasConflictMessage (channelName : String) (declared existing actual : PlaceName) : String :=
  s!"Channel composition '{channelName}': conflicting declared→actual place alias for declared place " ++
    s!"'{declared}' — caller-side maps to '{existing}', instance-side to '{actual}' (MOD-031). Resolve explicitly."

/-- An entry that maps a place to itself gives way. -/
def mergeAliasEntry (channelName : String) (merged : OrderedMap PlaceName PlaceName)
    (e : PlaceName × PlaceName) : Except Thrown (OrderedMap PlaceName PlaceName) :=
  match merged.get? e.1 with
  | none => .ok (merged.set e.1 e.2)
  | some existing =>
    if existing = e.2 then .ok (merged.set e.1 e.2)
    else if existing = e.1 then .ok (merged.set e.1 e.2)
    else if e.2 = e.1 then .ok merged
    else raised (aliasConflictMessage channelName e.1 existing e.2)

def mergePlaceAlias (caller inst : List (PlaceName × PlaceName)) (channelName : String) :
    Except Thrown (List (PlaceName × PlaceName)) :=
  if caller = [] then .ok inst
  else if inst = [] then .ok caller
  else do
    let own := caller.foldl (fun known e => known.set e.1 e.2) OrderedMap.empty
    let merged ← inst.foldlM (mergeAliasEntry channelName) own
    pure merged.entries

/-- `describeTiming`, with numbers rendered by `showMs`. -/
def describeTiming (showMs : Ms → String) : Timing → String
  | .immediate => "Immediate"
  | .deadline byMs => s!"Deadline(byMs={showMs byMs})"
  | .delayed afterMs => s!"Delayed(afterMs={showMs afterMs})"
  | .window earliestMs latestMs => s!"Window(earliestMs={showMs earliestMs}, latestMs={showMs latestMs})"
  | .exact atMs => s!"Exact(atMs={showMs atMs})"

def timingConflictMessage (showMs : Ms → String) (channelName : String) (caller inst : Timing) : String :=
  s!"Channel composition '{channelName}': conflicting non-Immediate timings — " ++
    s!"caller-side {describeTiming showMs caller} vs instance-side {describeTiming showMs inst}. " ++
    "Resolve explicitly by aligning the timings on either side (MOD-021)."

/-- A timing with what the timing factories have checked. -/
abbrev ValidTiming := { timing : Timing // timing.Valid }

def timingOf (t : Transition V N) : ValidTiming := ⟨t.timing, t.timing_valid⟩

def mergeTimings (showMs : Ms → String) (caller inst : ValidTiming) (channelName : String) :
    Except Thrown ValidTiming :=
  if caller.val = .immediate then .ok inst
  else if inst.val = .immediate then .ok caller
  else if caller.val = inst.val then .ok caller
  else raised (timingConflictMessage showMs channelName caller inst)

/-- Both sides' outputs, under one `and`. -/
def mergeOutputs (caller inst : Option Out) : Option Out :=
  match caller, inst with
  | none, inst => inst
  | some caller, none => some caller
  | some caller, some inst => some (.and [caller, inst])

/-- The union of two arc lists, the caller's first. -/
def unionArcs (caller inst : List PlaceName) : List PlaceName := toSet (caller ++ inst)

def pickPriority (callerPriority _instancePriority : Int) : Int := callerPriority

/-- An action as the steps it runs one after the other.  The passthrough has none. -/
def composeActions (caller inst : List A) : List A := caller ++ inst

/-- Merges a caller-side transition with an instance-side channel transition. -/
def mergeTransitions (showMs : Ms → String) (caller inst : Transition V N) (mergedName : String) :
    Except Thrown (Transition V N) := do
  if mergedName = "" then raised "mergeTransitions: mergedName must be a non-empty string"
  let timing ← mergeTimings showMs (timingOf caller) (timingOf inst) mergedName
  let matchSpec ← mergeMatchSpecs caller.matchSpec inst.matchSpec mergedName
  let placeAlias ← mergePlaceAlias caller.placeAlias inst.placeAlias mergedName
  rejectCrossSideKindConflicts caller inst mergedName
  let inputSpecs ← normalizeInputArcs (caller.inputSpecs ++ inst.inputSpecs)
    fun _ => s!"Channel composition '{mergedName}'"
  build
    { name := mergedName
      inputSpecs := inputSpecs
      outputSpec := mergeOutputs caller.outputSpec inst.outputSpec
      inhibitors := unionArcs caller.inhibitors inst.inhibitors
      reads := unionArcs caller.reads inst.reads
      resets := unionArcs caller.resets inst.resets
      timing := timing.val
      timing_valid := timing.property
      priority := pickPriority caller.priority inst.priority
      placeAlias := placeAlias
      matchSpec := matchSpec }

/-! ## What a rewrite leaves in place -/

/-- `t` with its places renamed. -/
structure Renamed (remap : Remap) (t t' : Transition V N) : Prop where
  name : t'.name = t.name
  inputs : t'.inputSpecs = t.inputSpecs.map fun spec => rewriteIn spec remap
  output : t'.outputSpec = t.outputSpec.map (rewriteOut remap)
  inhibitors : t'.inhibitors = t.inhibitors.map fun p => resolve p remap
  reads : t'.reads = t.reads.map fun p => resolve p remap
  resets : t'.resets = t.resets.map fun p => resolve p remap
  timing : t'.timing = t.timing
  priority : t'.priority = t.priority
  matched : t'.matchSpec = t.matchSpec.map (remapMatch remap)

theorem renamed_of_substitutePlaces {t t' : Transition V N} {remap : Remap}
    (h : substitutePlaces t remap = .ok t') : Renamed remap t t' := by
  have same := draftOf_build (d := renamedDraft t t.name remap (t.inputSpecs.map fun spec => rewriteIn spec remap)) h
  rw [draftOf, renamedDraft, TransitionDraft.mk.injEq] at same
  obtain ⟨name, inputs, output, inhibitors, reads, resets, timing, priority, -, matched⟩ := same
  exact ⟨name, inputs, output, inhibitors, reads, resets, timing, priority, matched⟩

end LibPetri.Composition
