import LibPetri.Composition.SubnetRewriter

/-! # The net builder

A builder collects transitions and composes subnets into them.  Its transitions are objects: two may be alike
and still be two.
-/

namespace LibPetri.Composition

open LibPetri.Basis LibPetri.Core LibPetri.Verification LibPetri.Runtime

/-! ## Transitions as objects -/

/-- A transition with the steps of its action. -/
structure BoundTransition (V N A : Type) where
  transition : Transition V N
  action : List A

/-- A transition as an object: `ref` is its identity. -/
structure TransitionObject (V N A : Type) extends BoundTransition V N A where
  ref : Nat

/-- A port place that composition replaced by a host place. -/
structure RetiredPort where
  port : String
  owner : String
  host : PlaceName
  deriving DecidableEq, Repr

/-- A builder.  The objects there are have identities below `next`. -/
structure PetriNetBuilder (V N A : Type) where
  name : String
  places : List PlaceName
  transitions : List (TransitionObject V N A)
  retiredPorts : OrderedMap PlaceName RetiredPort
  next : Nat
  refs_nodup : (transitions.map TransitionObject.ref).Nodup
  refs_lt : ∀ ref ∈ transitions.map TransitionObject.ref, ref < next

variable {V N A : Type}

def addPlace (places : List PlaceName) (p : PlaceName) : List PlaceName :=
  if p ∈ places then places else places ++ [p]

/-- The places a builder collects from a transition. -/
def collectedPlaces (t : Transition V N) : List PlaceName :=
  t.inputSpecs.map In.place ++ t.outputPlaces ++ t.inhibitors ++ t.reads ++ t.resets

namespace PetriNetBuilder

/-- `new PetriNetBuilder(…)`. -/
def new (name : String) : PetriNetBuilder V N A := ⟨name, [], [], OrderedMap.empty, 0, List.nodup_nil, nofun⟩

/-- Adds an explicit place. -/
def place (B : PetriNetBuilder V N A) (p : PlaceName) : PetriNetBuilder V N A :=
  { B with places := addPlace B.places p }

/-- The identities of the transitions. -/
def refs (B : PetriNetBuilder V N A) : List Nat := B.transitions.map TransitionObject.ref

/-- `this._transitions.add(…)`. -/
def added (B : PetriNetBuilder V N A) (o : TransitionObject V N A) : List (TransitionObject V N A) :=
  if o.ref ∈ B.refs then B.transitions else B.transitions ++ [o]

theorem added_nodup (B : PetriNetBuilder V N A) (o : TransitionObject V N A) :
    ((B.added o).map TransitionObject.ref).Nodup := by
  rw [added]
  split
  · exact B.refs_nodup
  next absent =>
    rw [List.map_append]
    refine List.nodup_append.mpr ⟨B.refs_nodup, List.nodup_singleton _, fun ref mem other single => ?_⟩
    rintro rfl
    exact absent (List.mem_singleton.mp single ▸ mem)

theorem added_lt (B : PetriNetBuilder V N A) (o : TransitionObject V N A) :
    ∀ ref ∈ (B.added o).map TransitionObject.ref, ref < max B.next (o.ref + 1) := by
  have old : ∀ ref ∈ B.transitions.map TransitionObject.ref, ref < max B.next (o.ref + 1) :=
    fun ref mem => lt_max_of_lt_left (B.refs_lt ref mem)
  rw [added]
  split
  · exact old
  next absent =>
    intro ref mem
    rw [List.map_append] at mem
    rcases List.mem_append.mp mem with mem | new
    · exact old ref mem
    · rw [List.mem_singleton.mp new]
      exact lt_max_of_lt_right (Nat.lt_succ_self _)

/-- Adds a transition object, and its places. -/
def transition (B : PetriNetBuilder V N A) (o : TransitionObject V N A) : PetriNetBuilder V N A :=
  { B with
    places := (collectedPlaces o.transition).foldl addPlace B.places
    transitions := B.added o
    next := max B.next (o.ref + 1)
    refs_nodup := B.added_nodup o
    refs_lt := B.added_lt o }

/-- Adds a transition that has just been built: a new object. -/
def addNew (B : PetriNetBuilder V N A) (b : BoundTransition V N A) : PetriNetBuilder V N A :=
  B.transition ⟨b, B.next⟩

theorem kept_nodup (B : PetriNetBuilder V N A) (p : TransitionObject V N A → Bool) :
    ((B.transitions.filter p).map TransitionObject.ref).Nodup :=
  (List.filter_sublist.map TransitionObject.ref).nodup B.refs_nodup

theorem kept_lt (B : PetriNetBuilder V N A) (p : TransitionObject V N A → Bool) :
    ∀ ref ∈ (B.transitions.filter p).map TransitionObject.ref, ref < B.next :=
  fun ref mem => B.refs_lt ref ((List.filter_sublist.map TransitionObject.ref).subset mem)

/-- `this._transitions.delete(…)`. -/
def delete (B : PetriNetBuilder V N A) (ref : Nat) : PetriNetBuilder V N A :=
  { B with
    transitions := B.transitions.filter fun o => o.ref ≠ ref
    refs_nodup := B.kept_nodup _
    refs_lt := B.kept_lt _ }

end PetriNetBuilder

/-! ## Subnets -/

/-- A subnet: its body and its interface.  A channel exposes a transition of the body, by its name. -/
structure SubnetDef (V N A : Type) where
  name : String
  places : List PlaceName
  transitions : List (BoundTransition V N A)
  terminals : List PlaceName
  ports : OrderedMap String PlaceName
  channels : OrderedMap String String

/-- A renamed copy of a subnet. -/
structure Instance (V N A : Type) where
  instancePrefix : String
  definition : SubnetDef V N A
  renamedPlaces : List PlaceName
  renamedTransitions : List (BoundTransition V N A)
  portHandles : OrderedMap String PlaceName
  channelHandles : OrderedMap String String

def quoted (names : List String) : String := String.intercalate ", " (names.map fun name => s!"'{name}'")

def rejectSubnetTerminals (sub : SubnetDef V N A) (operation : String) : Except Thrown Unit :=
  if sub.terminals = [] then .ok ()
  else
    raised (s!"{operation}: subnet '{sub.name}' declares terminal place(s) " ++ quoted sub.terminals ++
      ". Terminal places end the whole run and are a property of the composed net, not of a subnet body; " ++
      "declare them on the enclosing net instead (EXEC-042).")

/-- The remap that prefixes every place of a body. -/
def prefixRemap (places : List PlaceName) (pre : String) : Remap :=
  places.foldl (fun remap p => remap.set p (pre ++ "/" ++ p)) OrderedMap.empty

def validatePrefix (pre : String) : Except Thrown Unit :=
  if pre = "" then raised "SubnetDef.instantiate: prefix must be a non-empty string"
  else if '/' ∈ pre.toList then
    raised ("SubnetDef.instantiate: prefix must not contain '/' (reserved as the prefix separator per MOD-010); " ++
      s!"use compose(...) for nested instantiation. Got: '{pre}'")
  else .ok ()

/-- The new name of what an interface entry exposes. -/
def handleOf (kind target : String) (renamed : OrderedMap String String) (e : String × String) :
    Except Thrown (String × String) :=
  match renamed.get? e.2 with
  | some name => .ok (e.1, name)
  | none =>
    raised (s!"{kind} '{e.1}' references {target} '{e.2}' that was not found in the renamed body. " ++
      "This indicates a SubnetDef invariant violation.")

def toMap {K X : Type} [DecidableEq K] (entries : List (K × X)) : OrderedMap K X :=
  entries.foldl (fun known e => known.set e.1 e.2) OrderedMap.empty

/-- Rebuilds one transition of a body under a prefix. -/
def renameBound (pre : String) (remap : Remap) (b : BoundTransition V N A) :
    Except Thrown (BoundTransition V N A) := do
  let t ← rewriteTransition b.transition pre remap
  pure ⟨t, b.action⟩

/-- A renamed copy of the body, with handles for the interface. -/
def SubnetDef.instantiate (sub : SubnetDef V N A) (pre : String) : Except Thrown (Instance V N A) := do
  validatePrefix pre
  rejectSubnetTerminals sub "SubnetDef.instantiate"
  let remap := prefixRemap sub.places pre
  let renamed ← sub.transitions.mapM (renameBound pre remap)
  let places := (renamed.flatMap fun b => collectedPlaces b.transition).foldl addPlace remap.values
  let transitionRemap := toMap (sub.transitions.map fun b =>
    (b.transition.name, pre ++ "/" ++ b.transition.name))
  let ports ← sub.ports.entries.mapM (handleOf "Port" "place" remap)
  let channels ← sub.channels.entries.mapM (handleOf "Channel" "transition" transitionRemap)
  pure ⟨pre, sub, places, renamed, toMap ports, toMap channels⟩

/-! ## Bindings -/

/-- One call on the bindings of a composition. -/
inductive Binding (V N A : Type)
  | port (portName : String) (callerPlace : PlaceName)
  | channel (channelName : String) (callerTransition : TransitionObject V N A)

structure ComposeBindings (V N A : Type) where
  portBindings : OrderedMap String PlaceName
  channelBindings : OrderedMap String (TransitionObject V N A)

def ComposeBindings.record (b : ComposeBindings V N A) : Binding V N A → Except Thrown (ComposeBindings V N A)
  | .port portName callerPlace =>
    if (b.portBindings.get? portName).isSome then raised s!"Port '{portName}' is already bound"
    else .ok { b with portBindings := b.portBindings.set portName callerPlace }
  | .channel channelName callerTransition =>
    if (b.channelBindings.get? channelName).isSome then raised s!"Channel '{channelName}' is already bound"
    else .ok { b with channelBindings := b.channelBindings.set channelName callerTransition }

/-! ## Composition -/

/-- `rejectPortBindingCollision`, over the inputs. -/
def rejectInputCollision (pre : String) (t : Transition V N) (mergeMap : Remap)
    (portOf : OrderedMap PlaceName String) (byHost : OrderedMap PlaceName PlaceName) : List In → Except Thrown Unit
  | [] => .ok ()
  | spec :: specs =>
    let original := spec.place
    let host := resolve original mergeMap
    match byHost.get? host with
    | some prior =>
      raised (s!"ports '{(portOf.get? prior).getD prior}' and '{(portOf.get? original).getD original}' of instance " ++
        s!"'{pre}' are both bound to host place '{host}'; transition '{t.name}' would consume from '{host}' " ++
        "through two input arcs. Bind them to distinct places or use one port.")
    | none => rejectInputCollision pre t mergeMap portOf (byHost.set host original) specs

/-- `rejectPortBindingCollision`, over the outputs. -/
def rejectOutputCollision (pre : String) (t : Transition V N) (mergeMap : Remap)
    (portOf : OrderedMap PlaceName String) (spec : Out) : Except Thrown Unit :=
  match duplicateInBranch spec fun p => resolve p mergeMap with
  | none => .ok ()
  | some dup =>
    if dup.first = dup.second then .ok ()
    else
      raised (s!"ports '{(portOf.get? dup.first).getD dup.first}' and '{(portOf.get? dup.second).getD dup.second}' " ++
        s!"of instance '{pre}' are both bound to host place '{dup.name}'; transition '{t.name}' would produce " ++
        s!"into '{dup.name}' twice in one AND branch. Outputs are sets (IO-015); " ++
        "bind them to distinct places or use one port.")

def rejectPortBindingCollision (pre : String) (t : Transition V N) (mergeMap : Remap)
    (portOf : OrderedMap PlaceName String) : Except Thrown Unit := do
  rejectInputCollision pre t mergeMap portOf OrderedMap.empty t.inputSpecs
  match t.outputSpec with
  | none => pure ()
  | some spec => rejectOutputCollision pre t mergeMap portOf spec

/-- A transition of the instance on the places of the host. -/
def rewriteBound (pre : String) (mergeMap : Remap) (portOf : OrderedMap PlaceName String)
    (b : BoundTransition V N A) : Except Thrown (BoundTransition V N A) := do
  rejectPortBindingCollision pre b.transition mergeMap portOf
  let t ← substitutePlaces b.transition mergeMap
  pure ⟨t, b.action⟩

/-- The working map: the rewritten transitions of the instance by name. -/
def stage (inst : Instance V N A) (mergeMap : Remap) : Except Thrown (OrderedMap String (BoundTransition V N A)) :=
  let portOf := toMap (inst.portHandles.entries.map fun e => (e.2, e.1))
  inst.renamedTransitions.foldlM (fun rewrittenByName b => do
    let rewritten ← rewriteBound inst.instancePrefix mergeMap portOf b
    pure (rewrittenByName.set b.transition.name rewritten)) OrderedMap.empty

/-- Remembers the port places a composition has replaced. -/
def retirePort (inst : Instance V N A) (mergeMap : Remap) (retired : OrderedMap PlaceName RetiredPort)
    (e : String × PlaceName) : OrderedMap PlaceName RetiredPort :=
  match mergeMap.get? e.2 with
  | none => retired
  | some host =>
    if host ≠ e.2 ∧ (retired.get? e.2).isNone then retired.set e.2 ⟨e.1, inst.instancePrefix, host⟩ else retired

/-- The builder, and what is left of the working map. -/
structure Merging (V N A : Type) where
  builder : PetriNetBuilder V N A
  rewrittenByName : OrderedMap String (BoundTransition V N A)

def unknownChannelMessage (inst : Instance V N A) (channelName : String) : String :=
  s!"compose: no channel named '{channelName}' on subnet '{inst.definition.name}' (instance prefix " ++
    s!"'{inst.instancePrefix}'). Known channels: [" ++ String.intercalate ", " inst.definition.channels.keys ++ "]"

def lostChannelMessage (channelName transitionName : String) : String :=
  s!"compose: channel '{channelName}' resolved to a transition '{transitionName}' that is not present in the " ++
    "renamed body. This indicates a SubnetDef invariant violation."

/-- Merges the transition of a channel into the caller's. -/
def mergeChannel (showMs : Ms → String) (inst : Instance V N A) (state : Merging V N A)
    (e : String × TransitionObject V N A) : Except Thrown (Merging V N A) :=
  match inst.channelHandles.get? e.1 with
  | none => raised (unknownChannelMessage inst e.1)
  | some transitionName =>
    match state.rewrittenByName.get? transitionName with
    | none => raised (lostChannelMessage e.1 transitionName)
    | some rewritten => do
      let caller := e.2
      let merged ← mergeTransitions showMs caller.transition rewritten.transition caller.transition.name
      pure
        { builder := (state.builder.delete caller.ref).addNew
            ⟨merged, composeActions caller.action rewritten.action⟩
          rewrittenByName := state.rewrittenByName.delete transitionName }

/-- The shared end of every composition of an instance. -/
def applyComposition (showMs : Ms → String) (B : PetriNetBuilder V N A) (inst : Instance V N A) (mergeMap : Remap)
    (channelBindings : OrderedMap String (TransitionObject V N A)) : Except Thrown (PetriNetBuilder V N A) := do
  rejectSubnetTerminals inst.definition "compose(Instance)"
  let rewrittenByName ← stage inst mergeMap
  let B := { B with retiredPorts := inst.portHandles.entries.foldl (retirePort inst mergeMap) B.retiredPorts }
  let merged ← channelBindings.entries.foldlM (mergeChannel showMs inst) ⟨B, rewrittenByName⟩
  pure (merged.rewrittenByName.values.foldl PetriNetBuilder.addNew merged.builder)

/-- The host place of a bound port. -/
def bindPortPlace (inst : Instance V N A) (mergeMap : Remap) (e : String × PlaceName) : Except Thrown Remap :=
  if (inst.definition.ports.get? e.1).isNone then
    raised (s!"compose: no port named '{e.1}' on subnet '{inst.definition.name}' (instance prefix " ++
      s!"'{inst.instancePrefix}'). Known ports: [" ++ String.intercalate ", " inst.definition.ports.keys ++ "]")
  else
    match inst.portHandles.get? e.1 with
    | none => raised s!"No port named '{e.1}' in instance '{inst.instancePrefix}'"
    | some ifacePlace => .ok (mergeMap.set ifacePlace e.2)

def composeInternal (showMs : Ms → String) (B : PetriNetBuilder V N A) (inst : Instance V N A)
    (portMappings : OrderedMap String PlaceName) (channelBindings : OrderedMap String (TransitionObject V N A)) :
    Except Thrown (PetriNetBuilder V N A) := do
  let mergeMap ← portMappings.entries.foldlM (bindPortPlace inst) OrderedMap.empty
  applyComposition showMs B inst mergeMap channelBindings

/-- What is left of a name after a prefix. -/
def afterPrefix? (pre name : String) : Option String :=
  if pre.toList <+: name.toList then some (String.ofList (name.toList.drop pre.length)) else none

/-- The host place that a place of the instance is inferred to be. -/
def inferPlace (B : PetriNetBuilder V N A) (inst : Instance V N A) (mergeMap : Remap) (renamed : PlaceName) : Remap :=
  match afterPrefix? (inst.instancePrefix ++ "/") renamed with
  | none => mergeMap
  | some originalName => if originalName ∈ B.places then mergeMap.set renamed originalName else mergeMap

def sortedNames (names : List String) : String :=
  String.intercalate ", " (names.insertionSort fun a b => a ≤ b)

/-- Composition that binds each port to its own place, or infers the places where there is no port. -/
def composeAuto (showMs : Ms → String) (B : PetriNetBuilder V N A) (inst : Instance V N A) :
    Except Thrown (PetriNetBuilder V N A) :=
  if inst.definition.channels.entries ≠ [] then
    raised (s!"compose(Instance): subnet '{inst.definition.name}' (instance prefix '{inst.instancePrefix}') declares " ++
      "channels [" ++ sortedNames inst.definition.channels.keys ++
      "]; auto-compose does not bind channels. Use compose(instance, bind => bind.bindChannel(...)) with " ++
      "explicit channel bindings.")
  else if inst.definition.ports.entries ≠ [] then
    composeInternal showMs B inst inst.definition.ports OrderedMap.empty
  else
    applyComposition showMs B inst (inst.renamedPlaces.foldl (inferPlace B inst) OrderedMap.empty) OrderedMap.empty

/-- The body places that the host has too. -/
def sharedPlaces (B : PetriNetBuilder V N A) (sub : SubnetDef V N A) : Remap :=
  sub.places.foldl (fun mergeMap p => if p ∈ B.places then mergeMap.set p p else mergeMap) OrderedMap.empty

def addSubstituted (mergeMap : Remap) (B : PetriNetBuilder V N A) (b : BoundTransition V N A) :
    Except Thrown (PetriNetBuilder V N A) := do
  let t ← substitutePlaces b.transition mergeMap
  pure (B.addNew ⟨t, b.action⟩)

def rejectChannels (sub : SubnetDef V N A) : Except Thrown Unit :=
  if sub.channels.entries = [] then .ok ()
  else
    raised (s!"compose(SubnetDef): subnet '{sub.name}' declares channels [" ++ sortedNames sub.channels.keys ++
      "]; direct composition does not bind channels. Use def.instantiate(prefix) + " ++
      "compose(instance, bind => bind.bindChannel(...)).")

def rejectCollidingNames (B : PetriNetBuilder V N A) (sub : SubnetDef V N A) : Except Thrown Unit :=
  match sub.transitions.find? fun b => b.transition.name ∈ B.transitions.map fun o => o.transition.name with
  | none => .ok ()
  | some b =>
    raised (s!"compose(SubnetDef): transition '{b.transition.name}' from subnet '{sub.name}' collides with a " ++
      s!"transition already in net '{B.name}'. Direct composition merges by name; for independent copies use " ++
      "def.instantiate(prefix) + compose(instance).")

/-- Composition without instantiation: the body joins under its own names. -/
def composeDirect (B : PetriNetBuilder V N A) (sub : SubnetDef V N A) : Except Thrown (PetriNetBuilder V N A) := do
  rejectSubnetTerminals sub "compose(SubnetDef)"
  rejectChannels sub
  rejectCollidingNames B sub
  sub.transitions.foldlM (addSubstituted (sharedPlaces B sub)) (sub.places.foldl PetriNetBuilder.place B)

/-- The arguments of `compose`. -/
inductive ComposeArgs (V N A : Type)
  | direct (sub : SubnetDef V N A)
  | auto (inst : Instance V N A)
  | mapped (inst : Instance V N A) (portMappings : OrderedMap String PlaceName)
  | bound (inst : Instance V N A) (bindings : List (Binding V N A))

def compose (showMs : Ms → String) (B : PetriNetBuilder V N A) :
    ComposeArgs V N A → Except Thrown (PetriNetBuilder V N A)
  | .direct sub => composeDirect B sub
  | .auto inst => composeAuto showMs B inst
  | .mapped inst portMappings => composeInternal showMs B inst portMappings OrderedMap.empty
  | .bound inst bindings => do
    let b ← bindings.foldlM ComposeBindings.record ⟨OrderedMap.empty, OrderedMap.empty⟩
    composeInternal showMs B inst b.portBindings b.channelBindings

end LibPetri.Composition
