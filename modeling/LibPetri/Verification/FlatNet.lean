import LibPetri.Verification.StateClassGraph

/-! # Flat nets

A net flattened into vectors over place indices, for the analyses that reason about counts.  Places
are sorted by name.  Every way a firing of a transition can end has its own flat transition.
-/

namespace LibPetri.Verification

open LibPetri.Basis LibPetri.Core LibPetri.Runtime

/-- A transition over `P` places.  `source` is what it was flattened from. -/
structure FlatTransition (S : Type) (P : Nat) where
  name : String
  source : S
  /-- Which outcome of the source, `none` when it has only one. -/
  branchIndex : Option Nat
  preVector : Fin P → Nat
  postVector : Fin P → Nat
  inhibitorPlaces : List (Fin P)
  readPlaces : List (Fin P)
  resetPlaces : List (Fin P)
  /-- The places drained by an `all` or `atLeast` input. -/
  consumeAll : Fin P → Bool
  reapable : Bool

/-- A flattened net: caps and injection bounds by environment place, an absent injection bound
`none`.  Only an injected place is capped. -/
structure FlatNet (S : Type) where
  places : List PlaceName
  transitions : List (FlatTransition S places.length)
  environmentBounds : OrderedMap PlaceName Nat
  environmentInjection : OrderedMap PlaceName (Option Nat)
  places_nodup : places.Nodup
  bounds_injected : ∀ name ∈ environmentBounds.keys, name ∈ environmentInjection.keys

namespace FlatNet

variable {S : Type} (flatNet : FlatNet S)

/-- The index of a place. -/
abbrev Index : Type := Fin flatNet.places.length

/-- `placeIndex.get(name)`. -/
def placeIndex (name : PlaceName) : Option flatNet.Index := flatNet.places.finIdxOf? name

def placeAt (p : flatNet.Index) : PlaceName := flatNet.places[p]

/-- The position of a flat transition. -/
abbrev Position : Type := Fin flatNet.transitions.length

def transition (t : flatNet.Position) : FlatTransition S flatNet.places.length :=
  flatNet.transitions[t]

theorem transition_mem (t : flatNet.Position) : flatNet.transition t ∈ flatNet.transitions :=
  List.getElem_mem _

theorem mem_transitions {ft : FlatTransition S flatNet.places.length} :
    ft ∈ flatNet.transitions ↔ ∃ t, flatNet.transition t = ft := by
  rw [List.mem_iff_getElem]
  exact ⟨fun ⟨i, lt, same⟩ => ⟨⟨i, lt⟩, same⟩, fun ⟨⟨i, lt⟩, same⟩ => ⟨i, lt, same⟩⟩

@[simp] theorem placeIndex_placeAt (p : flatNet.Index) :
    flatNet.placeIndex (flatNet.placeAt p) = some p := by
  refine List.finIdxOf?_eq_some_iff.mpr ⟨rfl, fun j before same => ?_⟩
  exact before.ne (Fin.ext (flatNet.places_nodup.getElem_inj_iff.mp same))

theorem placeIndex_eq_some {name : PlaceName} {p : flatNet.Index} :
    flatNet.placeIndex name = some p ↔ flatNet.placeAt p = name := by
  constructor
  · exact fun found => (List.finIdxOf?_eq_some_iff.mp found).1
  · rintro rfl
    exact flatNet.placeIndex_placeAt p

theorem placeAt_injective : Function.Injective flatNet.placeAt := fun p q same =>
  Option.some.inj ((flatNet.placeIndex_placeAt p).symm.trans
    (same ▸ flatNet.placeIndex_placeAt q))

theorem placeIndex_isSome {name : PlaceName} :
    (flatNet.placeIndex name).isSome ↔ name ∈ flatNet.places := by
  rw [placeIndex, List.isSome_finIdxOf?, List.contains_iff_mem]

end FlatNet

/-! ## Flattening -/

section Flatten

variable {V N : Type} (net : PetriNet V N)

/-- Every place of a net: the declared ones, and those of the arcs. -/
def allPlaces : List PlaceName :=
  net.places ++ net.transitions.flatMap fun t =>
    t.inputSpecs.map In.place ++ t.outputPlaces ++ t.inhibitors ++ t.reads ++ t.resets

/-- The places of the flat net, in code-point order. -/
def flatPlaces : List PlaceName := (allPlaces net).dedup.insertionSort (· ≤ ·)

theorem mem_flatPlaces {p : PlaceName} : p ∈ flatPlaces net ↔ p ∈ allPlaces net := by
  rw [flatPlaces, (List.perm_insertionSort _ _).mem_iff, List.mem_dedup]

theorem flatPlaces_nodup : (flatPlaces net).Nodup :=
  (List.perm_insertionSort _ _).nodup_iff.mpr (List.nodup_dedup _)

/-- `all` and `atLeast` consume everything. -/
def consumesAll : In → Bool
  | .one _ => false
  | .exactly _ _ => false
  | .all _ => true
  | .atLeast _ _ => true

/-- The tokens a forward from `source` stands for: of a drained input, its minimum. -/
def minimumOf (t : Transition V N) (source : PlaceName) : Nat :=
  match t.inputSpecs.find? fun s => s.place = source with
  | none => 0
  | some spec => spec.requiredCount

/-- `vector[idx] = put(vector[idx])` at the index of `name`, where it has one. -/
def setAt {β : Type} (places : List PlaceName) (vector : Fin places.length → β) (name : PlaceName)
    (put : β → β) : Fin places.length → β :=
  match places.finIdxOf? name with
  | none => vector
  | some idx => Function.update vector idx (put (vector idx))

variable {net} in
/-- The flat transition of one outcome of `t`, the `branchIdx`-th of `branches`. -/
def flatTransition (places : List PlaceName) (reapable : Transition V N → Bool)
    (t : NetTransition net) (branches branchIdx : Nat) (outcome : Outcome) :
    FlatTransition (NetTransition net) places.length :=
  let transition := transitionAt t
  { name := if 1 < branches then s!"{transition.name}_b{branchIdx}" else transition.name
    source := t
    branchIndex := if 1 < branches then some branchIdx else none
    preVector := transition.inputSpecs.foldl (fun preVector inSpec =>
      setAt places preVector inSpec.place fun _ => inSpec.requiredCount) fun _ => 0
    postVector := outcome.deposits.foldl (fun postVector d =>
      setAt places postVector d.1 fun count =>
        count + depositCount (minimumOf transition) d.2) fun _ => 0
    inhibitorPlaces := transition.inhibitors.filterMap places.finIdxOf?
    readPlaces := transition.reads.filterMap places.finIdxOf?
    resetPlaces := transition.resets.filterMap places.finIdxOf?
    consumeAll := transition.inputSpecs.foldl (fun consumeAll inSpec =>
      setAt places consumeAll inSpec.place fun all => all || consumesAll inSpec) fun _ => false
    reapable := reapable transition }

def flatTransitions (reapable : Transition V N → Bool) :
    List (FlatTransition (NetTransition net) (flatPlaces net).length) :=
  (List.finRange net.transitions.length).flatMap fun t =>
    (outcomes (transitionAt t)).mapIdx
      (flatTransition (flatPlaces net) reapable t (outcomes (transitionAt t)).length)

/-- `for (const p of places) map.set(p, value)`. -/
def setAll {α : Type} (places : List PlaceName) (value : α) : OrderedMap PlaceName α :=
  places.foldl (fun map p => map.set p value) OrderedMap.empty

theorem mem_keys_setAll {α : Type} {value : α} {places : List PlaceName} {p : PlaceName} :
    p ∈ (setAll places value).keys ↔ p ∈ places := by
  have folded (map : OrderedMap PlaceName α) :
      p ∈ (places.foldl (fun map p => map.set p value) map).keys ↔ p ∈ map.keys ∨ p ∈ places := by
    induction places generalizing map with
    | nil => simp
    | cons q places ih =>
      have kept : p ∈ (map.set q value).keys ↔ p ∈ map.keys ∨ p = q := by
        rw [OrderedMap.keys_set]
        split
        next present => exact ⟨.inl, fun | .inl mem => mem | .inr same => same ▸ present⟩
        next => simp
      rw [List.foldl_cons, ih, kept, List.mem_cons, or_assoc]
  exact (folded _).trans (or_iff_right List.not_mem_nil)

theorem nothing_capped (injection : OrderedMap PlaceName (Option Nat)) :
    ∀ name ∈ (OrderedMap.empty : OrderedMap PlaceName Nat).keys, name ∈ injection.keys :=
  fun _ mem => absurd mem List.not_mem_nil

theorem nothing_injected : ∀ name ∈ (OrderedMap.empty : OrderedMap PlaceName Nat).keys,
    name ∈ (OrderedMap.empty : OrderedMap PlaceName (Option Nat)).keys :=
  nothing_capped _

theorem setAll_capped (places : List PlaceName) (maxTokens : Nat) :
    ∀ name ∈ (setAll places maxTokens).keys, name ∈ (setAll places (some maxTokens)).keys :=
  fun _ mem => mem_keys_setAll.mpr (mem_keys_setAll.mp mem)

def flatten (environment : Environment) (reapable : Transition V N → Bool) :
    Except Thrown (FlatNet (NetTransition net)) :=
  let flat (environmentBounds : OrderedMap PlaceName Nat)
      (environmentInjection : OrderedMap PlaceName (Option Nat))
      (bounds_injected : ∀ name ∈ environmentBounds.keys, name ∈ environmentInjection.keys) :
      FlatNet (NetTransition net) :=
    { places := flatPlaces net
      transitions := flatTransitions net reapable
      environmentBounds, environmentInjection
      places_nodup := flatPlaces_nodup net
      bounds_injected }
  match environment.mode with
  | .alwaysAvailable =>
    .ok (flat OrderedMap.empty (setAll environment.places none) (nothing_capped _))
  | .bounded maxTokens =>
    .ok (flat (setAll environment.places maxTokens) (setAll environment.places (some maxTokens))
      (setAll_capped _ _))
  | .ignore => .ok (flat OrderedMap.empty OrderedMap.empty (nothing_capped _))
  | .arrivals _ _ =>
    if environment.places = [] then .ok (flat OrderedMap.empty OrderedMap.empty (nothing_capped _))
    else .error (arrivalsNotModelled "flatten")

end Flatten

end LibPetri.Verification
