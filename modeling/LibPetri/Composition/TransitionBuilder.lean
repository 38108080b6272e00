import LibPetri.Verification.OutputChecks

/-! # The transition builder

Every transition is built here, hand-written or rewritten: the checks on its arcs, its output specification
and its match, in the order of the source, so that the first failure names what is wrong.
-/

namespace LibPetri.Composition

open LibPetri.Basis LibPetri.Core LibPetri.Verification

variable {V N : Type}

/-! ## What an output specification is checked for -/

mutual

/-- The number of timeout nodes. -/
def countTimeouts : Out → Nat
  | .place _ => 0
  | .forwardInput _ _ => 0
  | .timeout _ child => 1 + countTimeouts child
  | .and children => countTimeoutsAll children
  | .xor children => countTimeoutsAll children

def countTimeoutsAll : List Out → Nat
  | [] => 0
  | child :: children => countTimeouts child + countTimeoutsAll children

end

mutual

def containsXor : Out → Bool
  | .place _ => false
  | .forwardInput _ _ => false
  | .xor _ => true
  | .timeout _ child => containsXor child
  | .and children => containsXorSome children

def containsXorSome : List Out → Bool
  | [] => false
  | child :: children => containsXor child || containsXorSome children

end

mutual

/-- The child of a timeout holds an `xor`. -/
def hasXorInTimeoutChild : Out → Bool
  | .place _ => false
  | .forwardInput _ _ => false
  | .timeout _ child => containsXor child
  | .and children => hasXorInTimeoutChildSome children
  | .xor children => hasXorInTimeoutChildSome children

def hasXorInTimeoutChildSome : List Out → Bool
  | [] => false
  | child :: children => hasXorInTimeoutChild child || hasXorInTimeoutChildSome children

end

mutual

/-- The first forward outside a timeout: its source and its target. -/
def bareForwardInput : Out → Option (PlaceName × PlaceName)
  | .forwardInput source target => some (source, target)
  | .place _ => none
  | .timeout _ _ => none
  | .and children => bareForwardInputFirst children
  | .xor children => bareForwardInputFirst children

def bareForwardInputFirst : List Out → Option (PlaceName × PlaceName)
  | [] => none
  | child :: children => (bareForwardInput child).or (bareForwardInputFirst children)

end

mutual

/-- The forwards of a specification: their sources. -/
def findForwardInputs : Out → List PlaceName
  | .forwardInput source _ => [source]
  | .and children => findForwardInputsAll children
  | .xor children => findForwardInputsAll children
  | .timeout _ child => findForwardInputs child
  | .place _ => []

def findForwardInputsAll : List Out → List PlaceName
  | [] => []
  | child :: children => findForwardInputs child ++ findForwardInputsAll children

end

/-! ## Messages -/

/-- `new Error(…)`. -/
def raised {α : Type} (message : String) : Except Thrown α := .error (.error "Error" message)

def duplicateInputArcMessage (transitionName : String) (placeName : PlaceName) : String :=
  s!"Transition '{transitionName}' declares two input arcs on place '{placeName}'. " ++
    "Duplicate input places have no coherent consumption semantics and are rejected " ++
    "(CORE-030). Use a single arc with exactly(n) / atLeast(n) instead."

def requiredCountMessage (transitionName : String) (placeName : PlaceName) (required : Nat) : String :=
  s!"input '{placeName}' of transition '{transitionName}' requires {required} tokens; " ++
    "exactly(n) and atLeast(n) need n >= 1 (IO-002, IO-004)"

def duplicateOutputPlaceMessage (transitionName : String) (placeName : PlaceName) : String :=
  s!"output spec of transition '{transitionName}' names place '{placeName}' twice in one AND branch; " ++
    "outputs are sets (IO-015) — a weighted output is not supported, add a second place or a follow-up transition"

def timeoutCountMessage (transitionName : String) (count : Nat) : String :=
  s!"output spec of transition '{transitionName}' has {count} Timeout nodes; " ++
    "an output spec has at most one, nested or not (IO-013)"

def xorInTimeoutMessage (transitionName : String) : String :=
  s!"output spec of transition '{transitionName}' has a Xor node inside the child of its Timeout node; " ++
    "the timeout outcome deposits one fixed set of places (IO-013)"

def bareForwardInputMessage (transitionName : String) (source target : PlaceName) : String :=
  s!"output spec of transition '{transitionName}' uses ForwardInput('{source}', '{target}') " ++
    "outside the child of a Timeout node; a forward deposits only on the timeout outcome (IO-014)"

def forwardSourceMessage (transitionName : String) (source : PlaceName) : String :=
  s!"Transition '{transitionName}': ForwardInput references non-input place '{source}'"

def ambiguousOutputMessage (transitionName : String) (amb : AmbiguousBranches) : String :=
  s!"output spec of transition '{transitionName}' is ambiguous: output branches {amb.i} and {amb.j} " ++
    "both claim \x7b" ++ String.intercalate ", " amb.places ++
    "\x7d; no write can tell them apart (IO-012)"

def duplicateKeyMessage (transitionName : String) (place : PlaceName) : String :=
  s!"Transition '{transitionName}': MatchSpec correlates input place '{place}' twice. " ++
    "A match names each correlated input once (NU-020); the input's cardinality sets how many tokens " ++
    "of the name it takes."

def keyPlaceMessage (transitionName : String) (place : PlaceName) : String :=
  s!"Transition '{transitionName}': MatchSpec correlates non-input place '{place}'"

def duplicateRelayMessage (transitionName : String) (place : PlaceName) : String :=
  s!"Transition '{transitionName}': relay target '{place}' is declared twice (NU-054)"

def relayPlaceMessage (transitionName : String) (place : PlaceName) : String :=
  s!"Transition '{transitionName}': relay target '{place}' is not an output of the transition (NU-054)"

/-! ## The builder -/

/-- What a builder has been given.  Its timing has passed the checks of a timing already. -/
structure TransitionDraft (V N : Type) where
  name : String
  inputSpecs : List In
  outputSpec : Option Out
  inhibitors : List PlaceName
  reads : List PlaceName
  resets : List PlaceName
  timing : Timing
  timing_valid : timing.Valid
  priority : Int
  placeAlias : List (PlaceName × PlaceName)
  matchSpec : Option (MatchSpec V N)

/-- What a transition was built from. -/
def draftOf (t : Transition V N) : TransitionDraft V N :=
  ⟨t.name, t.inputSpecs, t.outputSpec, t.inhibitors, t.reads, t.resets, t.timing, t.timing_valid, t.priority,
    t.placeAlias, t.matchSpec⟩

/-- The first name that is `seen` or repeated. -/
def firstRepeated (seen : List PlaceName) : List PlaceName → Option PlaceName
  | [] => none
  | p :: ps => if p ∈ seen then some p else firstRepeated (seen ++ [p]) ps

def checkInputs (name : String) (seen : List PlaceName) : List In → Except Thrown Unit
  | [] => .ok ()
  | spec :: specs =>
    if spec.place ∈ seen then raised (duplicateInputArcMessage name spec.place)
    else if 1 ≤ spec.requiredCount then checkInputs name (seen ++ [spec.place]) specs
    else raised (requiredCountMessage name spec.place spec.requiredCount)

def checkOutput (name : String) (inputPlaceNames : List PlaceName) (spec : Out) : Except Thrown Unit := do
  match duplicateInBranch spec id with
  | some dup => raised (duplicateOutputPlaceMessage name dup.name)
  | none => pure ()
  if 1 < countTimeouts spec then raised (timeoutCountMessage name (countTimeouts spec))
  if hasXorInTimeoutChild spec then raised (xorInTimeoutMessage name)
  match bareForwardInput spec with
  | some (source, target) => raised (bareForwardInputMessage name source target)
  | none => pure ()
  match (findForwardInputs spec).find? fun source => source ∉ inputPlaceNames with
  | some source => raised (forwardSourceMessage name source)
  | none => pure ()
  match ← ambiguousBranches spec with
  | some ambiguous => raised (ambiguousOutputMessage name ambiguous)
  | none => pure ()

def checkKeys (name : String) (inputPlaceNames : List PlaceName) (keys : List PlaceName) :
    Except Thrown Unit :=
  match firstRepeated [] keys with
  | some place => raised (duplicateKeyMessage name place)
  | none =>
    match keys.find? fun place => place ∉ inputPlaceNames with
    | some place => raised (keyPlaceMessage name place)
    | none => .ok ()

def checkRelays (name : String) (outputNames : List PlaceName) (seen : List PlaceName) :
    List PlaceName → Except Thrown Unit
  | [] => .ok ()
  | place :: relays =>
    if place ∈ seen then raised (duplicateRelayMessage name place)
    else if place ∈ outputNames then checkRelays name outputNames (seen ++ [place]) relays
    else raised (relayPlaceMessage name place)

def checkMatch (d : TransitionDraft V N) (ms : MatchSpec V N) : Except Thrown Unit := do
  checkKeys d.name (d.inputSpecs.map In.place) (ms.keys.map MatchKey.place)
  checkRelays d.name ((d.outputSpec.map Out.collectPlaces).getD []) [] (ms.relays.map MatchKey.place)

/-! ## What the checks establish -/

theorem checkInputs_nodup {name : String} {specs : List In} {seen : List PlaceName}
    (h : checkInputs name seen specs = .ok ()) :
    (specs.map In.place).Nodup ∧ (∀ spec ∈ specs, 1 ≤ spec.requiredCount) ∧
      ∀ p ∈ seen, p ∉ specs.map In.place := by
  induction specs generalizing seen with
  | nil => exact ⟨List.nodup_nil, nofun, fun _ _ => List.not_mem_nil⟩
  | cons spec specs ih =>
    rw [checkInputs] at h
    split at h
    · cases h
    split at h
    next fresh positive =>
      obtain ⟨nodup, required, apart⟩ := ih h
      have own : spec.place ∉ specs.map In.place := apart _ (by simp)
      refine ⟨List.nodup_cons.mpr ⟨own, nodup⟩, ?_, fun p mem inside => ?_⟩
      · intro spec' mem
        rcases List.mem_cons.mp mem with rfl | mem
        · exact positive
        · exact required spec' mem
      · rcases List.mem_cons.mp inside with rfl | inside
        · exact fresh mem
        · exact apart p (List.mem_append_left _ mem) inside
    · cases h

theorem firstRepeated_none {places seen : List PlaceName} (h : firstRepeated seen places = none) :
    places.Nodup ∧ ∀ p ∈ seen, p ∉ places := by
  induction places generalizing seen with
  | nil => exact ⟨List.nodup_nil, fun _ _ => List.not_mem_nil⟩
  | cons p places ih =>
    rw [firstRepeated] at h
    split at h
    · cases h
    next fresh =>
      obtain ⟨nodup, apart⟩ := ih h
      refine ⟨List.nodup_cons.mpr ⟨apart p (by simp), nodup⟩, fun q mem inside => ?_⟩
      rcases List.mem_cons.mp inside with rfl | inside
      · exact fresh mem
      · exact apart q (List.mem_append_left _ mem) inside

theorem checkKeys_ok {name : String} {inputPlaceNames keys : List PlaceName}
    (h : checkKeys name inputPlaceNames keys = .ok ()) :
    keys.Nodup ∧ ∀ p ∈ keys, p ∈ inputPlaceNames := by
  rw [checkKeys] at h
  split at h
  · cases h
  next distinct =>
    split at h
    · cases h
    next inside =>
      refine ⟨(firstRepeated_none distinct).1, fun p mem => ?_⟩
      simpa using List.find?_eq_none.mp inside p mem

def checkMatchSpec (d : TransitionDraft V N) : Option (MatchSpec V N) → Except Thrown Unit
  | none => .ok ()
  | some ms => checkMatch d ms

def checkOutputSpec (d : TransitionDraft V N) : Option Out → Except Thrown Unit
  | none => .ok ()
  | some spec => checkOutput d.name (d.inputSpecs.map In.place) spec

theorem checkMatchSpec_ok {d : TransitionDraft V N} {found : Option (MatchSpec V N)}
    (h : checkMatchSpec d found = .ok ()) : ∀ ms ∈ found,
      (ms.keys.map MatchKey.place).Nodup ∧ ∀ p ∈ ms.keys.map MatchKey.place, p ∈ d.inputSpecs.map In.place := by
  rintro ms rfl
  obtain ⟨_, keys, _⟩ := exists_of_bind_eq_ok h
  exact checkKeys_ok keys

theorem keys_nodup_of_ok {d : TransitionDraft V N} (h : checkMatchSpec d d.matchSpec = .ok ()) :
    ∀ ms ∈ d.matchSpec, (ms.keys.map MatchKey.place).Nodup :=
  fun ms mem => (checkMatchSpec_ok h ms mem).1

theorem keys_inputs_of_ok {d : TransitionDraft V N} (h : checkMatchSpec d d.matchSpec = .ok ()) :
    ∀ ms ∈ d.matchSpec, ∀ k ∈ ms.keys, k.place ∈ d.inputSpecs.map In.place :=
  fun ms mem k key => (checkMatchSpec_ok h ms mem).2 k.place (List.mem_map_of_mem key)

/-- `TransitionBuilder.build`. -/
def build (d : TransitionDraft V N) : Except Thrown (Transition V N) :=
  match inputs : checkInputs d.name [] d.inputSpecs with
  | .error e => .error e
  | .ok () =>
    match checkOutputSpec d d.outputSpec with
    | .error e => .error e
    | .ok () =>
      match keys : checkMatchSpec d d.matchSpec with
      | .error e => .error e
      | .ok () =>
        .ok
          { name := d.name, inputSpecs := d.inputSpecs, outputSpec := d.outputSpec
            inhibitors := d.inhibitors, reads := d.reads, resets := d.resets
            timing := d.timing, priority := d.priority, placeAlias := d.placeAlias
            matchSpec := d.matchSpec
            inputs_nodup := (checkInputs_nodup inputs).1
            required_pos := (checkInputs_nodup inputs).2.1
            timing_valid := d.timing_valid
            keys_nodup := keys_nodup_of_ok keys
            keys_inputs := keys_inputs_of_ok keys }

/-- A build gives what it was told to build. -/
theorem draftOf_build {d : TransitionDraft V N} {t : Transition V N} (h : build d = .ok t) :
    draftOf t = d := by
  unfold build at h
  split at h
  · cases h
  · split at h
    · cases h
    · split at h
      · cases h
      · cases h
        rfl

end LibPetri.Composition
