import LibPetri.Basis.Bitset
import LibPetri.Core.Net

/-! # The compiled net

Places are numbered in the order the net first names them, transitions in declaration order.  Masks,
reverse index and restart thresholds are read off the numbered net.
-/

namespace LibPetri.Runtime

open LibPetri.Basis LibPetri.Core

variable {V N : Type} (net : PetriNet V N)

namespace CompiledNet

/-- The places the arcs of a transition name. -/
def arcPlaces (t : Transition V N) : List PlaceName :=
  t.inputSpecs.map In.place ++ t.reads ++ t.inhibitors ++ t.resets

/-- Every place, in the order of its number. -/
def placesById : List PlaceName :=
  ((net.transitions.flatMap fun t => arcPlaces t ++ t.outputPlaces) ++ net.places).eraseDups

def placeCount : Nat := (placesById net).length

def transitionCount : Nat := net.transitions.length

/-- A transition by its number. -/
abbrev Tid : Type := Fin (transitionCount net)

def place (pid : Nat) : PlaceName := (placesById net).getD pid ""

variable {net} in
def transition (tid : Tid net) : Transition V N := net.transitions[tid]

/-- The number of a place the net knows. -/
def tryPlaceId (place : PlaceName) : Option Nat := (placesById net).idxOf? place

/-- The number of a place an arc names. -/
def placeId (place : PlaceName) : Nat := (placesById net).idxOf place

variable {net}

/-- The transitions whose enablement depends on a place, and those that reset it. -/
def affectedTransitions (pid : Nat) : List (Tid net) :=
  (List.finRange _).filter fun tid => pid ∈ (arcPlaces (transition tid)).map (placeId net)

/-- The places a firing takes tokens from: inputs, then resets. -/
def consumptionPlaceIds (tid : Tid net) : List Nat :=
  ((transition tid).inputSpecs.map (fun spec => placeId net spec.place) ++
    (transition tid).resets.map (placeId net)).eraseDups

/-- The places a transition needs marked: inputs, then reads. -/
def needsMask (tid : Tid net) : Bitset (placeCount net) :=
  ((transition tid).inputSpecs.map In.place ++ (transition tid).reads).foldl
    (fun mask p => mask.setBit (placeId net p)) Bitset.empty

def inhibitorMask (tid : Tid net) : Bitset (placeCount net) :=
  (transition tid).inhibitors.foldl
    (fun mask p => mask.setBit (placeId net p)) Bitset.empty

/-- The place ids and required counts to check, when some input is not a plain `one`. -/
def cardinalityCheck (tid : Tid net) : Option (List (Nat × Nat)) :=
  if (transition tid).inputSpecs.any In.needsCardinality then
    some ((transition tid).inputSpecs.map fun spec =>
      (placeId net spec.place, spec.requiredCount))
  else none

def hasMatch (tid : Tid net) : Bool := (transition tid).matchSpec.isSome

variable (net) in
def hasTerminals : Bool := !net.terminals.isEmpty

variable (net) in
/-- `terminalFlags[pid]`. -/
def terminalFlag (pid : Nat) : Bool := place net pid ∈ net.terminals

/-- Presence of every needed place, absence of every inhibitor. -/
def canEnableBitmap (tid : Tid net) (markingSnapshot : Bitset (placeCount net)) : Bool :=
  markingSnapshot.containsAll (needsMask tid) && !markingSnapshot.intersects (inhibitorMask tid)

/-! ## Clock-restart thresholds -/

/-- The transitions that require a place: none yet, one, or several. -/
inductive Requirer (net : PetriNet V N)
  | none
  | one (tid : Tid net)
  | several

/-- What `restartThresholds` has gathered about one place. -/
structure Restart (net : PetriNet V N) where
  threshold : WithTop Nat
  requirer : Requirer net
  drained : Bool

def Requirer.requires (tid : Tid net) : Requirer net → Requirer net
  | .none => .one tid
  | .one other => if other = tid then .one tid else .several
  | .several => .several

/-- An input or a read of `tid` that needs `required` tokens in the place. -/
def Restart.require (r : Restart net) (tid : Tid net) (required : Nat) : Restart net :=
  { r with threshold := max r.threshold required, requirer := r.requirer.requires tid }

/-- The round of the loop for `tid`, as it concerns the place `pid`. -/
def Restart.step (pid : Nat) (r : Restart net) (tid : Tid net) : Restart net :=
  let t := transition tid
  let r := t.inputSpecs.foldl (fun r spec =>
    if placeId net spec.place = pid then r.require tid spec.requiredCount else r) r
  let r := t.reads.foldl (fun r p =>
    if placeId net p = pid then r.require tid 1 else r) r
  let r := if pid ∈ t.resets.map (placeId net) then { r with drained := true } else r
  match t.matchSpec with
  | some ms =>
    if pid ∈ ms.keys.map (fun k => placeId net k.place) then { r with threshold := ⊤ } else r
  | none => r

variable (net) in
/-- The fewest tokens a firing can leave in a place and still have disabled nobody through it. -/
def restartThreshold (pid : Nat) : WithTop Nat :=
  let r : Restart net :=
    (List.finRange _).foldl (Restart.step pid) ⟨0, .none, false⟩
  match r.requirer with
  | .several => r.threshold
  | _ => if r.drained then r.threshold else 0

/-! ## Numbering -/

theorem nodup_eraseDups {α : Type} [DecidableEq α] (l : List α) : l.eraseDups.Nodup := by
  induction h : l.length using Nat.strongRecOn generalizing l with
  | ind n ih =>
    cases l with
    | nil => exact List.nodup_nil
    | cons a l =>
      rw [List.eraseDups_cons, List.nodup_cons]
      refine ⟨fun hmem => ?_, ih _ ?_ _ rfl⟩
      · have := (List.mem_filter.mp (List.mem_eraseDups.mp hmem)).2
        simp at this
      · have := List.length_filter_le (fun b => !b == a) l
        rw [List.length_cons] at h
        omega

variable (net) in
theorem nodup_placesById : (placesById net).Nodup := nodup_eraseDups _

theorem mem_placesById {p : PlaceName} : p ∈ placesById net ↔
    (∃ t ∈ net.transitions, p ∈ arcPlaces t ∨ p ∈ t.outputPlaces) ∨ p ∈ net.places := by
  rw [placesById, List.mem_eraseDups, List.mem_append, List.mem_flatMap]
  simp only [List.mem_append]

theorem placeId_lt {p : PlaceName} (known : p ∈ placesById net) :
    placeId net p < placeCount net := List.idxOf_lt_length_iff.mpr known

@[simp] theorem place_placeId {p : PlaceName} (known : p ∈ placesById net) :
    place net (placeId net p) = p := by
  have lt := placeId_lt known
  rw [place, List.getD_eq_getElem?_getD, List.getElem?_eq_getElem lt, Option.getD_some]
  exact List.getElem_idxOf lt

@[simp] theorem placeId_place {pid : Nat} (lt : pid < placeCount net) :
    placeId net (place net pid) = pid := by
  rw [place, List.getD_eq_getElem?_getD, List.getElem?_eq_getElem lt, Option.getD_some]
  exact (nodup_placesById net).idxOf_getElem pid lt

theorem place_mem {pid : Nat} (lt : pid < placeCount net) : place net pid ∈ placesById net := by
  rw [place, List.getD_eq_getElem?_getD, List.getElem?_eq_getElem lt, Option.getD_some]
  exact List.getElem_mem lt

theorem tryPlaceId_eq (p : PlaceName) : tryPlaceId net p =
    if p ∈ placesById net then some (placeId net p) else none := by
  unfold tryPlaceId
  split
  next known =>
    rw [List.idxOf?_eq_some_iff]
    refine ⟨placeId_lt known, List.getElem_idxOf (placeId_lt known), fun j hj same => ?_⟩
    have := (nodup_placesById net).idxOf_getElem j (Nat.lt_trans hj (placeId_lt known))
    rw [same] at this
    exact absurd this (Nat.ne_of_gt hj)
  next unknown => exact List.idxOf?_eq_none_iff.mpr unknown

theorem placeId_inj {p q : PlaceName} (hp : p ∈ placesById net) (hq : q ∈ placesById net) :
    placeId net p = placeId net q ↔ p = q := by
  constructor
  · intro h
    rw [← place_placeId hp, ← place_placeId hq, h]
  · rintro rfl
    rfl

theorem transition_mem (tid : Tid net) : transition tid ∈ net.transitions := List.getElem_mem _

theorem known_of_arc {tid : Tid net} {p : PlaceName} (h : p ∈ arcPlaces (transition tid)) :
    p ∈ placesById net :=
  mem_placesById.mpr (Or.inl ⟨_, transition_mem tid, Or.inl h⟩)

theorem known_of_input {tid : Tid net} {spec : In} (h : spec ∈ (transition tid).inputSpecs) :
    spec.place ∈ placesById net := by
  have arc : spec.place ∈ arcPlaces (transition tid) := by
    simp only [arcPlaces, List.mem_append]
    exact Or.inl (Or.inl (Or.inl (List.mem_map_of_mem h)))
  exact known_of_arc arc

theorem known_of_read {tid : Tid net} {p : PlaceName} (h : p ∈ (transition tid).reads) :
    p ∈ placesById net := by
  have arc : p ∈ arcPlaces (transition tid) := by simp [arcPlaces, h]
  exact known_of_arc arc

theorem known_of_inhibitor {tid : Tid net} {p : PlaceName} (h : p ∈ (transition tid).inhibitors) :
    p ∈ placesById net := by
  have arc : p ∈ arcPlaces (transition tid) := by simp [arcPlaces, h]
  exact known_of_arc arc

theorem known_of_reset {tid : Tid net} {p : PlaceName} (h : p ∈ (transition tid).resets) :
    p ∈ placesById net := by
  have arc : p ∈ arcPlaces (transition tid) := by simp [arcPlaces, h]
  exact known_of_arc arc

theorem known_of_terminal {p : PlaceName} (h : p ∈ net.terminals) : p ∈ placesById net :=
  mem_placesById.mpr (Or.inr (net.terminals_declared p h))

/-! ## Arcs -/

theorem input_arc {t : Transition V N} {spec : In} (h : spec ∈ t.inputSpecs) :
    spec.place ∈ arcPlaces t := by
  simp only [arcPlaces, List.mem_append]
  exact Or.inl (Or.inl (Or.inl (List.mem_map_of_mem h)))

theorem key_arc {t : Transition V N} {ms : MatchSpec V N} (h : t.matchSpec = some ms)
    {k : MatchKey V N} (hk : k ∈ ms.keys) : k.place ∈ arcPlaces t := by
  obtain ⟨spec, hspec, same⟩ := List.mem_map.mp (t.keys_inputs ms h k hk)
  rw [← same]
  exact input_arc hspec

/-! ## Reverse index -/

theorem mem_affectedTransitions {p : PlaceName} (known : p ∈ placesById net) {tid : Tid net} :
    tid ∈ affectedTransitions (placeId net p) ↔ p ∈ arcPlaces (transition tid) := by
  rw [affectedTransitions, List.mem_filter, decide_eq_true_eq, List.mem_map]
  constructor
  · rintro ⟨_, q, hq, same⟩
    exact (placeId_inj (known_of_arc hq) known).mp same ▸ hq
  · intro h
    exact ⟨List.mem_finRange _, p, h, rfl⟩

/-- A firing of the transition takes tokens from the place. -/
def Consumes (tid : Tid net) (p : PlaceName) : Prop :=
  p ∈ (transition tid).inputSpecs.map In.place ∨ p ∈ (transition tid).resets

theorem known_of_consumes {tid : Tid net} {p : PlaceName} (h : Consumes tid p) :
    p ∈ placesById net := by
  rcases h with h | h
  · obtain ⟨spec, hspec, rfl⟩ := List.mem_map.mp h
    exact known_of_input hspec
  · exact known_of_reset h

theorem mem_consumptionPlaceIds {tid : Tid net} {pid : Nat} :
    pid ∈ consumptionPlaceIds tid ↔ ∃ p, Consumes tid p ∧ placeId net p = pid := by
  rw [consumptionPlaceIds, List.mem_eraseDups, List.mem_append, List.mem_map, List.mem_map]
  constructor
  · rintro (⟨spec, hspec, same⟩ | ⟨p, hp, same⟩)
    · exact ⟨spec.place, Or.inl (List.mem_map_of_mem hspec), same⟩
    · exact ⟨p, Or.inr hp, same⟩
  · rintro ⟨p, hp | hp, same⟩
    · obtain ⟨spec, hspec, rfl⟩ := List.mem_map.mp hp
      exact Or.inl ⟨spec, hspec, same⟩
    · exact Or.inr ⟨p, hp, same⟩

/-! ## Masks -/

theorem testBit_foldl_setBit {n : Nat} (ids : List Nat) (inside : ∀ i ∈ ids, i < n) (mask : Bitset n)
    (j : Nat) : (ids.foldl Bitset.setBit mask).testBit j = true ↔ mask.testBit j = true ∨ j ∈ ids := by
  induction ids generalizing mask with
  | nil => simp
  | cons i ids ih =>
    rw [List.foldl_cons, ih (fun k hk => inside k (List.mem_cons_of_mem _ hk)),
      Bitset.testBit_setBit _ (inside i List.mem_cons_self)]
    by_cases h : i = j
    · simp [h]
    · simp [h, Ne.symm h]

theorem testBit_needsMask (tid : Tid net) (j : Nat) : (needsMask tid).testBit j = true ↔
    ∃ p, (p ∈ (transition tid).inputSpecs.map In.place ∨ p ∈ (transition tid).reads) ∧
      placeId net p = j := by
  rw [needsMask, ← List.foldl_map, testBit_foldl_setBit]
  · simp only [Bitset.testBit_empty, Bool.false_eq_true, false_or, List.mem_map, List.mem_append]
  · intro i hi
    obtain ⟨p, hp, rfl⟩ := List.mem_map.mp hi
    rcases List.mem_append.mp hp with h | h
    · obtain ⟨spec, hspec, rfl⟩ := List.mem_map.mp h
      exact placeId_lt (known_of_input hspec)
    · exact placeId_lt (known_of_read h)

theorem testBit_inhibitorMask (tid : Tid net) (j : Nat) : (inhibitorMask tid).testBit j = true ↔
    ∃ p, p ∈ (transition tid).inhibitors ∧ placeId net p = j := by
  rw [inhibitorMask, ← List.foldl_map, testBit_foldl_setBit]
  · simp only [Bitset.testBit_empty, Bool.false_eq_true, false_or, List.mem_map]
  · intro i hi
    obtain ⟨p, hp, rfl⟩ := List.mem_map.mp hi
    exact placeId_lt (known_of_inhibitor hp)

/-- Every needed place is marked, and no inhibitor is. -/
theorem canEnableBitmap_iff (tid : Tid net) (snap : Bitset (placeCount net)) :
    canEnableBitmap tid snap = true ↔
      (∀ p, p ∈ (transition tid).inputSpecs.map In.place ∨ p ∈ (transition tid).reads →
        snap.testBit (placeId net p) = true) ∧
      ∀ p ∈ (transition tid).inhibitors, snap.testBit (placeId net p) = false := by
  rw [canEnableBitmap, Bool.and_eq_true, Bool.not_eq_true', Bitset.containsAll_iff,
    ← Bool.not_eq_true, Bitset.intersects_iff]
  simp only [testBit_needsMask, testBit_inhibitorMask]
  constructor
  · rintro ⟨needed, blocked⟩
    refine ⟨fun p hp => needed _ ⟨p, hp, rfl⟩, fun p hp => ?_⟩
    exact Bool.eq_false_iff.mpr fun marked => blocked ⟨_, ⟨p, hp, rfl⟩, marked⟩
  · rintro ⟨needed, free⟩
    refine ⟨?_, ?_⟩
    · rintro _ ⟨p, hp, rfl⟩
      exact needed p hp
    · rintro ⟨_, ⟨p, hp, rfl⟩, marked⟩
      rw [free p hp] at marked
      cases marked

theorem canEnableBitmap_congr {tid : Tid net} {snap snap' : Bitset (placeCount net)}
    (bits : ∀ p ∈ arcPlaces (transition tid),
      snap'.testBit (placeId net p) = snap.testBit (placeId net p)) :
    canEnableBitmap tid snap' = canEnableBitmap tid snap := by
  rw [Bool.eq_iff_iff, canEnableBitmap_iff, canEnableBitmap_iff]
  have arc {p : PlaceName} : (p ∈ (transition tid).inputSpecs.map In.place ∨
      p ∈ (transition tid).reads) ∨ p ∈ (transition tid).inhibitors → p ∈ arcPlaces (transition tid) := by
    simp only [arcPlaces, List.mem_append]
    tauto
  refine and_congr (forall₂_congr fun p hp => ?_) (forall₂_congr fun p hp => ?_)
  · rw [bits p (arc (Or.inl hp))]
  · rw [bits p (arc (Or.inr hp))]

end CompiledNet

end LibPetri.Runtime
