import LibPetri.Basis.Forests
import LibPetri.Export.ClusterBuilder

/-! # Ghost edges

The two indices hold the edges from a cluster to an orphan and from an orphan into a cluster.  Two of them that
meet at an orphan make a bridge when their clusters differ, and the ghosts are the bridges, one for each key.
-/

namespace LibPetri.Verified

open LibPetri.Basis

/-! ## The indices -/

section Indices

variable {keep : GraphEdge → Bool} {orphan : GraphEdge → String} {edges : List GraphEdge} {id : String}

/-- The list at a node is the edges that were kept for it. -/
theorem getD_indexed (keep : GraphEdge → Bool) (orphan : GraphEdge → String) (edges : List GraphEdge) (id : String) :
    ((edges.foldl (fun byOrphan edge => if keep edge then indexed byOrphan (orphan edge) edge else byOrphan)
      .empty).get? id).getD [] = edges.filter fun edge => keep edge && orphan edge == id := by
  induction edges using List.reverseRecOn with
  | nil => rfl
  | append_singleton edges edge ih =>
    rw [List.foldl_append, List.foldl_cons, List.foldl_nil, List.filter_append, ← ih]
    cases kept : keep edge with
    | false => simp [kept]
    | true =>
      rw [if_pos rfl, indexed, OrderedMap.get?_set]
      by_cases same : id = orphan edge
      · subst same
        simp [kept]
      · have apart : ¬ orphan edge = id := fun eq => same eq.symm
        simp [kept, same, apart]

variable (edges) (nodeIdToPrefix : OrderedMap String String)

theorem getD_incoming (id : String) : ((incomingByOrphan edges nodeIdToPrefix).get? id).getD []
    = edges.filter fun edge =>
        (hasPrefix nodeIdToPrefix edge.source && !hasPrefix nodeIdToPrefix edge.target) && edge.target == id :=
  getD_indexed _ _ edges id

theorem getD_outgoing (id : String) : ((outgoingByOrphan edges nodeIdToPrefix).get? id).getD []
    = edges.filter fun edge =>
        (!hasPrefix nodeIdToPrefix edge.source && hasPrefix nodeIdToPrefix edge.target) && edge.source == id :=
  getD_indexed _ _ edges id

end Indices

/-! ## Bridges -/

section Bridges

variable (nodes : List GraphNode) (edges : List GraphEdge) (nodeIdToPrefix : OrderedMap String String)

/-- The pairs of edges that meet at an orphan, in the order they are walked. -/
def meetings : List (GraphEdge × GraphEdge) :=
  (nodes.filter fun node => !hasPrefix nodeIdToPrefix node.id).flatMap fun node =>
    (((incomingByOrphan edges nodeIdToPrefix).get? node.id).getD []).flatMap fun eIn =>
      (((outgoingByOrphan edges nodeIdToPrefix).get? node.id).getD []).map fun eOut => (eIn, eOut)

theorem ghostAnchors_eq : ghostAnchors nodes edges nodeIdToPrefix
    = (meetings nodes edges nodeIdToPrefix).foldl
        (fun ghosts e => recordGhost nodeIdToPrefix ghosts e.1 e.2) .empty := by
  rw [meetings, List.foldl_flatMap, List.foldl_filter, ghostAnchors]
  refine List.foldl_ext _ _ _ fun ghosts node _ => ?_
  cases hasPrefix nodeIdToPrefix node.id with
  | true => rfl
  | false =>
    simp only [List.foldl_flatMap, List.foldl_map]
    cases (incomingByOrphan edges nodeIdToPrefix).get? node.id with
    | none => simp
    | some incoming =>
      cases (outgoingByOrphan edges nodeIdToPrefix).get? node.id with
      | none => simp
      | some outgoing => simp

/-- Two edges run from one cluster over an orphan into another. -/
structure Bridge (x y : String) (eIn eOut : GraphEdge) : Prop where
  apart : x ≠ y
  source : nodeIdToPrefix.get? eIn.source = some x
  target : nodeIdToPrefix.get? eOut.target = some y
  incoming : eIn ∈ edges
  outgoing : eOut ∈ edges
  orphan : ∃ node ∈ nodes, nodeIdToPrefix.get? node.id = none ∧ eIn.target = node.id ∧ eOut.source = node.id

/-- Two clusters with such edges between them. -/
def Bridged (x y : String) : Prop := ∃ eIn eOut, Bridge nodes edges nodeIdToPrefix x y eIn eOut

variable {nodes edges nodeIdToPrefix} {x y : String} {eIn eOut : GraphEdge}

theorem mem_meetings : (eIn, eOut) ∈ meetings nodes edges nodeIdToPrefix ↔
    eIn ∈ edges ∧ eOut ∈ edges ∧ hasPrefix nodeIdToPrefix eIn.source = true ∧
      hasPrefix nodeIdToPrefix eOut.target = true ∧
      ∃ node ∈ nodes, nodeIdToPrefix.get? node.id = none ∧ eIn.target = node.id ∧ eOut.source = node.id := by
  simp only [meetings, List.mem_flatMap, List.mem_filter, List.mem_map, getD_incoming, getD_outgoing,
    Bool.and_eq_true, Bool.not_eq_true', beq_iff_eq, Prod.mk.injEq]
  constructor
  · rintro ⟨node, ⟨mem, orphan⟩, _, ⟨inside, ⟨leaves, _⟩, into⟩, _, ⟨outside, ⟨_, arrives⟩, out⟩, rfl, rfl⟩
    exact ⟨inside, outside, leaves, arrives, node, mem, by simpa [hasPrefix] using orphan, into, out⟩
  · rintro ⟨inside, outside, leaves, arrives, node, mem, orphan, into, out⟩
    have bare : hasPrefix nodeIdToPrefix node.id = false := by simp [hasPrefix, orphan]
    exact ⟨node, ⟨mem, bare⟩, eIn, ⟨inside, ⟨leaves, into ▸ bare⟩, into⟩, eOut,
      ⟨outside, ⟨out ▸ bare, arrives⟩, out⟩, rfl, rfl⟩

theorem bridge_iff : Bridge nodes edges nodeIdToPrefix x y eIn eOut ↔
    (eIn, eOut) ∈ meetings nodes edges nodeIdToPrefix ∧ x ≠ y ∧
      nodeIdToPrefix.get? eIn.source = some x ∧ nodeIdToPrefix.get? eOut.target = some y := by
  rw [mem_meetings]
  constructor
  · intro bridge
    exact ⟨⟨bridge.incoming, bridge.outgoing, by simp [hasPrefix, bridge.source],
      by simp [hasPrefix, bridge.target], bridge.orphan⟩, bridge.apart, bridge.source, bridge.target⟩
  · rintro ⟨⟨inside, outside, _, _, orphan⟩, apart, source, target⟩
    exact ⟨apart, source, target, inside, outside, orphan⟩

/-! ## The ghosts -/

variable (nodes edges nodeIdToPrefix) in
/-- Every entry is a bridge under its own key, and every bridge has an entry under its key. -/
structure Anchored (met : List (GraphEdge × GraphEdge)) (ghosts : OrderedMap String Anchor) : Prop where
  bridges : ∀ entry ∈ ghosts.entries, entry.1 = ghostKey entry.2.x entry.2.y ∧
    Bridged nodes edges nodeIdToPrefix entry.2.x entry.2.y ∧
    nodeIdToPrefix.get? entry.2.source = some entry.2.x ∧ nodeIdToPrefix.get? entry.2.target = some entry.2.y
  all : ∀ x y eIn eOut, (eIn, eOut) ∈ met → Bridge nodes edges nodeIdToPrefix x y eIn eOut →
    ghostKey x y ∈ ghosts.keys

/-- One pair of edges more. -/
theorem Anchored.record {met : List (GraphEdge × GraphEdge)} {ghosts : OrderedMap String Anchor}
    (anchored : Anchored nodes edges nodeIdToPrefix met ghosts)
    (mem : (eIn, eOut) ∈ meetings nodes edges nodeIdToPrefix) :
    Anchored nodes edges nodeIdToPrefix (met ++ [(eIn, eOut)]) (recordGhost nodeIdToPrefix ghosts eIn eOut) := by
  obtain ⟨_, _, leaves, arrives, _⟩ := mem_meetings.mp mem
  obtain ⟨x, source⟩ := Option.isSome_iff_exists.mp leaves
  obtain ⟨y, target⟩ := Option.isSome_iff_exists.mp arrives
  have last : ∀ x' y', Bridge nodes edges nodeIdToPrefix x' y' eIn eOut → x' = x ∧ y' = y := by
    intro x' y' bridge
    have := bridge.source.symm.trans source
    have := bridge.target.symm.trans target
    simp_all
  -- a bridge that was met before, or the one met now
  have covered : ∀ ghosts' : OrderedMap String Anchor, (∀ key ∈ ghosts.keys, key ∈ ghosts'.keys) →
      (x ≠ y → ghostKey x y ∈ ghosts'.keys) → ∀ x' y' eIn' eOut', (eIn', eOut') ∈ met ++ [(eIn, eOut)] →
      Bridge nodes edges nodeIdToPrefix x' y' eIn' eOut' → ghostKey x' y' ∈ ghosts'.keys := by
    intro ghosts' keeps here x' y' eIn' eOut' mem' bridge
    cases List.mem_append.mp mem' with
    | inl before => exact keeps _ (anchored.all x' y' eIn' eOut' before bridge)
    | inr now =>
      rw [List.mem_singleton, Prod.mk.injEq] at now
      obtain ⟨rfl, rfl⟩ := now
      obtain ⟨rfl, rfl⟩ := last x' y' bridge
      exact here bridge.apart
  rw [recordGhost, source, target, Option.getD_some, Option.getD_some]
  by_cases same : x = y
  · rw [if_pos same]
    exact ⟨anchored.bridges, covered ghosts (fun key h => h) fun apart => absurd same apart⟩
  · rw [if_neg same]
    by_cases old : ghostKey x y ∈ ghosts.keys
    · rw [if_pos old]
      exact ⟨anchored.bridges, covered ghosts (fun key h => h) fun _ => old⟩
    · rw [if_neg old]
      refine ⟨fun entry inside => ?_, covered _ (fun key h => ?_) fun _ => ?_⟩
      · rw [OrderedMap.set_of_absent _ _ ((ghosts.get?_eq_none_iff _).mpr old)] at inside
        cases List.mem_append.mp inside with
        | inl before => exact anchored.bridges entry before
        | inr now =>
          rw [List.mem_singleton] at now
          subst now
          exact ⟨rfl, ⟨eIn, eOut, bridge_iff.mpr ⟨mem, same, source, target⟩⟩, source, target⟩
      · rw [OrderedMap.keys_set, if_neg old]
        exact List.mem_append_left _ h
      · rw [OrderedMap.keys_set, if_neg old]
        simp

variable (nodes edges nodeIdToPrefix) in
theorem anchored_ghostAnchors : Anchored nodes edges nodeIdToPrefix (meetings nodes edges nodeIdToPrefix)
    (ghostAnchors nodes edges nodeIdToPrefix) := by
  rw [ghostAnchors_eq]
  have run : ∀ met, (∀ e ∈ met, e ∈ meetings nodes edges nodeIdToPrefix) →
      Anchored nodes edges nodeIdToPrefix met
        (met.foldl (fun ghosts e => recordGhost nodeIdToPrefix ghosts e.1 e.2) .empty) := by
    intro met
    induction met using List.reverseRecOn with
    | nil => exact fun _ => ⟨fun entry mem => absurd mem List.not_mem_nil, fun _ _ _ _ mem => absurd mem List.not_mem_nil⟩
    | append_singleton met e ih =>
      intro walked
      rw [List.foldl_append]
      exact (ih fun e' mem => walked e' (List.mem_append_left _ mem)).record (walked e (by simp))
  exact run _ fun e mem => mem

/-! ## One ghost for every pair -/

variable (nodeIdToPrefix) in
/-- An invisible edge anchored in two clusters. -/
def Ghost (x y : String) (edge : GraphEdge) : Prop :=
  ∃ source target, nodeIdToPrefix.get? source = some x ∧ nodeIdToPrefix.get? target = some y ∧
    edge = (Anchor.mk source target x y).edge

variable (nodes edges nodeIdToPrefix) in
/-- The ghosts of all pairs of bridged clusters, one for each. -/
def OneGhostEach (ghosts : List GraphEdge) : Prop :=
  ∃ pairs : List (String × String), pairs.Nodup ∧
    (∀ x y, (x, y) ∈ pairs ↔ Bridged nodes edges nodeIdToPrefix x y) ∧
    List.Forall₂ (fun pair edge => Ghost nodeIdToPrefix pair.1 pair.2 edge) pairs ghosts

variable (nodes edges nodeIdToPrefix) in
/-- No two pairs of bridged clusters read the same with the null character between them. -/
def KeysApart : Prop :=
  ∀ x y x' y', Bridged nodes edges nodeIdToPrefix x y → Bridged nodes edges nodeIdToPrefix x' y' →
    ghostKey x y = ghostKey x' y' → x = x' ∧ y = y'

variable (nodes edges nodeIdToPrefix) in
/-- The keys are those of the bridged pairs. -/
theorem mem_keys_ghostAnchors {key : String} : key ∈ (ghostAnchors nodes edges nodeIdToPrefix).keys ↔
    ∃ x y, Bridged nodes edges nodeIdToPrefix x y ∧ key = ghostKey x y := by
  have anchored := anchored_ghostAnchors nodes edges nodeIdToPrefix
  constructor
  · intro mem
    obtain ⟨entry, inside, rfl⟩ := List.mem_map.mp mem
    obtain ⟨own, bridged, _⟩ := anchored.bridges entry inside
    exact ⟨entry.2.x, entry.2.y, bridged, own⟩
  · rintro ⟨x, y, ⟨eIn, eOut, bridge⟩, rfl⟩
    exact anchored.all x y eIn eOut (bridge_iff.mp bridge).1 bridge

/-- Where the keys differ, the anchors are the bridged pairs. -/
theorem oneGhostEach_of_keysApart (apart : KeysApart nodes edges nodeIdToPrefix) :
    OneGhostEach nodes edges nodeIdToPrefix (synthesizeGhostEdges nodes edges nodeIdToPrefix) := by
  have anchored := anchored_ghostAnchors nodes edges nodeIdToPrefix
  refine ⟨(ghostAnchors nodes edges nodeIdToPrefix).entries.map fun entry => (entry.2.x, entry.2.y), ?_, ?_, ?_⟩
  · have keyed : ((ghostAnchors nodes edges nodeIdToPrefix).entries.map
        fun entry => (entry.2.x, entry.2.y)).map (fun pair => ghostKey pair.1 pair.2)
          = (ghostAnchors nodes edges nodeIdToPrefix).keys := by
      rw [List.map_map]
      exact List.map_congr_left fun entry inside => (anchored.bridges entry inside).1.symm
    refine List.Nodup.of_map (fun pair => ghostKey pair.1 pair.2) ?_
    rw [keyed]
    exact (ghostAnchors nodes edges nodeIdToPrefix).nodup
  · intro x y
    rw [List.mem_map]
    constructor
    · rintro ⟨entry, inside, same⟩
      obtain ⟨rfl, rfl⟩ := Prod.mk.inj same
      exact (anchored.bridges entry inside).2.1
    · intro bridged
      obtain ⟨entry, inside, key⟩ := List.mem_map.mp
        ((mem_keys_ghostAnchors nodes edges nodeIdToPrefix).mpr ⟨x, y, bridged, rfl⟩)
      obtain ⟨own, there, _⟩ := anchored.bridges entry inside
      obtain ⟨sameX, sameY⟩ := apart _ _ x y there bridged (own.symm.trans key)
      exact ⟨entry, inside, by rw [sameX, sameY]⟩
  · rw [synthesizeGhostEdges, OrderedMap.values, List.map_map, List.forall₂_map_left_iff,
      List.forall₂_map_right_iff, List.forall₂_same]
    intro entry inside
    obtain ⟨_, _, source, target⟩ := anchored.bridges entry inside
    exact ⟨_, _, source, target, rfl⟩

/-- There are as many ghosts as keys, so with one ghost for each pair no two pairs share a key. -/
theorem keysApart_of_length {ghosts : List GraphEdge} (each : OneGhostEach nodes edges nodeIdToPrefix ghosts)
    (count : ghosts.length = (synthesizeGhostEdges nodes edges nodeIdToPrefix).length) :
    KeysApart nodes edges nodeIdToPrefix := by
  obtain ⟨pairs, nodup, bridged, ghostly⟩ := each
  have image : (ghostAnchors nodes edges nodeIdToPrefix).keys.toFinset
      = pairs.toFinset.image fun pair => ghostKey pair.1 pair.2 := by
    ext key
    rw [List.mem_toFinset, mem_keys_ghostAnchors, Finset.mem_image]
    constructor
    · rintro ⟨x, y, there, rfl⟩
      exact ⟨(x, y), List.mem_toFinset.mpr ((bridged x y).mpr there), rfl⟩
    · rintro ⟨pair, mem, rfl⟩
      exact ⟨pair.1, pair.2, (bridged _ _).mp (List.mem_toFinset.mp mem), rfl⟩
  have card : (pairs.toFinset.image fun pair => ghostKey pair.1 pair.2).card = pairs.toFinset.card := by
    have distinct : (ghostAnchors nodes edges nodeIdToPrefix).keys.Nodup :=
      (ghostAnchors nodes edges nodeIdToPrefix).nodup
    rw [← image, List.toFinset_card_of_nodup distinct, List.toFinset_card_of_nodup nodup,
      ghostly.length_eq, count, synthesizeGhostEdges, OrderedMap.values, OrderedMap.keys]
    simp only [List.length_map]
  intro x y x' y' there there' same
  have inj := Finset.card_image_iff.mp card
  have pair := inj (List.mem_toFinset.mpr ((bridged x y).mpr there))
    (List.mem_toFinset.mpr ((bridged x' y').mpr there')) same
  exact Prod.mk.inj pair

end Bridges

end LibPetri.Verified
