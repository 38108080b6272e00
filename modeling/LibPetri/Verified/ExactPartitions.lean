import LibPetri.Verified.ClusterTrees
import LibPetri.Verified.GhostEdges

/-! # Exact partitions

A partition is exact when its tree has one cluster for every prefix, nested as the prefixes are and in the order
they were met, and when every node and every edge is in its own cluster once, with one ghost for every two bridged
clusters.  The builder misses two of these: it turns the children of every cluster around, and it takes two
pairs of clusters for one where their keys are the same.
-/

namespace LibPetri.Verified

open LibPetri.Basis

/-! ## What a partition is for -/

section Spec

variable (nodes : List GraphNode) (edges : List GraphEdge) (nodeIdToPrefix : OrderedMap String String)

/-- The cluster is that of the node's prefix, or lies above it. -/
def Encloses (key id : String) : Prop :=
  ∃ own, nodeIdToPrefix.get? id = some own ∧ segments key <+: segments own

/-- The deepest cluster that contains both ends of an edge. -/
structure Deepest (edge : GraphEdge) (key : String) : Prop where
  cluster : key ∈ firstMet nodeIdToPrefix
  source : Encloses nodeIdToPrefix key edge.source
  target : Encloses nodeIdToPrefix key edge.target
  deepest : ∀ other ∈ firstMet nodeIdToPrefix, Encloses nodeIdToPrefix other edge.source →
    Encloses nodeIdToPrefix other edge.target → segments other <+: segments key

/-- No cluster contains both ends. -/
def Outside (edge : GraphEdge) : Prop :=
  ∀ key ∈ firstMet nodeIdToPrefix, Encloses nodeIdToPrefix key edge.source →
    ¬ Encloses nodeIdToPrefix key edge.target

/-- Every node is in the cluster of its prefix. -/
structure NodesPlaced (p : Partition) : Prop where
  once : (p.topLevelNodes ++ (allOf p.topLevelSubgraphs).flatMap Subgraph.nodes).Perm nodes
  top : ∀ node ∈ p.topLevelNodes, nodeIdToPrefix.get? node.id = none
  own : ∀ g ∈ allOf p.topLevelSubgraphs, ∀ node ∈ g.nodes, nodeIdToPrefix.get? node.id = some g.label

/-- Every edge is in the deepest cluster it can be in, and those at the top are followed by the ghosts. -/
structure EdgesPlaced (p : Partition) (plain ghosts : List GraphEdge) : Prop where
  split : p.topLevelEdges = plain ++ ghosts
  once : (plain ++ (allOf p.topLevelSubgraphs).flatMap Subgraph.edges).Perm edges
  top : ∀ edge ∈ plain, Outside nodeIdToPrefix edge
  own : ∀ g ∈ allOf p.topLevelSubgraphs, ∀ edge ∈ g.edges, Deepest nodeIdToPrefix edge g.label

/-- One cluster for every prefix, the outermost ones at the top in the order they were met. -/
structure Nested (p : Partition) : Prop where
  once : ((allOf p.topLevelSubgraphs).map Subgraph.label).Perm (firstMet nodeIdToPrefix)
  top : p.topLevelSubgraphs.map Subgraph.label
    = (firstMet nodeIdToPrefix).filter fun key => (segments key).dropLast = []

/-- The clusters right below one, in the order they were met. -/
def childClusters (key : String) : List String :=
  (firstMet nodeIdToPrefix).filter fun child => (segments child).dropLast = segments key

/-- The children of every cluster, in order. -/
def ChildrenInOrder (p : Partition) : Prop :=
  ∀ g ∈ allOf p.topLevelSubgraphs, g.subgraphs.map Subgraph.label = childClusters nodeIdToPrefix g.label

structure Exact (p : Partition) : Prop where
  nested : Nested nodeIdToPrefix p
  ordered : ChildrenInOrder nodeIdToPrefix p
  nodesPlaced : NodesPlaced nodes nodeIdToPrefix p
  edgesPlaced : ∃ plain ghosts, EdgesPlaced edges nodeIdToPrefix p plain ghosts ∧
    OneGhostEach nodes edges nodeIdToPrefix ghosts

/-- No cluster has two clusters right below it. -/
def OneChild : Prop :=
  ∀ a ∈ firstMet nodeIdToPrefix, ∀ b ∈ firstMet nodeIdToPrefix,
    (segments a).dropLast ≠ [] → (segments a).dropLast = (segments b).dropLast → a = b

end Spec

/-! ## The deepest cluster -/

section Lifting

variable {nodeIdToPrefix : OrderedMap String String} {edge : GraphEdge} {key : String}

/-- The cluster an edge is lifted to. -/
def lifted (nodeIdToPrefix : OrderedMap String String) (edge : GraphEdge) : Option String :=
  deepestCommonPrefix (nodeIdToPrefix.get? edge.source) (nodeIdToPrefix.get? edge.target)

theorem deepest_of_lifted (well : WellFormed nodeIdToPrefix) (found : lifted nodeIdToPrefix edge = some key) :
    Deepest nodeIdToPrefix edge key := by
  have mem := deepestCommonPrefix_mem well found
  obtain ⟨x, y, source, target, _, same⟩ :=
    (deepestCommonPrefix_spec fun k at_ => well k (mem_values at_)).mp found
  refine ⟨mem, ⟨x, source, ?_⟩, ⟨y, target, ?_⟩, ?_⟩
  · rw [same]
    exact commonBeginning_prefix_left _ _
  · rw [same]
    exact commonBeginning_prefix_right _ _
  · rintro other _ ⟨x', source', left⟩ ⟨y', target', right⟩
    cases source.symm.trans source'
    cases target.symm.trans target'
    rw [same]
    exact prefix_commonBeginning left right

theorem outside_of_lifted (well : WellFormed nodeIdToPrefix) (found : lifted nodeIdToPrefix edge = none) :
    Outside nodeIdToPrefix edge := by
  rintro key mem ⟨x, source, left⟩ ⟨y, target, right⟩
  have above := prefix_commonBeginning left right
  have path := ((mem_firstMet well).mp mem).1
  rw [lifted, source, target, deepestCommonPrefix_eq (well x (mem_values source))] at found
  split at found
  next none =>
    rw [none] at above
    exact path.ne_nil (List.prefix_nil.mp above)
  · cases found

end Lifting

/-! ## The partition -/

section Partition

variable {nodes : List GraphNode} {edges : List GraphEdge} {nodeIdToPrefix : OrderedMap String String}

variable (nodes edges nodeIdToPrefix) in
/-- The tree over a cluster once everything is routed. -/
def clusterTree (key : String) : Subgraph :=
  treeOf (firstMet nodeIdToPrefix) (filled nodes edges nodeIdToPrefix) key

variable (nodes edges) in
theorem clusterTree_eq (well : WellFormed nodeIdToPrefix) {key : String} (mem : key ∈ firstMet nodeIdToPrefix) :
    (clusterTree nodes edges nodeIdToPrefix key).label = key ∧
    (clusterTree nodes edges nodeIdToPrefix key).nodes
      = nodes.filter (fun node => nodeIdToPrefix.get? node.id = some key) ∧
    (clusterTree nodes edges nodeIdToPrefix key).edges
      = edges.filter (fun edge => lifted nodeIdToPrefix edge = some key) ∧
    (clusterTree nodes edges nodeIdToPrefix key).subgraphs
      = ((childrenOf parentOf (firstMet nodeIdToPrefix) key).map (clusterTree nodes edges nodeIdToPrefix)).reverse := by
  have ordered := (rooted_firstMet well).toParentsFirst
  have record := (treeOf_eq (filled nodes edges nodeIdToPrefix) ordered (fun _ => rfl) mem).2
  have children := subgraphs_treeOf (filled nodes edges nodeIdToPrefix) ordered (fun _ => rfl) mem
  refine ⟨?_, ?_, ?_, children⟩ <;> rw [clusterTree, record] <;> rfl

variable (nodes edges nodeIdToPrefix) in
/-- The items without a cluster, and the trees over the outermost clusters. -/
def routed : Partition where
  topLevelNodes := nodes.filter fun node => nodeIdToPrefix.get? node.id = none
  topLevelEdges := (edges.filter fun edge => lifted nodeIdToPrefix edge = none)
    ++ synthesizeGhostEdges nodes edges nodeIdToPrefix
  topLevelSubgraphs := ((firstMet nodeIdToPrefix).filter fun key => parentOf key = none).map
    (clusterTree nodes edges nodeIdToPrefix)

variable (nodes edges) in
/-- Without any prefix this is what the fast path returns. -/
theorem partition_eq (well : WellFormed nodeIdToPrefix) :
    partition nodes edges nodeIdToPrefix = .ok (routed nodes edges nodeIdToPrefix) := by
  by_cases empty : nodeIdToPrefix.size = 0
  · have bare := (OrderedMap.size_eq_zero_iff _).mp empty
    have unmet : firstMet nodeIdToPrefix = [] := by
      refine List.eq_nil_iff_forall_not_mem.mpr fun key mem => ?_
      obtain ⟨_, whole, assigned, _⟩ := (mem_firstMet well).mp mem
      have := List.length_pos_of_mem assigned
      rw [OrderedMap.values, List.length_map] at this
      exact this.ne' empty
    have ghostless : synthesizeGhostEdges nodes edges nodeIdToPrefix = [] := by
      have none : (ghostAnchors nodes edges nodeIdToPrefix).entries = [] := by
        refine List.eq_nil_iff_forall_not_mem.mpr fun entry inside => ?_
        obtain ⟨_, _, source, _⟩ := (anchored_ghostAnchors nodes edges nodeIdToPrefix).bridges entry inside
        rw [bare] at source
        cases source
      rw [synthesizeGhostEdges, OrderedMap.values, none]
      rfl
    rw [partition, if_pos empty, routed, unmet, ghostless]
    simp [bare, lifted, deepestCommonPrefix]
  · obtain ⟨clusters, keys, found, run⟩ := clusters_filled nodes edges well empty
    rw [run, topLevelSubgraphs_eq (rooted_firstMet well) keys found (fun _ => rfl) fun _ => rfl]
    rfl

theorem all_routed (well : WellFormed nodeIdToPrefix) :
    (allOf (routed nodes edges nodeIdToPrefix).topLevelSubgraphs).Perm
      ((firstMet nodeIdToPrefix).map (clusterTree nodes edges nodeIdToPrefix)) :=
  allOf_treeOf_perm (rooted_firstMet well) fun _ => rfl

variable (nodes edges) in
theorem mem_all_routed (well : WellFormed nodeIdToPrefix) {g : Subgraph} :
    g ∈ allOf (routed nodes edges nodeIdToPrefix).topLevelSubgraphs ↔
      ∃ key ∈ firstMet nodeIdToPrefix, clusterTree nodes edges nodeIdToPrefix key = g := by
  rw [(all_routed well).mem_iff, List.mem_map]

theorem routed_nested (well : WellFormed nodeIdToPrefix) :
    Nested nodeIdToPrefix (routed nodes edges nodeIdToPrefix) where
  once := by
    refine ((all_routed well).map Subgraph.label).trans (List.Perm.of_eq ?_)
    rw [List.map_map]
    refine (List.map_congr_left fun key mem => ?_).trans (List.map_id _)
    exact (clusterTree_eq nodes edges well mem).1
  top := by
    rw [routed, List.map_map]
    have labels : ((firstMet nodeIdToPrefix).filter fun key => parentOf key = none).map
        (Subgraph.label ∘ clusterTree nodes edges nodeIdToPrefix)
          = (firstMet nodeIdToPrefix).filter fun key => parentOf key = none :=
      (List.map_congr_left fun key top => (clusterTree_eq nodes edges well (List.mem_filter.mp top).1).1).trans (List.map_id _)
    rw [labels]
    refine List.filter_congr fun key mem => decide_eq_decide.mpr ?_
    exact parentOf_eq_none_iff ((mem_firstMet well).mp mem).1

theorem routed_nodes (well : WellFormed nodeIdToPrefix) :
    NodesPlaced nodes nodeIdToPrefix (routed nodes edges nodeIdToPrefix) where
  once := by
    have gathered : ((firstMet nodeIdToPrefix).map (clusterTree nodes edges nodeIdToPrefix)).flatMap Subgraph.nodes
        = (firstMet nodeIdToPrefix).flatMap fun key =>
            nodes.filter fun node => nodeIdToPrefix.get? node.id = some key := by
      rw [List.flatMap_map]
      exact List.flatMap_congr fun key mem => (clusterTree_eq nodes edges well mem).2.1
    refine (((all_routed well).flatMap_right Subgraph.nodes).append_left _).trans ?_
    rw [gathered]
    exact filter_none_append_flatMap_perm (fun node : GraphNode => nodeIdToPrefix.get? node.id)
      (rooted_firstMet well).nodup fun node _ key found => mem_firstMet_of_assigned well found
  top node mem := of_decide_eq_true (List.mem_filter.mp mem).2
  own g inside node mem := by
    obtain ⟨key, met, rfl⟩ := (mem_all_routed nodes edges well).mp inside
    obtain ⟨label, own, _⟩ := clusterTree_eq nodes edges well met
    rw [own] at mem
    rw [label]
    exact of_decide_eq_true (List.mem_filter.mp mem).2

variable (nodes edges) in
theorem routed_edges (well : WellFormed nodeIdToPrefix) :
    EdgesPlaced edges nodeIdToPrefix (routed nodes edges nodeIdToPrefix)
      (edges.filter fun edge => lifted nodeIdToPrefix edge = none)
      (synthesizeGhostEdges nodes edges nodeIdToPrefix) where
  split := rfl
  once := by
    have gathered : ((firstMet nodeIdToPrefix).map (clusterTree nodes edges nodeIdToPrefix)).flatMap Subgraph.edges
        = (firstMet nodeIdToPrefix).flatMap fun key =>
            edges.filter fun edge => lifted nodeIdToPrefix edge = some key := by
      rw [List.flatMap_map]
      exact List.flatMap_congr fun key mem => (clusterTree_eq nodes edges well mem).2.2.1
    refine (((all_routed well).flatMap_right Subgraph.edges).append_left _).trans ?_
    rw [gathered]
    exact filter_none_append_flatMap_perm (lifted nodeIdToPrefix)
      (rooted_firstMet well).nodup fun edge _ key found => deepestCommonPrefix_mem well found
  top edge mem := outside_of_lifted well (of_decide_eq_true (List.mem_filter.mp mem).2)
  own g inside edge mem := by
    obtain ⟨key, met, rfl⟩ := (mem_all_routed nodes edges well).mp inside
    obtain ⟨label, _, own, _⟩ := clusterTree_eq nodes edges well met
    rw [own] at mem
    rw [label]
    exact deepest_of_lifted well (of_decide_eq_true (List.mem_filter.mp mem).2)

/-! ## The order of the children -/

theorem childrenOf_firstMet (well : WellFormed nodeIdToPrefix) (key : String) :
    childrenOf parentOf (firstMet nodeIdToPrefix) key = childClusters nodeIdToPrefix key :=
  List.filter_congr fun _ mem => decide_eq_decide.mpr (parentOf_eq_some_iff ((mem_firstMet well).mp mem).1)

/-- The children of every cluster stand the wrong way around. -/
theorem labels_children (well : WellFormed nodeIdToPrefix) {key : String} (mem : key ∈ firstMet nodeIdToPrefix) :
    (clusterTree nodes edges nodeIdToPrefix key).subgraphs.map Subgraph.label
      = (childClusters nodeIdToPrefix key).reverse := by
  rw [(clusterTree_eq nodes edges well mem).2.2.2, List.map_reverse, List.map_map, ← childrenOf_firstMet well]
  congr 1
  refine (List.map_congr_left fun child below => ?_).trans (List.map_id _)
  exact (clusterTree_eq nodes edges well (mem_childrenOf.mp below).1).1

/-- They are in order just where there is at most one. -/
theorem ordered_iff (well : WellFormed nodeIdToPrefix) :
    ChildrenInOrder nodeIdToPrefix (routed nodes edges nodeIdToPrefix) ↔ OneChild nodeIdToPrefix := by
  have nodup := (rooted_firstMet well).nodup
  constructor
  · intro ordered a amem b bmem below same
    -- the parent of `a` is a cluster as well
    have path := ((mem_firstMet well).mp amem).1
    have above := parentOf_eq path
    rw [if_neg below] at above
    have met := (rooted_firstMet well).closed a amem _ above
    have segs := segments_joined (isPath_beginning path below (List.dropLast_prefix _))
    have here := ordered _ ((mem_all_routed nodes edges well).mpr ⟨_, met, rfl⟩)
    rw [labels_children well met, (clusterTree_eq nodes edges well met).1] at here
    refine eq_of_reverse_eq (nodup.filter _) here a ?_ b ?_
    · exact List.mem_filter.mpr ⟨amem, decide_eq_true segs.symm⟩
    · exact List.mem_filter.mpr ⟨bmem, decide_eq_true (same.symm.trans segs.symm)⟩
  · intro single g inside
    obtain ⟨key, met, rfl⟩ := (mem_all_routed nodes edges well).mp inside
    rw [labels_children well met, (clusterTree_eq nodes edges well met).1]
    have few : ∀ a ∈ childClusters nodeIdToPrefix key, ∀ b ∈ childClusters nodeIdToPrefix key, a = b := by
      intro a amem b bmem
      obtain ⟨amet, above⟩ := List.mem_filter.mp amem
      obtain ⟨bmet, above'⟩ := List.mem_filter.mp bmem
      have above := of_decide_eq_true above
      have above' := of_decide_eq_true above'
      exact single a amet b bmet (above ▸ segments_ne_nil key) (above.trans above'.symm)
    exact reverse_eq_of_forall_eq (nodup.filter _) few

/-! ## The claim -/

/-- The partition is exact just where no cluster has two children and the keys of the ghosts differ. -/
theorem partition_exact_iff (well : WellFormed nodeIdToPrefix) :
    ∃ p, partition nodes edges nodeIdToPrefix = .ok p ∧
      (Exact nodes edges nodeIdToPrefix p ↔
        OneChild nodeIdToPrefix ∧ KeysApart nodes edges nodeIdToPrefix) := by
  refine ⟨routed nodes edges nodeIdToPrefix, partition_eq nodes edges well, ?_⟩
  have placed := routed_edges nodes edges well
  constructor
  · rintro ⟨_, ordered, _, plain, ghosts, placed', each⟩
    refine ⟨(ordered_iff well).mp ordered, keysApart_of_length each ?_⟩
    -- as many edges are left at the top, so as many ghosts follow them
    have left := placed'.once.length_eq
    have left' := placed.once.length_eq
    have top := congrArg List.length (placed'.split.symm.trans placed.split)
    simp only [List.length_append] at left left' top
    omega
  · rintro ⟨single, apart⟩
    exact ⟨routed_nested well, (ordered_iff well).mpr single, routed_nodes well,
      _, _, placed, oneGhostEach_of_keysApart apart⟩

end Partition

/-! ### Two siblings -/

section Siblings

/-- Two nodes in two clusters right below a third. -/
def siblings : OrderedMap String String := (OrderedMap.empty.set "p" "a/b").set "q" "a/c"

def siblingNodes : List GraphNode :=
  [⟨"p", "p", .circle, "#FFFFFF", "#333333", 1, "a/b/p", none, none, none, none⟩,
    ⟨"q", "q", .circle, "#FFFFFF", "#333333", 1, "a/c/q", none, none, none, none⟩]

theorem wellFormed_siblings : WellFormed siblings := by
  intro key mem
  have two : key ∈ ["a/b", "a/c"] := mem
  have path : ∀ key ∈ ["a/b", "a/c"], segments key ≠ [] ∧ (∀ s ∈ segments key, s ≠ "") ∧
      ∀ s ∈ segments key, '/' ∉ s.toList := by decide
  obtain ⟨ne, filled, slashless⟩ := path key two
  exact ⟨ne, filled, slashless⟩

theorem partition_exact_iff_siblings : ∃ p, partition siblingNodes [] siblings = .ok p ∧
    (Exact siblingNodes [] siblings p ↔ OneChild siblings ∧ KeysApart siblingNodes [] siblings) :=
  partition_exact_iff wellFormed_siblings

/-- The second sibling is listed before the first. -/
theorem siblings_turned : ¬ ∀ (nodes : List GraphNode) (edges : List GraphEdge)
    (nodeIdToPrefix : OrderedMap String String), (nodes.map GraphNode.id).Nodup →
    (∀ edge ∈ edges, edge.source ∈ nodes.map GraphNode.id ∧ edge.target ∈ nodes.map GraphNode.id) →
    WellFormed nodeIdToPrefix →
    ∃ p, partition nodes edges nodeIdToPrefix = .ok p ∧ Exact nodes edges nodeIdToPrefix p := by
  intro claim
  have well := wellFormed_siblings
  obtain ⟨p, run, exact_⟩ := claim siblingNodes [] siblings (by decide) (by simp) well
  rw [partition_eq _ _ well, Except.ok.injEq] at run
  subst run
  have single := (ordered_iff well).mp exact_.ordered
  have met : ∀ key ∈ siblings.values, key ∈ firstMet siblings := fun key mem =>
    (mem_firstMet well).mpr ⟨well key mem, key, mem, List.prefix_refl _⟩
  have equal := single "a/b" (met _ (by decide)) "a/c" (met _ (by decide)) (by decide) (by decide)
  revert equal
  decide

end Siblings

end LibPetri.Verified
