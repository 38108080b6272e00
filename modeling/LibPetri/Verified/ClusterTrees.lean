import LibPetri.Verified.ClusterPrefixes

/-! # The cluster tree

What the three loops of the builder leave in the clusters, the tree that is assembled from them, and the ghost
edges.  The tree holds every cluster once, and so every node and edge; only the order of the children is not
the order in which they were met.
-/

namespace LibPetri.Verified

open LibPetri.Basis

/-! ## Routing -/

section Routing

variable {α : Type} {locate : α → Option String} {push : MutableCluster → α → MutableCluster}
  {items : List α} {clusters : Clusters}

variable (locate push items clusters) in
/-- Where every cluster is there, each item goes to its own, and the others stay outside. -/
theorem route_eq (present : ∀ item ∈ items, ∀ key, locate item = some key → key ∈ clusters.keys) :
    ∃ clusters', route locate push items clusters
        = .ok (items.filter fun item => locate item = none, clusters') ∧
      clusters'.keys = clusters.keys ∧
      ∀ key, clusters'.get? key = (clusters.get? key).map fun c =>
        (items.filter fun item => locate item = some key).foldl push c := by
  rw [route]
  induction items using List.reverseRecOn with
  | nil => exact ⟨clusters, rfl, rfl, fun key => by simp⟩
  | append_singleton items item ih =>
    obtain ⟨clusters', routed, keys, found⟩ := ih fun i mem => present i (List.mem_append_left _ mem)
    have last : (items ++ [item]).foldlM (routeOne locate push) ([], clusters)
        = routeOne locate push (items.filter fun item => locate item = none, clusters') item := by
      rw [List.foldlM_append, routed]
      exact bind_pure (m := Except (String × String)) _
    rw [last]
    cases at_ : locate item with
    | none =>
      refine ⟨clusters', ?_, keys, fun key => ?_⟩
      · rw [routeOne, at_, List.filter_append]
        simp [at_]
      · rw [found, List.filter_append]
        simp [at_]
    | some own =>
      have mem : own ∈ clusters'.keys := keys ▸ present item (by simp) own at_
      obtain ⟨c, here⟩ := Option.ne_none_iff_exists'.mp fun absent =>
        (clusters'.get?_eq_none_iff own).mp absent mem
      refine ⟨clusters'.set own (push c item), ?_, ?_, fun key => ?_⟩
      · rw [routeOne, at_, List.filter_append]
        simp only [here]
        simp [at_]
      · rw [OrderedMap.keys_set, if_pos mem, keys]
      · rw [OrderedMap.get?_set, List.filter_append]
        by_cases same : key = own
        · subst same
          have before := found key
          rw [here] at before
          obtain ⟨c₀, start, rfl⟩ := Option.map_eq_some_iff.mp before.symm
          rw [if_pos rfl, start]
          simp [at_]
        · have apart : ¬ own = key := fun eq => same eq.symm
          rw [if_neg same, found]
          simp [at_, apart]

theorem foldl_pushChild (items : List String) (c : MutableCluster) :
    items.foldl MutableCluster.pushChild c = { c with childPrefixes := c.childPrefixes ++ items } := by
  induction items generalizing c with
  | nil => simp
  | cons item items ih =>
    rw [List.foldl_cons, ih, MutableCluster.pushChild]
    simp

theorem foldl_pushNode (items : List GraphNode) (c : MutableCluster) :
    items.foldl MutableCluster.pushNode c = { c with nodes := c.nodes ++ items } := by
  induction items generalizing c with
  | nil => simp
  | cons item items ih =>
    rw [List.foldl_cons, ih, MutableCluster.pushNode]
    simp

theorem foldl_pushEdge (items : List GraphEdge) (c : MutableCluster) :
    items.foldl MutableCluster.pushEdge c = { c with edges := c.edges ++ items } := by
  induction items generalizing c with
  | nil => simp
  | cons item items ih =>
    rw [List.foldl_cons, ih, MutableCluster.pushEdge]
    simp

end Routing

/-! ## The filled clusters -/

section Filling

variable {order : List String} {key : String} {nodes : List GraphNode} {edges : List GraphEdge}
  {nodeIdToPrefix : OrderedMap String String}

theorem emptyClusters_eq (nodup : order.Nodup) : (emptyClusters order).keys = order ∧
    ∀ key ∈ order, (emptyClusters order).get? key = some { key } := by
  rw [emptyClusters]
  induction order using List.reverseRecOn with
  | nil => exact ⟨rfl, fun key mem => absurd mem List.not_mem_nil⟩
  | append_singleton order last ih =>
    rw [List.nodup_append] at nodup
    obtain ⟨keys, found⟩ := ih nodup.1
    have new : last ∉ order := fun mem => nodup.2.2 last mem last (List.mem_singleton_self _) rfl
    rw [List.foldl_append, List.foldl_cons, List.foldl_nil, OrderedMap.keys_set, keys, if_neg new]
    refine ⟨rfl, fun key mem => ?_⟩
    rw [OrderedMap.get?_set]
    by_cases same : key = last
    · rw [if_pos same, same]
    · rw [if_neg same]
      exact found key ((List.mem_append.mp mem).resolve_right fun h => same (List.mem_singleton.mp h))

theorem mem_values {id : String} (found : nodeIdToPrefix.get? id = some key) :
    key ∈ nodeIdToPrefix.values :=
  List.mem_map_of_mem (f := Prod.snd) (nodeIdToPrefix.get?_eq_some_iff.mp found)

theorem mem_firstMet_of_assigned (well : WellFormed nodeIdToPrefix) {id : String}
    (found : nodeIdToPrefix.get? id = some key) : key ∈ firstMet nodeIdToPrefix :=
  (mem_firstMet well).mpr ⟨well key (mem_values found), key, mem_values found, List.prefix_refl _⟩

/-- The deepest common prefix lies above both. -/
theorem deepestCommonPrefix_spec {a b : Option String} (well : ∀ k, a = some k → IsPrefix k) :
    deepestCommonPrefix a b = some key ↔ ∃ x y, a = some x ∧ b = some y ∧ IsPrefix key ∧
      segments key = commonBeginning (segments x) (segments y) := by
  cases a with
  | none => simp [deepestCommonPrefix]
  | some x =>
    cases b with
    | none => simp [deepestCommonPrefix]
    | some y =>
      have path := well x rfl
      rw [deepestCommonPrefix_eq path]
      constructor
      · intro found
        split at found
        · cases found
        next ne =>
          have above := isPath_beginning path ne (commonBeginning_prefix_left _ _)
          cases found
          exact ⟨x, y, rfl, rfl, isPrefix_joined above, segments_joined above⟩
      · rintro ⟨x', y', sameX, sameY, is, same⟩
        cases sameX
        cases sameY
        rw [← same, if_neg is.ne_nil, joined_segments]

theorem deepestCommonPrefix_mem (well : WellFormed nodeIdToPrefix) {edge : GraphEdge}
    (found : deepestCommonPrefix (nodeIdToPrefix.get? edge.source) (nodeIdToPrefix.get? edge.target) = some key) :
    key ∈ firstMet nodeIdToPrefix := by
  obtain ⟨x, y, source, _, is, same⟩ :=
    (deepestCommonPrefix_spec fun k at_ => well k (mem_values at_)).mp found
  refine (mem_firstMet well).mpr ⟨is, x, mem_values source, ?_⟩
  rw [same]
  exact commonBeginning_prefix_left _ _

variable (nodes edges nodeIdToPrefix) in
/-- What every cluster holds in the end. -/
def filled (key : String) : MutableCluster where
  key := key
  nodes := nodes.filter fun node => nodeIdToPrefix.get? node.id = some key
  edges := edges.filter fun edge =>
    deepestCommonPrefix (nodeIdToPrefix.get? edge.source) (nodeIdToPrefix.get? edge.target) = some key
  childPrefixes := childrenOf parentOf (firstMet nodeIdToPrefix) key

variable (nodes edges) in
/-- The three loops find every cluster they look for. -/
theorem clusters_filled (well : WellFormed nodeIdToPrefix) (nonempty : nodeIdToPrefix.size ≠ 0) :
    ∃ clusters : Clusters, clusters.keys = firstMet nodeIdToPrefix ∧
      (∀ key ∈ firstMet nodeIdToPrefix, clusters.get? key = some (filled nodes edges nodeIdToPrefix key)) ∧
      partition nodes edges nodeIdToPrefix = .ok {
        topLevelNodes := nodes.filter fun node => nodeIdToPrefix.get? node.id = none
        topLevelEdges := (edges.filter fun edge => deepestCommonPrefix (nodeIdToPrefix.get? edge.source)
          (nodeIdToPrefix.get? edge.target) = none) ++ synthesizeGhostEdges nodes edges nodeIdToPrefix
        topLevelSubgraphs := topLevelSubgraphs clusters } := by
  have rooted := rooted_firstMet well
  obtain ⟨keys₀, found₀⟩ := emptyClusters_eq rooted.nodup
  obtain ⟨wired, wires, keys₁, found₁⟩ := route_eq parentOf MutableCluster.pushChild
    (emptyClusters (firstMet nodeIdToPrefix)).keys (emptyClusters (firstMet nodeIdToPrefix)) (by
      rw [keys₀]
      exact fun key mem b above => rooted.closed key mem b above)
  obtain ⟨withNodes, puts, keys₂, found₂⟩ := route_eq
    (fun node : GraphNode => nodeIdToPrefix.get? node.id) MutableCluster.pushNode nodes wired (by
      rw [keys₁, keys₀]
      exact fun node _ key found => mem_firstMet_of_assigned well found)
  obtain ⟨clusters, lifts, keys₃, found₃⟩ := route_eq
    (fun edge : GraphEdge =>
      deepestCommonPrefix (nodeIdToPrefix.get? edge.source) (nodeIdToPrefix.get? edge.target))
    MutableCluster.pushEdge edges withNodes (by
      rw [keys₂, keys₁, keys₀]
      exact fun edge _ key found => deepestCommonPrefix_mem well found)
  refine ⟨clusters, by rw [keys₃, keys₂, keys₁, keys₀], fun key mem => ?_, ?_⟩
  · rw [found₃, found₂, found₁, found₀ key mem, keys₀, Option.map_some, Option.map_some, Option.map_some,
      foldl_pushChild, foldl_pushNode, foldl_pushEdge]
    rfl
  · rw [partition, if_neg nonempty, keys_prefixOrder well, wireChildren, wires]
    simp only [routeNodes, routeEdges, puts, lifts, bind, Except.bind, pure, Except.pure]

end Filling

/-! ## The tree -/

section Trees

variable {order rest : List String} {a key : String} {state : String → MutableCluster}

/-- The records of a list of clusters, from the last one on. -/
def buildAll (state : String → MutableCluster) (order : List String) : OrderedMap String Subgraph :=
  order.foldr (fun key built => built.set key (subgraphOf built (state key))) .empty

theorem get?_buildAll_ne (ne : key ≠ a) :
    (buildAll state (a :: rest)).get? key = (buildAll state rest).get? key := by
  rw [buildAll, List.foldr_cons, OrderedMap.get?_set, if_neg ne]
  rfl

theorem subgraphOf_congr {built built' : OrderedMap String Subgraph} {c : MutableCluster}
    (same : ∀ child ∈ c.childPrefixes, built'.get? child = built.get? child) :
    subgraphOf built' c = subgraphOf built c := by
  have children : c.childPrefixes.filterMap built'.get? = c.childPrefixes.filterMap built.get? :=
    List.filterMap_congr same
  rw [subgraphOf, subgraphOf, children]

/-- A record is made once its children are there, and those made later do not change it. -/
theorem get?_buildAll (ordered : ParentsFirst parentOf order)
    (children : ∀ key, ∀ child ∈ (state key).childPrefixes, parentOf child = some key) (mem : key ∈ order) :
    (buildAll state order).get? key = some (subgraphOf (buildAll state order) (state key)) := by
  induction order with
  | nil => cases mem
  | cons a rest ih =>
    have later : ParentsFirst parentOf rest := ParentsFirst.of_append (l := [a]) ordered
    -- the cluster that is entered now is no child of itself, and of no later one
    have kept : subgraphOf (buildAll state (a :: rest)) (state key) = subgraphOf (buildAll state rest) (state key) := by
      refine subgraphOf_congr fun child below => get?_buildAll_ne ?_
      rintro rfl
      have above := children key child below
      rcases List.mem_cons.mp mem with rfl | inRest
      · exact ordered.irrefl key List.mem_cons_self above
      · exact (List.pairwise_cons.mp ordered.forward).1 key inRest above
    rw [kept]
    rcases List.mem_cons.mp mem with rfl | inRest
    · rw [buildAll, List.foldr_cons, OrderedMap.get?_set, if_pos rfl]
      rfl
    · have ne : key ≠ a := by
        rintro rfl
        exact (List.nodup_cons.mp ordered.nodup).1 inRest
      rw [get?_buildAll_ne ne, ih later inRest]

/-- The record made for a cluster. -/
def recordOf (built : OrderedMap String Subgraph) (key : String) : Subgraph :=
  (built.get? key).getD ⟨"", "", [], [], [], []⟩

variable {clusters : Clusters}

/-- The records are made in the order of the keys. -/
theorem assemble_eq (keys : clusters.keys = order) (found : ∀ key ∈ order, clusters.get? key = some (state key))
    (named : ∀ key, (state key).key = key) : assemble clusters = buildAll state order := by
  have values : clusters.values = order.map state := by
    have entries : clusters.entries = clusters.keys.map fun key => (key, state key) := by
      rw [OrderedMap.keys, List.map_map]
      refine (List.map_id'' (fun e => rfl) _).symm.trans (List.map_congr_left fun e mem => ?_)
      have at_ := clusters.get?_eq_some_iff.mpr (show (e.1, e.2) ∈ clusters.entries from mem)
      have here := found e.1 (keys ▸ List.mem_map_of_mem mem)
      rw [at_, Option.some.injEq] at here
      exact Prod.ext rfl here
    rw [OrderedMap.values, entries, keys, List.map_map]
    rfl
  rw [assemble, values, ← List.map_reverse, List.foldl_map, List.foldl_reverse, buildAll]
  simp only [named]

/-- The tree over a cluster. -/
def treeOf (order : List String) (state : String → MutableCluster) : String → Subgraph :=
  recordOf (buildAll state order)

variable (state) in
theorem treeOf_eq (ordered : ParentsFirst parentOf order)
    (children : ∀ key, (state key).childPrefixes = childrenOf parentOf order key) (mem : key ∈ order) :
    (buildAll state order).get? key = some (treeOf order state key) ∧
      treeOf order state key = subgraphOf (buildAll state order) (state key) := by
  have found := get?_buildAll ordered
    (fun key child below => (mem_childrenOf.mp (children key ▸ below)).2) mem
  have record : treeOf order state key = subgraphOf (buildAll state order) (state key) := by
    rw [treeOf, recordOf, found, Option.getD_some]
  exact ⟨record ▸ found, record⟩

variable (state) in
/-- Its children are there, the last one first. -/
theorem subgraphs_treeOf (ordered : ParentsFirst parentOf order)
    (children : ∀ key, (state key).childPrefixes = childrenOf parentOf order key) (mem : key ∈ order) :
    (treeOf order state key).subgraphs = ((childrenOf parentOf order key).map (treeOf order state)).reverse := by
  have built : (childrenOf parentOf order key).filterMap (buildAll state order).get?
      = (childrenOf parentOf order key).map (treeOf order state) := by
    rw [← List.filterMap_eq_map]
    refine List.filterMap_congr fun child below => ?_
    exact (treeOf_eq state ordered children (mem_childrenOf.mp below).1).1
  rw [(treeOf_eq state ordered children mem).2, subgraphOf, children, built]

/-- The trees at the top enclose every tree once. -/
theorem allOf_treeOf_perm (rooted : Rooted parentOf order)
    (children : ∀ key, (state key).childPrefixes = childrenOf parentOf order key) :
    (allOf ((order.filter fun key => parentOf key = none).map (treeOf order state))).Perm
      (order.map (treeOf order state)) := by
  have ordered := rooted.toParentsFirst
  rw [allOf_eq_flatMap, List.flatMap_map, ← rooted.rootsOf_eq]
  refine ordered.forest_perm fun key mem => ?_
  rw [Subgraph.all_eq, subgraphs_treeOf state ordered children mem]
  refine List.Perm.cons _ (((List.reverse_perm _).flatMap_right _).trans ?_)
  rw [List.flatMap_map]

theorem topLevelSubgraphs_eq (rooted : Rooted parentOf order) (keys : clusters.keys = order)
    (found : ∀ key ∈ order, clusters.get? key = some (state key)) (named : ∀ key, (state key).key = key)
    (children : ∀ key, (state key).childPrefixes = childrenOf parentOf order key) :
    topLevelSubgraphs clusters = (order.filter fun key => parentOf key = none).map (treeOf order state) := by
  rw [topLevelSubgraphs, assemble_eq keys found named, keys, ← List.filterMap_eq_map]
  refine List.filterMap_congr fun key top => ?_
  exact (treeOf_eq state rooted.toParentsFirst children (List.mem_filter.mp top).1).1

end Trees

end LibPetri.Verified
