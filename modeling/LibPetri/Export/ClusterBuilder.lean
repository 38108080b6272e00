import LibPetri.Basis.OrderedMap
import LibPetri.Basis.SlashPaths
import LibPetri.Export.Graph

/-! # The cluster builder

Partitions the nodes and edges of a drawing into nested clusters, one for every prefix and for every beginning
of a prefix.  A node goes to the cluster of its own prefix, an edge to the deepest cluster that holds both ends,
and two clusters that a node without a prefix joins in one hop get a ghost edge between them.
-/

namespace LibPetri

open LibPetri.Basis

/-! ## Prefixes -/

/-- What stands before the last slash, unless nothing does. -/
def beforeLastSlash (name : String) : Option String :=
  match lastIndexOf '/' name.toList with
  | none | some 0 => none
  | some i => some (String.ofList (name.toList.take i))

def instancePrefixOf (nodeName : String) : Option String := beforeLastSlash nodeName

def parentOf (key : String) : Option String :=
  if key.length = 0 then none else beforeLastSlash key

/-- One segment further down. -/
def extended (built seg : String) : String :=
  (if built.length > 0 then built ++ "/" else built) ++ seg

/-- Enters a prefix and every intermediate one, from the root to the leaf. -/
def registerPrefixChain (key : String) (accumulator : OrderedMap String Unit) : OrderedMap String Unit :=
  if key.length = 0 then accumulator
  else
    ((segments key).foldl (fun (built, accumulator) seg =>
      let built := extended built seg
      (built, if built ∈ accumulator.keys then accumulator else accumulator.set built ()))
      ("", accumulator)).2

/-- The loop of `deepestCommonPrefix`, with what it has built and how many segments matched. -/
def commonFrom (built : String) (matched : Nat) : List String → List String → Option String
  | a :: aSegs, b :: bSegs =>
    if a ≠ b then if matched = 0 then none else some built
    else commonFrom ((if matched > 0 then built ++ "/" else built) ++ a) (matched + 1) aSegs bSegs
  | _, _ => if matched = 0 then none else some built

/-- The deepest prefix above both, themselves included. -/
def deepestCommonPrefix : Option String → Option String → Option String
  | some a, some b => if a = b then some a else commonFrom "" 0 (segments a) (segments b)
  | _, _ => none

/-! ## Ghost edges -/

/-- Where a ghost edge is anchored, and between which clusters it runs. -/
structure Anchor where
  source : String
  target : String
  x : String
  y : String

/-- Adds an edge to the list of an orphan. -/
def indexed (byOrphan : OrderedMap String (List GraphEdge)) (orphan : String) (edge : GraphEdge) :
    OrderedMap String (List GraphEdge) :=
  byOrphan.set orphan ((byOrphan.get? orphan).getD [] ++ [edge])

section Ghosts

variable (nodes : List GraphNode) (edges : List GraphEdge) (nodeIdToPrefix : OrderedMap String String)

/-- Whether a node has been given a prefix. -/
def hasPrefix (id : String) : Bool := (nodeIdToPrefix.get? id).isSome

/-- The edges from a cluster, by the orphan they end at. -/
def incomingByOrphan : OrderedMap String (List GraphEdge) :=
  edges.foldl (fun byOrphan edge =>
    if hasPrefix nodeIdToPrefix edge.source && !hasPrefix nodeIdToPrefix edge.target then
      indexed byOrphan edge.target edge
    else byOrphan) .empty

/-- The edges into a cluster, by the orphan they start from. -/
def outgoingByOrphan : OrderedMap String (List GraphEdge) :=
  edges.foldl (fun byOrphan edge =>
    if !hasPrefix nodeIdToPrefix edge.source && hasPrefix nodeIdToPrefix edge.target then
      indexed byOrphan edge.source edge
    else byOrphan) .empty

/-- Two prefixes with the null character between them. -/
def ghostKey (x y : String) : String := x ++ "\x00" ++ y

/-- The first pair of edges between two clusters anchors their ghost.
Both ends have a prefix, or the edges would not have been indexed. -/
def recordGhost (ghosts : OrderedMap String Anchor) (eIn eOut : GraphEdge) : OrderedMap String Anchor :=
  let x := (nodeIdToPrefix.get? eIn.source).getD ""
  let y := (nodeIdToPrefix.get? eOut.target).getD ""
  if x = y then ghosts
  else if ghostKey x y ∈ ghosts.keys then ghosts
  else ghosts.set (ghostKey x y) ⟨eIn.source, eOut.target, x, y⟩

/-- The anchors of all ghosts, found orphan by orphan. -/
def ghostAnchors : OrderedMap String Anchor :=
  nodes.foldl (fun ghosts node =>
    if hasPrefix nodeIdToPrefix node.id then ghosts
    else
      match (incomingByOrphan edges nodeIdToPrefix).get? node.id,
        (outgoingByOrphan edges nodeIdToPrefix).get? node.id with
      | some incoming, some outgoing =>
        incoming.foldl (fun ghosts eIn =>
          outgoing.foldl (fun ghosts eOut => recordGhost nodeIdToPrefix ghosts eIn eOut) ghosts) ghosts
      | _, _ => ghosts) .empty

/-- The ghost edge of an anchor. -/
def Anchor.edge (anchor : Anchor) : GraphEdge where
  source := anchor.source
  target := anchor.target
  color := "#000000"
  style := .invis
  arrowhead := .none
  arcType := .ghost
  attrs := some [("ltail", "cluster_" ++ sanitize anchor.x), ("lhead", "cluster_" ++ sanitize anchor.y)]

def synthesizeGhostEdges : List GraphEdge :=
  (ghostAnchors nodes edges nodeIdToPrefix).values.map Anchor.edge

end Ghosts

/-! ## Clusters -/

/-- A cluster while it is filled.  The field `prefix` of the source is `key` here: the name is a keyword. -/
structure MutableCluster where
  key : String
  nodes : List GraphNode := []
  edges : List GraphEdge := []
  childPrefixes : List String := []

def MutableCluster.pushChild (c : MutableCluster) (child : String) : MutableCluster :=
  { c with childPrefixes := c.childPrefixes ++ [child] }

def MutableCluster.pushNode (c : MutableCluster) (node : GraphNode) : MutableCluster :=
  { c with nodes := c.nodes ++ [node] }

def MutableCluster.pushEdge (c : MutableCluster) (edge : GraphEdge) : MutableCluster :=
  { c with edges := c.edges ++ [edge] }

abbrev Clusters := OrderedMap String MutableCluster

/-- A prefix no cluster was entered for is looked up. -/
def noCluster : String × String := ("TypeError", "Cannot read properties of undefined")

/-- One item goes into the cluster it is located in, or with those that are in none. -/
def routeOne {α : Type} (locate : α → Option String) (push : MutableCluster → α → MutableCluster) :
    List α × Clusters → α → Except (String × String) (List α × Clusters)
  | (outside, clusters), item =>
    match locate item with
    | none => .ok (outside ++ [item], clusters)
    | some key =>
      match clusters.get? key with
      | none => .error noCluster
      | some c => .ok (outside, clusters.set key (push c item))

/-- Every item in turn: the loop that is written three times. -/
def route {α : Type} (locate : α → Option String) (push : MutableCluster → α → MutableCluster)
    (items : List α) (clusters : Clusters) : Except (String × String) (List α × Clusters) :=
  items.foldlM (routeOne locate push) ([], clusters)

section Partition

variable (nodes : List GraphNode) (edges : List GraphEdge) (nodeIdToPrefix : OrderedMap String String)

/-- Every prefix, and every one above it, in the order they are met. -/
def prefixOrder : OrderedMap String Unit :=
  nodeIdToPrefix.values.foldl (fun order key => registerPrefixChain key order) .empty

/-- Empty clusters under the given prefixes. -/
def emptyClusters (order : List String) : Clusters :=
  order.foldl (fun clusters key => clusters.set key { key }) .empty

/-- Hands every cluster to its parent; those without one are not kept. -/
def wireChildren (clusters : Clusters) : Except (String × String) (List String × Clusters) :=
  route parentOf MutableCluster.pushChild clusters.keys clusters

def routeNodes (clusters : Clusters) : Except (String × String) (List GraphNode × Clusters) :=
  route (fun node => nodeIdToPrefix.get? node.id) MutableCluster.pushNode nodes clusters

def routeEdges (clusters : Clusters) : Except (String × String) (List GraphEdge × Clusters) :=
  route (fun edge => deepestCommonPrefix (nodeIdToPrefix.get? edge.source) (nodeIdToPrefix.get? edge.target))
    MutableCluster.pushEdge edges clusters

def DEFAULT_CLUSTER_ATTRS : Attributes :=
  [("style", "rounded,dashed"), ("bgcolor", "#FAFAFA"), ("penwidth", "1.5")]

/-- The record of one cluster, its children taken from those already built and turned around. -/
def subgraphOf (built : OrderedMap String Subgraph) (state : MutableCluster) : Subgraph where
  id := sanitize state.key
  label := state.key
  nodes := state.nodes
  edges := state.edges
  subgraphs := (state.childPrefixes.filterMap built.get?).reverse
  attrs := DEFAULT_CLUSTER_ATTRS

/-- All records, the last cluster first, so that children are built before their parents. -/
def assemble (clusters : Clusters) : OrderedMap String Subgraph :=
  clusters.values.reverse.foldl (fun built state => built.set state.key (subgraphOf built state)) .empty

structure Partition where
  topLevelNodes : List GraphNode
  topLevelEdges : List GraphEdge
  topLevelSubgraphs : List Subgraph

/-- The records of the clusters no other one encloses. -/
def topLevelSubgraphs (clusters : Clusters) : List Subgraph :=
  (clusters.keys.filter fun key => parentOf key = none).filterMap (assemble clusters).get?

/-- The nodes and edges in their clusters. -/
def partition : Except (String × String) Partition :=
  if nodeIdToPrefix.size = 0 then .ok ⟨nodes, edges, []⟩
  else do
    let (_, wired) ← wireChildren (emptyClusters (prefixOrder nodeIdToPrefix).keys)
    let (topLevelNodes, withNodes) ← routeNodes nodes nodeIdToPrefix wired
    let (topLevelEdges, clusters) ← routeEdges edges nodeIdToPrefix withNodes
    return {
      topLevelNodes
      topLevelEdges := topLevelEdges ++ synthesizeGhostEdges nodes edges nodeIdToPrefix
      topLevelSubgraphs := topLevelSubgraphs clusters }

end Partition

end LibPetri
