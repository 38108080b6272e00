import Mathlib

/-! # The typed graph

Nodes, edges and nested subgraphs, as the renderer and the mapper share them.  A node carries the name of the
place or transition behind it, an edge the kind of arc it was drawn for.
-/

namespace LibPetri

/-! ## Nodes and edges -/

inductive NodeShape
  | circle | doublecircle | box | diamond | ellipse | record
  deriving DecidableEq, Repr

inductive EdgeLineStyle
  | solid | dashed | bold | invis
  deriving DecidableEq, Repr

inductive ArrowHead
  | normal | odot | none | diamond | dot
  deriving DecidableEq, Repr

/-- The arc an edge was drawn for; a ghost edge was drawn for none. -/
inductive ArcType
  | input | output | inhibitor | read | reset | resetOutput | ghost
  deriving DecidableEq, Repr

/-- A record of attributes, in the order they were written. -/
abbrev Attributes := List (String × String)

structure GraphNode where
  id : String
  label : String
  shape : NodeShape
  fill : String
  stroke : String
  penwidth : ℚ
  semanticId : String
  style : Option String := none
  height : Option ℚ := none
  width : Option ℚ := none
  attrs : Option Attributes := none
  deriving DecidableEq

/-- The field `from` of the source is `source` here and `to` is `target`: the first is a keyword. -/
structure GraphEdge where
  source : String
  target : String
  label : Option String := none
  color : String
  style : EdgeLineStyle
  arrowhead : ArrowHead
  penwidth : Option ℚ := none
  arcType : ArcType
  attrs : Option Attributes := none
  deriving DecidableEq

/-! ## Subgraphs -/

structure Subgraph where
  id : String
  label : String
  nodes : List GraphNode
  edges : List GraphEdge
  subgraphs : List Subgraph
  attrs : Attributes

mutual

/-- A subgraph and everything nested in it, the outer ones first. -/
def Subgraph.all : Subgraph → List Subgraph
  | .mk id label nodes edges subgraphs attrs =>
    .mk id label nodes edges subgraphs attrs :: allOf subgraphs

def allOf : List Subgraph → List Subgraph
  | [] => []
  | g :: gs => g.all ++ allOf gs

end

theorem allOf_eq_flatMap (gs : List Subgraph) : allOf gs = gs.flatMap Subgraph.all := by
  induction gs with
  | nil => rw [allOf, List.flatMap_nil]
  | cons g gs ih => rw [allOf, ih, List.flatMap_cons]

theorem Subgraph.all_eq (g : Subgraph) : g.all = g :: g.subgraphs.flatMap Subgraph.all := by
  cases g
  rw [Subgraph.all, allOf_eq_flatMap]

/-! ## Identifiers -/

/-- Whether a character may stand in an identifier of the output. -/
def isWordChar (c : Char) : Bool := c.isAlphanum || c == '_'

/-- Every other code unit becomes an underscore, so a character of two units becomes two. -/
def sanitize (name : String) : String :=
  String.ofList (name.toList.flatMap fun c =>
    if isWordChar c then [c] else List.replicate (if c.toNat < 0x10000 then 1 else 2) '_')

end LibPetri
