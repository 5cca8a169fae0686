import Mermaid.Diagnostic
import Mermaid.Registry

/-!
Flowcharts. The nodes stand in the order of their first mention, and everything else refers to
them by id.
-/
namespace Mermaid

inductive Direction
  | leftRight | rightLeft | topDown | bottomUp
  deriving DecidableEq, Repr

inductive NodeShape
  | rectangle | rounded | stadium | subroutine | cylinder | circle | doubleCircle
  | asymmetric | rhombus | hexagon | parallelogram | trapezoid
  deriving DecidableEq, Repr

inductive EdgeStyle
  | solid | dotted | thick | invisible
  deriving DecidableEq, Repr

inductive ArrowHead
  | normal | openHead | cross | circle | noHead
  deriving DecidableEq, Repr

def Direction.name : Direction → String
  | leftRight => "LR"
  | rightLeft => "RL"
  | topDown => "TD"
  | bottomUp => "BT"

def NodeShape.name : NodeShape → String
  | rectangle => "Rectangle"
  | rounded => "Rounded"
  | stadium => "Stadium"
  | subroutine => "Subroutine"
  | cylinder => "Cylinder"
  | circle => "Circle"
  | doubleCircle => "DoubleCircle"
  | asymmetric => "Asymmetric"
  | rhombus => "Rhombus"
  | hexagon => "Hexagon"
  | parallelogram => "Parallelogram"
  | trapezoid => "Trapezoid"

def EdgeStyle.name : EdgeStyle → String
  | solid => "Solid"
  | dotted => "Dotted"
  | thick => "Thick"
  | invisible => "Invisible"

def ArrowHead.name : ArrowHead → String
  | normal => "Normal"
  | openHead => "Open"
  | cross => "Cross"
  | circle => "Circle"
  | noHead => "NoHead"

structure Node where
  id : String
  text : String
  shape : NodeShape := .rectangle
  /-- The line that the node was defined or first mentioned on; 0 when no line is known. -/
  line : Int := 0
  classes : List String := []
  deriving DecidableEq, Repr

structure Edge where
  source : String
  target : String
  style : EdgeStyle := .solid
  head : ArrowHead := .normal
  label : Option String := none
  /-- How many ranks the edge spans at least. -/
  minLength : Int := 1
  deriving DecidableEq, Repr

structure Subgraph where
  id : String
  title : Option String := none
  /-- The subgraph's own direction, where it has one. -/
  direction : Option Direction := none
  /-- Whether the direction is one that was asked for. What is read asks for every direction it has. -/
  hasCustomDirection : Bool := direction.isSome
  members : List String := []
  children : List Subgraph := []
  deriving Repr

namespace Subgraph

mutual
def decEq : (s t : Subgraph) → Decidable (s = t)
  | ⟨i, t, d, g, ms, cs⟩, ⟨i', t', d', g', ms', cs'⟩ =>
    match decEqAll cs cs' with
    | isTrue h =>
      if h' : i = i' ∧ t = t' ∧ d = d' ∧ g = g' ∧ ms = ms' then isTrue (by simp [h, h'])
      else isFalse (by simp_all)
    | isFalse h => isFalse (by simp [h])

def decEqAll : (ss ts : List Subgraph) → Decidable (ss = ts)
  | [], [] => isTrue rfl
  | [], _ :: _ | _ :: _, [] => isFalse (by simp)
  | s :: ss, t :: ts =>
    match decEq s t, decEqAll ss ts with
    | isTrue h, isTrue h' => isTrue (by simp [h, h'])
    | isFalse h, _ => isFalse (by simp [h])
    | _, isFalse h => isFalse (by simp [h])
end

instance : DecidableEq Subgraph := decEq

end Subgraph

/-- A `classDef` line; its body is kept as text. -/
structure StyleClass where
  name : String
  properties : String := ""
  deriving DecidableEq, Repr

structure Flowchart where
  direction : Direction := .topDown
  nodes : Registry Node := .empty
  edges : List Edge := []
  subgraphs : List Subgraph := []
  styles : List StyleClass := []
  diagnostics : List Diagnostic := []
  deriving DecidableEq, Repr

/-- A node that has been mentioned and not defined. -/
def Node.bare (id : String) (line : Int) : Node := { id, text := id, line }

namespace Subgraph

/-- Adds a member; one that is there already keeps its place. -/
def addMember (s : Subgraph) (id : String) : Subgraph :=
  if id ∈ s.members then s else { s with members := s.members ++ [id] }

def addChild (s child : Subgraph) : Subgraph := { s with children := s.children ++ [child] }

/-- The subgraph that is reached by going down the list of indices. -/
def at? (s : Subgraph) : List Nat → Option Subgraph
  | [] => some s
  | i :: path => s.children[i]?.bind (·.at? path)

/-- Changes the subgraph that is reached by going down the list of indices. -/
def alterAt (change : Subgraph → Subgraph) : List Nat → Subgraph → Subgraph
  | [], s => change s
  | i :: path, s => { s with children := s.children.modify i (alterAt change path) }

mutual
/-- How many subgraphs there are in a subgraph, itself included. -/
def count : Subgraph → Nat
  | ⟨_, _, _, _, _, children⟩ => countAll children + 1

def countAll : List Subgraph → Nat
  | [] => 0
  | s :: rest => s.count + countAll rest
end

theorem countAll_append (xs ys : List Subgraph) :
    countAll (xs ++ ys) = countAll xs + countAll ys := by
  induction xs with
  | nil => simp [countAll]
  | cons s rest ih => simp [countAll, ih, Nat.add_assoc]

theorem count_eq (s : Subgraph) : s.count = countAll s.children + 1 := by
  cases s; rfl

/-- The subgraphs on a stack and all those inside them: the topmost one, then its children, which
take its place. -/
def unfold : List Subgraph → List Subgraph
  | [] => []
  | s :: stack => s :: unfold (s.children ++ stack)
  termination_by stack => countAll stack
  decreasing_by simp [countAll, countAll_append, count_eq, Nat.add_assoc]

end Subgraph

namespace Flowchart

def empty : Flowchart := {}

def findNode? (c : Flowchart) (id : String) : Option Node := c.nodes.find? id

/-- Registers a bare node unless the id is taken. -/
def ensureNode (c : Flowchart) (id : String) (line : Int) : Flowchart :=
  { c with nodes := c.nodes.ensure id (.bare id line) }

/-- Gives a node its text, shape and line; a node that is there already keeps its place and its
style classes. -/
def defineNode (c : Flowchart) (id text : String) (shape : NodeShape) (line : Int) : Flowchart :=
  { c with nodes := (c.nodes.ensure id { id, text, shape, line }).update id fun n =>
      { n with text, shape, line } }

/-- Gives a node a style class that it does not have yet. -/
def styleNode (c : Flowchart) (id className : String) : Flowchart :=
  { c with nodes := c.nodes.update id fun n =>
      if className ∈ n.classes then n else { n with classes := n.classes ++ [className] } }

/-- Adds an edge and the endpoints that are missing. -/
def addEdge (c : Flowchart) (e : Edge) : Flowchart :=
  let c := (c.ensureNode e.source 0).ensureNode e.target 0
  { c with edges := c.edges ++ [e] }

/-- The nodes that an edge connects. -/
def endpoints (c : Flowchart) (e : Edge) : Except Unresolved (Node × Node) := do
  return (← c.nodes.resolve e.source, ← c.nodes.resolve e.target)

/-- All subgraphs, each one before those inside it. -/
def allSubgraphs (c : Flowchart) : List Subgraph := Subgraph.unfold c.subgraphs

/-- The subgraph that is reached by a list of indices, the first one into the top level. -/
def subgraphAt? (c : Flowchart) : List Nat → Option Subgraph
  | [] => none
  | i :: path => c.subgraphs[i]?.bind (·.at? path)

def alterSubgraph (c : Flowchart) (change : Subgraph → Subgraph) : List Nat → Flowchart
  | [] => c
  | i :: path => { c with subgraphs := c.subgraphs.modify i (Subgraph.alterAt change path) }

/-- Adds a subgraph to the one that is reached by a path; the empty path is the top level. -/
def addSubgraph (c : Flowchart) (s : Subgraph) : List Nat → Flowchart
  | [] => { c with subgraphs := c.subgraphs ++ [s] }
  | path => c.alterSubgraph (·.addChild s) path

def addStyle (c : Flowchart) (s : StyleClass) : Flowchart := { c with styles := c.styles ++ [s] }

def report (c : Flowchart) (d : Diagnostic) : Flowchart :=
  { c with diagnostics := c.diagnostics ++ [d] }

end Flowchart
end Mermaid
