import Mermaid.Diagram.Basic
import Mermaid.Graph.Diagram
import Mermaid.Text.Quoted

/-!
Summaries of diagrams: counts first, then one line for each part. Texts and labels stand between
quotes, so that no part takes more than its line.
-/
namespace Mermaid
namespace Summary

def countLine (what : String) (n : Nat) : String := what ++ ": " ++ toString n

/-- A label behind what it labels; an empty one is left out. -/
def quotedLabel : Option String → String
  | none | some "" => ""
  | some label => " " ++ Text.quote label

/-- The ends of an edge or a relation. -/
def ends (source target : String) : String := source ++ " -> " ++ target ++ " "

end Summary

namespace Flowchart
open Summary

def nodeLine (n : Node) : String :=
  "  node " ++ n.id ++ " " ++ n.shape.name ++ " " ++ Text.quote n.text

def edgeLine (e : Edge) : String :=
  "  edge " ++ ends e.source e.target ++ e.style.name ++ "/" ++ e.head.name ++
    quotedLabel e.label

def groupLine (id : String) (members : List String) : String :=
  "  subgraph " ++ id ++ ": " ++ ", ".intercalate members

def summary (c : Flowchart) : Except Unresolved (List String) := do
  let g ← DiagramGraph.ofFlowchart c
  return ["flowchart " ++ c.direction.name,
      countLine "nodes" g.graph.vertices.length, countLine "edges" g.graph.arcs.length,
      countLine "subgraphs" g.groups.length,
      "acyclic: " ++ if g.graph.isAcyclic then "yes" else "no"] ++
    c.nodes.values.map nodeLine ++ c.edges.map edgeLine ++
    g.groups.map (fun (id, members) => groupLine id members) ++
    [countLine "errors" c.diagnostics.length]

end Flowchart

namespace ClassDiagram
open Summary

def titleLine : Option String → List String
  | none | some "" => []
  | some title => ["title: " ++ title]

def classLine (c : Classifier) : String :=
  "  class " ++ c.name ++ " (" ++ toString c.attributes.length ++ " attributes, " ++
    toString c.methods.length ++ " methods)"

def relationLine (r : Relation) : String :=
  "  relation " ++ ends r.source r.target ++ r.type.name ++ quotedLabel r.label

def summary (d : ClassDiagram) : List String :=
  let g := (DiagramGraph.ofClassDiagram d).graph
  "classDiagram" :: titleLine d.title ++
    [countLine "classes" g.vertices.length, countLine "relations" g.arcs.length] ++
    d.classes.values.map classLine ++ d.relations.map relationLine ++
    [countLine "errors" d.diagnostics.length]

end ClassDiagram

def Diagram.summary : Diagram → Except Unresolved (List String)
  | .flowchart c => c.summary
  | .classDiagram d => .ok d.summary

end Mermaid
