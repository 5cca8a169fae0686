import Mermaid.Diagram.Basic
import Mermaid.Json.Basic

/-!
Diagrams as JSON values, with one member for each field and the registered values under their
names.
-/
namespace Mermaid

def Diagnostic.record (d : Diagnostic) : Json := .obj [
  ("message", .str d.message), ("line", .int d.position.line), ("column", .int d.position.column)]

def Node.record (n : Node) : Json := .obj [
  ("id", .str n.id), ("text", .str n.text), ("shape", .str n.shape.name),
  ("source_line", .int n.line), ("classes", .strs n.classes)]

def Edge.record (e : Edge) : Json := .obj [
  ("from_id", .str e.source), ("to_id", .str e.target), ("edge_style", .str e.style.name),
  ("arrowhead", .str e.head.name), ("label", .strOrNull e.label), ("min_length", .int e.minLength)]

namespace Subgraph

mutual
def record : Subgraph → Json
  | ⟨id, title, direction, hasCustomDirection, members, children⟩ => .obj [
      ("id", .str id), ("title", .strOrNull title),
      ("direction", .strOrNull (direction.map (·.name))),
      ("has_custom_direction", .bool hasCustomDirection), ("node_ids", .strs members),
      ("subgraphs", .arr (records children))]

def records : List Subgraph → List Json
  | [] => []
  | s :: rest => s.record :: records rest
end

end Subgraph

def StyleClass.record (s : StyleClass) : Json := .obj [
  ("class_name", .str s.name), ("properties", .str s.properties)]

def Flowchart.record (c : Flowchart) : Json := .obj [
  ("direction", .str c.direction.name),
  ("nodes", .obj (c.nodes.entries.map fun (id, n) => (id, n.record))),
  ("edges", .arr (c.edges.map (·.record))),
  ("subgraphs", .arr (Subgraph.records c.subgraphs)),
  ("styles", .arr (c.styles.map (·.record))),
  ("errors", .arr (c.diagnostics.map (·.record)))]

def Member.record (m : Member) : Json := .obj [
  ("name", .str m.name), ("is_method", .bool m.isMethod), ("visibility", .str m.visibility.name),
  ("type_name", .strOrNull m.type)]

def Classifier.record (c : Classifier) : Json := .obj [
  ("name", .str c.name), ("members", .arr (c.members.map (·.record))),
  ("source_line", .int c.line), ("annotation", .strOrNull c.stereotype)]

def Relation.record (r : Relation) : Json := .obj [
  ("from_name", .str r.source), ("to_name", .str r.target), ("relation_type", .str r.type.name),
  ("label", .strOrNull r.label), ("from_cardinality", .strOrNull r.sourceCardinality),
  ("to_cardinality", .strOrNull r.targetCardinality)]

def ClassDiagram.record (d : ClassDiagram) : Json := .obj [
  ("title", .strOrNull d.title),
  ("classes", .obj (d.classes.entries.map fun (name, c) => (name, c.record))),
  ("relations", .arr (d.relations.map (·.record))),
  ("errors", .arr (d.diagnostics.map (·.record)))]

def Diagram.record : Diagram → Json
  | .flowchart c => c.record
  | .classDiagram d => d.record

end Mermaid
