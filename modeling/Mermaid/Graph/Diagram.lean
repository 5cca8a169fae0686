import Mermaid.ClassDiagram.Basic
import Mermaid.Flowchart.Basic
import Mermaid.Graph.Topological

/-!
The graph of a diagram: its topology, and which subgraph lists which nodes.
-/
namespace Mermaid

structure DiagramGraph where
  graph : Multigraph
  direction : Option Direction := none
  /-- The subgraphs with their members, each subgraph before those inside it. -/
  groups : List (String × List String) := []
  deriving DecidableEq, Repr

namespace DiagramGraph

/-- The last group that lists a node. -/
def group? (g : DiagramGraph) (id : String) : Option String :=
  (g.groups.reverse.find? fun (_, members) => members.contains id).map (·.1)

/-- The graph of a flowchart; a subgraph cannot list what is not a node. -/
def ofFlowchart (c : Flowchart) : Except Unresolved DiagramGraph :=
  let nodes := c.nodes.values.map (·.id)
  let groups := c.allSubgraphs.map fun s => (s.id, s.members)
  match (groups.flatMap (·.2)).find? (· ∉ nodes) with
  | some id => .error ⟨id⟩
  | none => .ok {
      graph := .ofLists nodes (c.edges.map fun e => (e.source, e.target))
      direction := some c.direction
      groups }

def ofClassDiagram (d : ClassDiagram) : DiagramGraph where
  graph := .ofLists (d.classes.values.map (·.name)) (d.relations.map fun r => (r.source, r.target))

end DiagramGraph
end Mermaid
