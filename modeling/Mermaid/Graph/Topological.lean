import Mermaid.Graph.Basic

/-!
Topological orders. The vertices without a predecessor come first; every other vertex is put in
line when the last of its predecessors is placed.
-/
namespace Mermaid.Multigraph

variable (g : Multigraph)

/-- The successors of `u` that have no predecessor besides `u` and the placed vertices. -/
def freed (placed : List String) (u : String) : List String :=
  (g.successors u).filter fun v => (g.predecessors v).all fun w => w == u || placed.contains w

/-- Places the vertices in line, the last one placed first; `bound` is how many can still come. -/
def drain : (bound : Nat) → (placed line : List String) → List String
  | 0, placed, _ => placed
  | _, placed, [] => placed
  | bound + 1, placed, u :: line => drain bound (u :: placed) (line ++ g.freed placed u)

/-- As many vertices as can stand behind all their predecessors. -/
def placeable : List String :=
  (g.drain g.vertices.length [] (g.vertices.filter (g.inDegree · == 0))).reverse

/-- The vertices, each one after its predecessors; a graph with a cycle has no such order. -/
def topologicalOrder? : Option (List String) :=
  if g.placeable.length = g.vertices.length then some g.placeable else none

def isAcyclic : Bool := g.topologicalOrder?.isSome

end Mermaid.Multigraph
