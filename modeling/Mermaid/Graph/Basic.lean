/-!
Directed graphs with parallel edges. Vertices and arcs stand in the order in which they were added,
and every order below is derived from that one.
-/
namespace Mermaid

/-- An arc joins its first vertex to its second. -/
structure Multigraph where
  vertices : List String
  arcs : List (String × String)
  deriving DecidableEq, Repr

namespace Multigraph

/-- The graph of some vertices and arcs. Each vertex counts once, and the ends of an arc are
vertices too. -/
def ofLists (vertices : List String) (arcs : List (String × String)) : Multigraph where
  vertices := (vertices ++ arcs.flatMap fun (u, v) => [u, v]).eraseDups
  arcs := arcs

variable (g : Multigraph)

def inDegree (v : String) : Nat := g.arcs.countP (·.2 == v)

def outDegree (v : String) : Nat := g.arcs.countP (·.1 == v)

/-- The heads of the arcs from `u`, each one once, in the order of the first arc to it. -/
def successors (u : String) : List String :=
  ((g.arcs.filter (·.1 == u)).map (·.2)).eraseDups

/-- The tails of the arcs to `v`. -/
def predecessors (v : String) : List String := (g.arcs.filter (·.2 == v)).map (·.1)

/-- The places in the list of arcs at which the arcs from `u` to `v` stand. -/
def parallel (u v : String) : List Nat :=
  (g.arcs.zipIdx.filter (·.1 == (u, v))).map (·.2)

end Multigraph

/-- An arc with its number among the arcs that are parallel to it, and its place among all. -/
structure NumberedArc where
  source : String
  target : String
  key : Nat
  index : Nat
  deriving DecidableEq, Repr

namespace Multigraph
variable (g : Multigraph)

/-- All arcs: by tail in the order of the vertices, by head in the order of the first arc to it,
and then one parallel arc after the other. -/
def numberedArcs : List NumberedArc :=
  g.vertices.flatMap fun u => (g.successors u).flatMap fun v =>
    (g.parallel u v).zipIdx.map fun (index, key) => ⟨u, v, key, index⟩

/-- Every vertex with its successors, both sorted by code points. -/
def adjacency : List (String × List String) :=
  (g.vertices.mergeSort (· ≤ ·)).map fun u => (u, (g.successors u).mergeSort (· ≤ ·))

end Multigraph
end Mermaid
