import Mermaid.Proofs.Diagram.Integrity
import Mermaid.Proofs.Graph.Generations

/-! The nodes of a diagram stand in a topological order just where its edges form no cycle. -/
namespace Mermaid

/-- The order of a graph that has these vertices and arcs: it is found unless some way along the arcs
comes back to its start, and it lists each vertex once, each arc from before to, by the generations
of the count of arcs. -/
structure Multigraph.Ordered (g : Multigraph) (vertices : List String)
    (arcs : List (String × String)) : Prop where
  found : g.topologicalOrder?.isSome ↔ ∀ v, ¬ Relation.TransGen (fun u w => (u, w) ∈ arcs) v v
  acyclic : g.isAcyclic ↔ ∀ v, ¬ Relation.TransGen (fun u w => (u, w) ∈ arcs) v v
  once : ∀ order ∈ g.topologicalOrder?, order.Nodup ∧ ∀ v, v ∈ order ↔ v ∈ vertices
  onward : ∀ order ∈ g.topologicalOrder?, ∀ arc ∈ arcs, order.idxOf arc.1 < order.idxOf arc.2
  generations : ∀ order ∈ g.topologicalOrder?, order = g.generations.flatten

theorem Multigraph.ordered_ofLists {vertices : List String} {arcs : List (String × String)}
    (h : ∀ arc ∈ arcs, arc.1 ∈ vertices ∧ arc.2 ∈ vertices) :
    (ofLists vertices arcs).Ordered vertices arcs := by
  have hclosed := closed_ofLists vertices arcs
  obtain ⟨hfound, hsorts⟩ := topologicalOrder?_spec hclosed
  refine ⟨hfound, hfound, fun order horder => ⟨?_, fun v => ?_⟩, fun order horder arc harc => ?_,
    fun order horder => ?_⟩
  · exact (hsorts order horder).perm.nodup_iff.mpr hclosed.distinct
  · rw [(hsorts order horder).perm.mem_iff, mem_vertices_ofLists, or_iff_left_iff_imp]
    rintro ⟨arc, harc, rfl | rfl⟩
    · exact (h arc harc).1
    · exact (h arc harc).2
  · exact (hsorts order horder).onward _ _ harc
  · rw [topologicalOrder?, Option.mem_def, Option.ite_none_right_eq_some] at horder
    obtain ⟨-, hplaceable⟩ := horder
    rw [← Option.some.inj hplaceable, placeable_eq_generations hclosed]

/-- Diagrams with all the ends of their edges and relations have a topological order just where these
form no cycle, and it is that of the graph. The graph of a flowchart is found where its subgraphs
list nodes and nothing else. A node is there under its id, and a class under its name, which are the keys
of diagrams that are built by calls. -/
theorem diagrams_ordered :
    (∀ c : Flowchart,
      let nodes := c.nodes.values.map Node.id
      (∀ e ∈ c.edges, e.source ∈ nodes ∧ e.target ∈ nodes) →
      ((∀ s ∈ c.allSubgraphs, s.members ⊆ nodes) → ∃ g, DiagramGraph.ofFlowchart c = .ok g) ∧
      (∀ g, DiagramGraph.ofFlowchart c = .ok g →
        g.graph.Ordered nodes (c.edges.map fun e => (e.source, e.target))) ∧
      (c.nodes.Keyed Node.id → nodes = c.nodes.keys)) ∧
    ∀ d : ClassDiagram,
      let classes := d.classes.values.map Classifier.name
      (∀ r ∈ d.relations, r.source ∈ classes ∧ r.target ∈ classes) →
      (DiagramGraph.ofClassDiagram d).graph.Ordered classes
        (d.relations.map fun r => (r.source, r.target)) ∧
      (d.classes.Keyed Classifier.name → classes = d.classes.keys) := by
  constructor
  · intro c nodes hc
    refine ⟨DiagramGraph.exists_ofFlowchart_of_members, fun g hg => ?_, Registry.Keyed.map_values⟩
    rw [DiagramGraph.graph_ofFlowchart hg]
    refine Multigraph.ordered_ofLists fun arc harc => ?_
    obtain ⟨e, he, rfl⟩ := List.mem_map.mp harc
    exact hc e he
  · intro d classes hd
    refine ⟨Multigraph.ordered_ofLists fun arc harc => ?_, Registry.Keyed.map_values⟩
    obtain ⟨r, hr, rfl⟩ := List.mem_map.mp harc
    exact hd r hr

/-- Two parallel edges and a way around them. -/
def detourChart : Flowchart :=
  [("C", "D"), ("A", "B"), ("A", "B"), ("A", "C"), ("B", "D")].foldl
    (fun c (source, target) => c.addEdge { source, target }) .empty

/-- A class that is related to itself. -/
def loopDiagram : ClassDiagram :=
  (ClassDiagram.empty.addRelation { source := "A", target := "B" }).addRelation
    { source := "B", target := "B" }

theorem diagrams_ordered_detourChart :
    (∃ g, DiagramGraph.ofFlowchart detourChart = .ok g ∧
      g.graph.Ordered ["C", "D", "A", "B"]
        [("C", "D"), ("A", "B"), ("A", "B"), ("A", "C"), ("B", "D")] ∧
      g.graph.topologicalOrder? = some ["A", "B", "C", "D"]) ∧
    (DiagramGraph.ofClassDiagram loopDiagram).graph.Ordered ["A", "B"] [("A", "B"), ("B", "B")] ∧
    (DiagramGraph.ofClassDiagram loopDiagram).graph.topologicalOrder? = none := by
  have hgraph : DiagramGraph.ofFlowchart detourChart =
      .ok ⟨.ofLists (detourChart.nodes.values.map Node.id) (detourChart.edges.map fun e => (e.source, e.target)),
        some .topDown, []⟩ := by decide +kernel
  refine ⟨⟨_, hgraph, (diagrams_ordered.1 detourChart (by decide)).2.1 _ hgraph, by decide +kernel⟩,
    (diagrams_ordered.2 loopDiagram (by decide)).1, by decide +kernel⟩

end Mermaid
