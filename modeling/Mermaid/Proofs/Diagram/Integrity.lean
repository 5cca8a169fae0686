import Mermaid.Graph.Diagram
import Mermaid.Proofs.ClassDiagram.Integrity
import Mermaid.Proofs.Flowchart.Writing

/-! The diagrams of every text have integrity, and so their graphs have the vertices that the
diagrams name and no others. -/
namespace Mermaid

private theorem eraseDups_of_nodup {names : List String} (h : names.Nodup) :
    names.eraseDups = names := by
  induction names with
  | nil => rfl
  | cons name names ih =>
    obtain ⟨hname, hnames⟩ := List.nodup_cons.mp h
    have hothers : names.filter (fun other => !other == name) = names := by
      rw [List.filter_eq_self]
      intro other hother
      have hne : other ≠ name := fun hsame => hname (hsame ▸ hother)
      simpa using hne
    rw [List.eraseDups_cons, hothers, ih hnames]

private theorem eraseDups_append_of_subset {names more : List String} (h : names.Nodup)
    (hmore : more ⊆ names) : (names ++ more).eraseDups = names := by
  have hnew : more.removeAll names = [] := by
    rw [List.removeAll, List.filter_eq_nil_iff]
    intro name hname
    simpa using hmore hname
  rw [List.eraseDups_append, hnew, eraseDups_of_nodup h, List.eraseDups_nil, List.append_nil]

/-- The ends of arcs that are vertices already add none. -/
theorem Multigraph.vertices_ofLists {vertices : List String} {arcs : List (String × String)}
    (hdistinct : vertices.Nodup) (hends : ∀ arc ∈ arcs, arc.1 ∈ vertices ∧ arc.2 ∈ vertices) :
    (ofLists vertices arcs).vertices = vertices := by
  refine eraseDups_append_of_subset hdistinct fun v hv => ?_
  obtain ⟨arc, harc, hv⟩ := List.mem_flatMap.mp hv
  rcases List.mem_pair.mp hv with rfl | rfl
  · exact (hends arc harc).1
  · exact (hends arc harc).2

namespace DiagramGraph

theorem graph_ofFlowchart {c : Flowchart} {g : DiagramGraph} (h : ofFlowchart c = .ok g) :
    g.graph = .ofLists (c.nodes.values.map Node.id) (c.edges.map fun e => (e.source, e.target)) := by
  simp only [ofFlowchart] at h
  split at h
  · cases h
  · obtain rfl := Except.ok.inj h
    rfl

theorem groups_ofFlowchart {c : Flowchart} {g : DiagramGraph} (h : ofFlowchart c = .ok g) :
    g.groups = c.allSubgraphs.map fun s => (s.id, s.members) := by
  simp only [ofFlowchart] at h
  split at h
  · cases h
  · obtain rfl := Except.ok.inj h
    rfl

/-- The graph of a flowchart is found where its subgraphs list nodes and nothing else. -/
theorem exists_ofFlowchart_of_members {c : Flowchart}
    (h : ∀ s ∈ c.allSubgraphs, s.members ⊆ c.nodes.values.map Node.id) : ∃ g, ofFlowchart c = .ok g := by
  have hmissing : ((c.allSubgraphs.map fun s => (s.id, s.members)).flatMap (·.2)).find?
      (· ∉ c.nodes.values.map Node.id) = none := by
    rw [List.find?_eq_none]
    intro id hid
    obtain ⟨_, hgroup, hid⟩ := List.mem_flatMap.mp hid
    obtain ⟨s, hs, rfl⟩ := List.mem_map.mp hgroup
    simpa using h s hs hid
  rw [ofFlowchart]
  simp only [hmissing]
  exact ⟨_, rfl⟩

/-- The graph of a flowchart with integrity is found, and its vertices are the nodes. -/
theorem exists_ofFlowchart {c : Flowchart} (h : c.Integrity) :
    ∃ g, ofFlowchart c = .ok g ∧ g.graph.vertices = c.nodes.keys := by
  have hmembers : ∀ s ∈ c.allSubgraphs, s.members ⊆ c.nodes.keys := by
    intro s hs
    obtain ⟨t, ht, hst⟩ := Subgraph.mem_unfold.mp hs
    exact (h.subgraphs t ht s hst).members
  have hends : ∀ arc ∈ c.edges.map fun e => (e.source, e.target),
      arc.1 ∈ c.nodes.keys ∧ arc.2 ∈ c.nodes.keys := by
    intro arc harc
    obtain ⟨e, he, rfl⟩ := List.mem_map.mp harc
    exact h.edges e he
  have hids : c.nodes.values.map Node.id = c.nodes.keys := h.nodes.map_values
  obtain ⟨g, hg⟩ := exists_ofFlowchart_of_members (hids ▸ hmembers)
  refine ⟨g, hg, ?_⟩
  rw [graph_ofFlowchart hg, hids]
  exact Multigraph.vertices_ofLists h.nodes.distinct hends

theorem vertices_ofClassDiagram {d : ClassDiagram} (h : d.Integrity) :
    (ofClassDiagram d).graph.vertices = d.classes.keys := by
  rw [ofClassDiagram, h.classes.map_values]
  refine Multigraph.vertices_ofLists h.classes.distinct fun arc harc => ?_
  obtain ⟨r, hr, rfl⟩ := List.mem_map.mp harc
  exact h.relations r hr

end DiagramGraph

/-- The diagrams of every text have integrity, however deep subgraphs may be nested, and so has the
flowchart at every event on the way. What edges and relations connect is found, and the graphs
have the nodes and the classes as their vertices. -/
theorem diagrams_integrity (text : String) :
    (∀ limit : Flowchart.Limit,
      let r := Flowchart.Grammar.document limit.depth (.ofText text) (Stream.ofText text).tokens
      let c := Flowchart.ofStreamWithin limit (.ofText text)
      (∀ events, events <+: r.events → (Flowchart.Draft.start.applyAll events).Integrity) ∧
      c.Integrity ∧
      (∀ e ∈ c.edges, ∃ source target, c.endpoints e = .ok (source, target) ∧
        source.id = e.source ∧ target.id = e.target) ∧
      ∃ g, DiagramGraph.ofFlowchart c = .ok g ∧ g.graph.vertices = c.nodes.keys) ∧
    let d := ClassDiagram.parse text
    d.Integrity ∧
    (∀ r ∈ d.relations, ∃ source target, d.endpoints r = .ok (source, target) ∧
      source.name = r.source ∧ target.name = r.target) ∧
    (DiagramGraph.ofClassDiagram d).graph.vertices = d.classes.keys := by
  constructor
  · intro limit r c
    have hc : c.Integrity := Flowchart.integrity_ofStreamWithin limit _
    exact ⟨fun _ => Flowchart.integrity_applyAll limit.depth _, hc, fun _ => hc.exists_endpoints,
      DiagramGraph.exists_ofFlowchart hc⟩
  · intro d
    have hd : d.Integrity := ClassDiagram.integrity_ofReply _
    exact ⟨hd, fun _ => hd.exists_endpoints, DiagramGraph.vertices_ofClassDiagram hd⟩

end Mermaid
