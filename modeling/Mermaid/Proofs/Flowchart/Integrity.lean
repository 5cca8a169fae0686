import Mermaid.Flowchart.Event
import Mermaid.Proofs.Registry

/-! The integrity of charts: whatever refers to a node refers to one that there is. Every event
keeps it, of the chart and of the subgraphs that are open. -/
namespace Mermaid

namespace Subgraph
variable {s t : Subgraph} {known : List String}

/-- A subgraph is within itself, and within every subgraph that has a child around it. -/
inductive Within (s : Subgraph) : Subgraph → Prop
  | self : Within s s
  | child {t u : Subgraph} (ht : t ∈ u.children) (h : Within s t) : Within s u

theorem within_iff : s.Within t ↔ s = t ∨ ∃ u ∈ t.children, s.Within u := by
  constructor
  · intro h
    cases h with
    | self => exact .inl rfl
    | child hu h => exact .inr ⟨_, hu, h⟩
  · rintro (rfl | ⟨u, hu, h⟩)
    · exact .self
    · exact .child hu h

theorem mem_unfold {stack : List Subgraph} : s ∈ unfold stack ↔ ∃ t ∈ stack, s.Within t := by
  induction stack using unfold.induct with
  | case1 => simp [unfold]
  | case2 t stack ih =>
    rw [unfold, List.mem_cons, ih]
    simp only [List.mem_append, List.mem_cons, or_and_right, exists_or, exists_eq_left, or_assoc,
      within_iff (t := t)]

/-- Has only members that are known, and each of them once. -/
structure Lists (known : List String) (s : Subgraph) : Prop where
  members : s.members ⊆ known
  distinct : s.members.Nodup

/-- Has, like the subgraphs in it at any depth, only members that are known. -/
def Closed (known : List String) (s : Subgraph) : Prop := ∀ t : Subgraph, t.Within s → t.Lists known

theorem closed_iff : s.Closed known ↔ s.Lists known ∧ ∀ t ∈ s.children, t.Closed known := by
  constructor
  · exact fun h => ⟨h s .self, fun t ht u hu => h u (.child ht hu)⟩
  · rintro ⟨hs, hchildren⟩ t ht
    rcases within_iff.mp ht with rfl | ⟨u, hu, ht⟩
    · exact hs
    · exact hchildren u hu t ht

namespace Closed

theorem mono {more : List String} (h : s.Closed known) (hk : known ⊆ more) : s.Closed more :=
  fun t ht => ⟨fun _ hid => hk ((h t ht).members hid), (h t ht).distinct⟩

theorem addMember {id : String} (h : s.Closed known) (hid : id ∈ known) :
    (s.addMember id).Closed known := by
  by_cases hmem : id ∈ s.members
  · rw [Subgraph.addMember, if_pos hmem]
    exact h
  · rw [Subgraph.addMember, if_neg hmem]
    obtain ⟨hs, hchildren⟩ := closed_iff.mp h
    refine closed_iff.mpr ⟨⟨?_, ?_⟩, hchildren⟩
    · exact List.append_subset.mpr ⟨hs.members, by simpa using hid⟩
    · refine hs.distinct.append (List.nodup_singleton id) ?_
      intro id' hid' hsame
      obtain rfl : id' = id := List.mem_singleton.mp hsame
      exact hmem hid'

theorem addChild (h : s.Closed known) (ht : t.Closed known) : (s.addChild t).Closed known := by
  obtain ⟨hs, hchildren⟩ := closed_iff.mp h
  refine closed_iff.mpr ⟨⟨hs.members, hs.distinct⟩, fun u hu => ?_⟩
  rcases List.mem_append.mp hu with hu | hu
  · exact hchildren u hu
  · obtain rfl : u = t := List.mem_singleton.mp hu
    exact ht

end Closed
end Subgraph

/-- An edge has a label that says something, or none, and spans a rank at least. -/
structure Edge.Sound (e : Edge) : Prop where
  label : e.label ≠ some ""
  minLength : 1 ≤ e.minLength

namespace Flowchart
variable {c : Flowchart}

/-- Nodes stand under their ids, and what refers to a node refers to one of them. -/
structure Integrity (c : Flowchart) : Prop where
  nodes : c.nodes.Keyed Node.id
  classes : c.nodes.All fun n => n.classes.Nodup
  edges : ∀ e ∈ c.edges, e.source ∈ c.nodes.keys ∧ e.target ∈ c.nodes.keys
  sound : ∀ e ∈ c.edges, e.Sound
  subgraphs : ∀ s ∈ c.subgraphs, s.Closed c.nodes.keys

namespace Integrity

theorem empty : empty.Integrity where
  nodes := .empty
  classes := .empty
  edges _ h := by cases h
  sound _ h := by cases h
  subgraphs _ h := by cases h

/-- Integrity is kept when nodes are added and changed, as long as none is lost. -/
private theorem onNodes (h : c.Integrity) {nodes : Registry Node} (hnodes : nodes.Keyed Node.id)
    (hclasses : nodes.All fun n => n.classes.Nodup) (hkeys : c.nodes.keys ⊆ nodes.keys) :
    Integrity { c with nodes } where
  nodes := hnodes
  classes := hclasses
  edges e he := ⟨hkeys (h.edges e he).1, hkeys (h.edges e he).2⟩
  sound := h.sound
  subgraphs s hs := (h.subgraphs s hs).mono hkeys

theorem ensureNode (h : c.Integrity) (id : String) (line : Int) : (c.ensureNode id line).Integrity :=
  h.onNodes (h.nodes.ensure rfl) (h.classes.ensure List.nodup_nil) Registry.keys_subset_ensure

theorem defineNode (h : c.Integrity) (id text : String) (shape : NodeShape) (line : Int) :
    (c.defineNode id text shape line).Integrity := by
  refine h.onNodes (.update (h.nodes.ensure rfl) fun _ => rfl)
    (.update (h.classes.ensure List.nodup_nil) fun _ hn => hn) ?_
  rw [Registry.keys_update]
  exact Registry.keys_subset_ensure

theorem styleNode (h : c.Integrity) (id className : String) : (c.styleNode id className).Integrity := by
  refine h.onNodes (h.nodes.update fun n => ?_) (h.classes.update fun n hn => ?_) ?_
  · split <;> rfl
  · split
    · exact hn
    · rename_i hnew
      refine hn.append (List.nodup_singleton className) ?_
      intro name hname hsame
      obtain rfl : name = className := List.mem_singleton.mp hsame
      exact hnew hname
  · rw [Registry.keys_update]
    exact List.Subset.refl _

theorem addEdge (h : c.Integrity) {e : Edge} (he : e.Sound) : (c.addEdge e).Integrity := by
  have hends := (h.ensureNode e.source 0).ensureNode e.target 0
  refine ⟨hends.nodes, hends.classes, fun e' he' => ?_, fun e' he' => ?_, hends.subgraphs⟩
  · rcases List.mem_append.mp he' with he' | he'
    · exact hends.edges e' he'
    · obtain rfl : e' = e := List.mem_singleton.mp he'
      exact ⟨Registry.keys_subset_ensure Registry.key_mem_ensure, Registry.key_mem_ensure⟩
  · rcases List.mem_append.mp he' with he' | he'
    · exact hends.sound e' he'
    · exact List.mem_singleton.mp he' ▸ he

theorem addSubgraph (h : c.Integrity) {s : Subgraph} (hs : s.Closed c.nodes.keys) :
    (c.addSubgraph s []).Integrity := by
  refine ⟨h.nodes, h.classes, h.edges, h.sound, fun t ht => ?_⟩
  rcases List.mem_append.mp ht with ht | ht
  · exact h.subgraphs t ht
  · exact List.mem_singleton.mp ht ▸ hs

theorem report (h : c.Integrity) (d : Diagnostic) : (c.report d).Integrity :=
  ⟨h.nodes, h.classes, h.edges, h.sound, h.subgraphs⟩

/-- An edge's nodes are found, and they are the ones that it names. -/
theorem exists_endpoints (h : c.Integrity) {e : Edge} (he : e ∈ c.edges) :
    ∃ source target, c.endpoints e = .ok (source, target) ∧
      source.id = e.source ∧ target.id = e.target := by
  obtain ⟨source, hsource, hsid⟩ := h.nodes.exists_resolve (h.edges e he).1
  obtain ⟨target, htarget, htid⟩ := h.nodes.exists_resolve (h.edges e he).2
  refine ⟨source, target, ?_, hsid, htid⟩
  rw [endpoints, hsource, htarget]
  rfl

end Integrity

section keys

theorem keys_subset_defineNode (id text : String) (shape : NodeShape) (line : Int) :
    c.nodes.keys ⊆ (c.defineNode id text shape line).nodes.keys := by
  rw [defineNode, Registry.keys_update]
  exact Registry.keys_subset_ensure

theorem keys_subset_addEdge (e : Edge) : c.nodes.keys ⊆ (c.addEdge e).nodes.keys :=
  fun _ h => Registry.keys_subset_ensure (Registry.keys_subset_ensure h)

end keys

/-- Edges are sound, and subgraphs are empty when they are entered. -/
def Event.Sound : Event → Prop
  | .link e => e.Sound
  | .enter s => s.members = [] ∧ s.children = []
  | _ => True

namespace Draft

@[simp] theorem chart_join (d : Draft) (id : String) : (d.join id).chart = d.chart := by
  rw [join]
  split <;> rfl

/-- Style classes are given to nodes, and nothing else is changed. -/
theorem exists_nodes_assign (d : Draft) (ids : List String) (className : String) (line : Int) :
    ∃ nodes, d.apply (.assign ids className line) = { d with chart := { d.chart with nodes } } := by
  obtain ⟨c, opened⟩ := d
  induction ids generalizing c with
  | nil => exact ⟨c.nodes, rfl⟩
  | cons id ids ih => exact ih _

/-- The chart has integrity, and so have the subgraphs that are open. -/
structure Integrity (d : Draft) : Prop where
  chart : d.chart.Integrity
  opened : ∀ s ∈ d.opened, s.Closed d.chart.nodes.keys

namespace Integrity
variable {d : Draft}

theorem start : start.Integrity := ⟨.empty, fun _ h => by cases h⟩

private theorem onChart (h : d.Integrity) (hc : c.Integrity)
    (hkeys : d.chart.nodes.keys ⊆ c.nodes.keys) : Integrity { d with chart := c } :=
  ⟨hc, fun s hs => (h.opened s hs).mono hkeys⟩

theorem join (h : d.Integrity) {id : String} (hid : id ∈ d.chart.nodes.keys) :
    (d.join id).Integrity := by
  rw [Draft.join]
  split
  · exact h
  · rename_i s outer hopened
    have hall := h.opened
    rw [hopened, List.forall_mem_cons] at hall
    exact ⟨h.chart, List.forall_mem_cons.mpr ⟨hall.1.addMember hid, hall.2⟩⟩

theorem close (h : d.Integrity) : d.close.Integrity := by
  rw [Draft.close]
  split
  · exact h
  · rename_i s hopened
    have hs : s.Closed d.chart.nodes.keys := h.opened s (by simp [hopened])
    exact ⟨h.chart.addSubgraph hs, fun _ ht => by cases ht⟩
  · rename_i s parent outer hopened
    have hall := h.opened
    rw [hopened, List.forall_mem_cons, List.forall_mem_cons] at hall
    exact ⟨h.chart, List.forall_mem_cons.mpr ⟨hall.2.1.addChild hall.1, hall.2.2⟩⟩

private theorem assign (h : c.Integrity) (ids : List String) (className : String) (line : Int) :
    let c' := ids.foldl (fun c id => (c.ensureNode id line).styleNode id className) c
    c'.Integrity ∧ c.nodes.keys ⊆ c'.nodes.keys := by
  induction ids generalizing c with
  | nil => exact ⟨h, List.Subset.refl _⟩
  | cons id ids ih =>
    obtain ⟨hall, hkeys⟩ := ih ((h.ensureNode id line).styleNode id className)
    refine ⟨hall, fun k hk => hkeys ?_⟩
    rw [styleNode, Registry.keys_update]
    exact Registry.keys_subset_ensure hk

/-- Every sound event keeps integrity. -/
theorem apply (h : d.Integrity) {e : Event} (he : e.Sound) : (d.apply e).Integrity := by
  cases e with
  | orient direction =>
    have hc := h.chart
    exact h.onChart ⟨hc.nodes, hc.classes, hc.edges, hc.sound, hc.subgraphs⟩ (List.Subset.refl _)
  | mention id line =>
    exact (h.onChart (h.chart.ensureNode id line) Registry.keys_subset_ensure).join
      Registry.key_mem_ensure
  | define id text shape line =>
    refine (h.onChart (h.chart.defineNode id text shape line)
      (keys_subset_defineNode id text shape line)).join ?_
    simp only [defineNode, Registry.keys_update]
    exact Registry.key_mem_ensure
  | link e => exact h.onChart (h.chart.addEdge he) (keys_subset_addEdge e)
  | enter s =>
    refine ⟨h.chart, List.forall_mem_cons.mpr ⟨?_, h.opened⟩⟩
    obtain ⟨hmembers, hchildren⟩ := he
    refine Subgraph.closed_iff.mpr ⟨⟨?_, ?_⟩, ?_⟩
    · rw [hmembers]
      exact List.nil_subset _
    · rw [hmembers]
      exact List.nodup_nil
    · rw [hchildren]
      exact fun _ ht => by cases ht
  | leave => exact h.close
  | abandon => exact ⟨h.chart, fun s hs => h.opened s (List.mem_of_mem_tail hs)⟩
  | style s =>
    have hc := h.chart
    exact h.onChart ⟨hc.nodes, hc.classes, hc.edges, hc.sound, hc.subgraphs⟩ (List.Subset.refl _)
  | assign ids className line =>
    obtain ⟨hc, hkeys⟩ := assign h.chart ids className line
    exact h.onChart hc hkeys
  | fault e | recovered e => exact h.onChart (h.chart.report e) (List.Subset.refl _)

/-- Integrity is kept by every run of sound events. -/
theorem applyAll (h : d.Integrity) {events : List Event} (he : ∀ e ∈ events, e.Sound) :
    (d.applyAll events).Integrity := by
  induction events generalizing d with
  | nil => exact h
  | cons e events ih =>
    rw [List.forall_mem_cons] at he
    exact ih (h.apply he.1) he.2

end Integrity
end Draft
end Flowchart
end Mermaid
