import Mathlib.Data.Fintype.EquivFin
import Mathlib.Data.Fintype.Sets
import Mathlib.Data.List.Nodup
import Mathlib.Logic.Relation
import Mermaid.Graph.Topological

/-! A vertex is put in line when all its predecessors are placed. So all vertices get a place just
where no way along the arcs comes back to its start, and then each arc leads onward in the order. -/
namespace Mermaid.Multigraph

variable {g : Multigraph} {placed line : List String}

/-- Some arc leads from `u` to `v`. -/
def Adj (g : Multigraph) (u v : String) : Prop := (u, v) ∈ g.arcs

/-- No way along the arcs comes back to its start, be it by a single arc. -/
def Acyclic (g : Multigraph) : Prop := ∀ v, ¬ Relation.TransGen g.Adj v v

/-- Each vertex counts once, and arcs lead from vertices to vertices. -/
structure Closed (g : Multigraph) : Prop where
  distinct : g.vertices.Nodup
  ends : ∀ u v, g.Adj u v → u ∈ g.vertices ∧ v ∈ g.vertices

/-- All vertices, each one once, and each arc from an earlier to a later one. -/
structure Sorts (order : List String) (g : Multigraph) : Prop where
  perm : order.Perm g.vertices
  onward : ∀ u v, g.Adj u v → order.idxOf u < order.idxOf v

theorem nodup_eraseDups (names : List String) : names.eraseDups.Nodup := by
  induction hn : names.length using Nat.strongRecOn generalizing names with
  | ind n ih =>
    cases names with
    | nil => simp
    | cons name names =>
      have hshorter : (names.filter fun other => !other == name).length < n := by
        have := List.length_filter_le (fun other => !other == name) names
        rw [List.length_cons] at hn
        omega
      rw [List.eraseDups_cons, List.nodup_cons, List.mem_eraseDups]
      exact ⟨by simp, ih _ hshorter _ rfl⟩

theorem mem_vertices_ofLists {vertices : List String} {arcs : List (String × String)} {v : String} :
    v ∈ (ofLists vertices arcs).vertices ↔ v ∈ vertices ∨ ∃ arc ∈ arcs, v = arc.1 ∨ v = arc.2 := by
  rw [ofLists, List.mem_eraseDups, List.mem_append, List.mem_flatMap]
  simp only [List.mem_pair]

theorem closed_ofLists (vertices : List String) (arcs : List (String × String)) :
    (ofLists vertices arcs).Closed where
  distinct := nodup_eraseDups _
  ends u v h := by
    rw [mem_vertices_ofLists, mem_vertices_ofLists]
    exact ⟨.inr ⟨(u, v), h, .inl rfl⟩, .inr ⟨(u, v), h, .inr rfl⟩⟩

theorem mem_predecessors {u v : String} : u ∈ g.predecessors v ↔ g.Adj u v := by
  simp [predecessors, Adj]

theorem mem_successors {u v : String} : v ∈ g.successors u ↔ g.Adj u v := by
  simp [successors, Adj]

theorem mem_freed {u v : String} :
    v ∈ g.freed placed u ↔ g.Adj u v ∧ g.predecessors v ⊆ u :: placed := by
  rw [freed, List.mem_filter, mem_successors, List.all_eq_true]
  simp [List.subset_def]

theorem nodup_successors (u : String) : (g.successors u).Nodup := nodup_eraseDups _

theorem nodup_freed (u : String) : (g.freed placed u).Nodup := (nodup_successors u).filter _

theorem inDegree_eq_zero {v : String} : g.inDegree v = 0 ↔ g.predecessors v ⊆ [] := by
  rw [inDegree, List.countP_eq_zero, List.subset_nil, predecessors, List.map_eq_nil_iff,
    List.filter_eq_nil_iff]

/-- How far the placing of the vertices has come. -/
structure Placing (g : Multigraph) (placed line : List String) : Prop where
  distinct : (placed ++ line).Nodup
  vertices : placed ++ line ⊆ g.vertices
  ready : ∀ v ∈ g.vertices, v ∈ placed ++ line ↔ g.predecessors v ⊆ placed
  onward : ∀ later v earlier, placed = later ++ v :: earlier → g.predecessors v ⊆ earlier

namespace Placing

theorem start (h : g.vertices.Nodup) : g.Placing [] (g.vertices.filter (g.inDegree · == 0)) where
  distinct := h.filter _
  vertices := List.filter_subset_self _
  ready v hv := by
    rw [List.nil_append, List.mem_filter, beq_iff_eq, inDegree_eq_zero]
    exact and_iff_right hv
  onward later v earlier h := by simp at h

theorem freed_new {u v : String} (h : g.Placing placed (u :: line)) (hv : v ∈ g.freed placed u)
    (hvertex : v ∈ g.vertices) : v ∉ placed ++ u :: line := by
  -- An arc leads to `v` from `u`, which is not placed so far.
  intro hmem
  have hplaced : u ∈ placed := (h.ready v hvertex).mp hmem (mem_predecessors.mpr (mem_freed.mp hv).1)
  exact List.disjoint_of_nodup_append h.distinct hplaced List.mem_cons_self

theorem step {u : String} (hg : g.Closed) (h : g.Placing placed (u :: line)) :
    g.Placing (u :: placed) (line ++ g.freed placed u) := by
  have hvertex : ∀ v ∈ g.freed placed u, v ∈ g.vertices := fun v hv =>
    (hg.ends u v (mem_freed.mp hv).1).2
  have hperm : (placed ++ u :: line ++ g.freed placed u).Perm
      (u :: placed ++ (line ++ g.freed placed u)) := by
    rw [← List.append_assoc]
    exact List.perm_middle.append_right _
  have hpredecessors : g.predecessors u ⊆ placed :=
    (h.ready u (h.vertices (by simp))).mp (by simp)
  refine ⟨?_, ?_, ?_, ?_⟩
  · refine hperm.nodup_iff.mp (h.distinct.append (nodup_freed u) ?_)
    exact fun v hmem hv => h.freed_new hv (hvertex v hv) hmem
  · exact List.Subset.trans hperm.symm.subset (List.append_subset.mpr ⟨h.vertices, hvertex⟩)
  · intro v hv
    rw [← hperm.mem_iff, List.mem_append, h.ready v hv, mem_freed]
    constructor
    · rintro (hplaced | ⟨-, hfreed⟩)
      · exact List.Subset.trans hplaced (List.subset_cons_self u placed)
      · exact hfreed
    · intro hsubset
      by_cases hu : g.Adj u v
      · exact .inr ⟨hu, hsubset⟩
      · refine .inl fun w hw => (List.mem_cons.mp (hsubset hw)).resolve_left ?_
        rintro rfl
        exact hu (mem_predecessors.mp hw)
  · rintro (_ | ⟨_, later⟩) v earlier heq
    · obtain ⟨rfl, rfl⟩ := List.cons.inj heq
      exact hpredecessors
    · exact h.onward later v earlier (List.cons.inj heq).2

/-- As many steps as there are vertices left bring the line to its end. -/
theorem drain (hg : g.Closed) {bound : Nat} (h : g.Placing placed line)
    (hbound : placed.length + bound = g.vertices.length) :
    g.Placing (g.drain bound placed line) [] := by
  induction bound generalizing placed line with
  | zero =>
    have hlength := (h.distinct.subperm h.vertices).length_le
    rw [List.length_append] at hlength
    obtain rfl : line = [] := List.eq_nil_of_length_eq_zero (by omega)
    exact h
  | succ bound ih =>
    cases line with
    | nil => exact h
    | cons u line => exact ih (h.step hg) (by rw [List.length_cons]; omega)

/-- Where all vertices are placed, they stand in order. -/
theorem sorts (hg : g.Closed) (h : g.Placing placed [])
    (hall : placed.length = g.vertices.length) : Sorts placed.reverse g := by
  have hdistinct : placed.Nodup := by simpa using h.distinct
  have hvertices : placed ⊆ g.vertices := by simpa using h.vertices
  have hperm : placed.Perm g.vertices :=
    (hdistinct.subperm hvertices).perm_of_length_le hall.ge
  refine ⟨(List.reverse_perm placed).trans hperm, fun u v hadj => ?_⟩
  obtain ⟨later, earlier, rfl⟩ := List.append_of_mem (hperm.mem_iff.mpr (hg.ends u v hadj).2)
  have hu : u ∈ earlier := h.onward later v earlier rfl (mem_predecessors.mpr hadj)
  have hv : v ∉ earlier := (List.nodup_cons.mp hdistinct.of_append_right).1
  rw [List.reverse_append, List.reverse_cons, List.append_assoc,
    List.idxOf_append_of_mem (List.mem_reverse.mpr hu),
    List.idxOf_append_of_notMem (by simpa using hv)]
  have := List.idxOf_lt_length_of_mem (List.mem_reverse.mpr hu)
  omega

/-- What is not placed has a predecessor that is not placed either, so some of it lies on a
cycle. -/
theorem length_eq (hg : g.Closed) (h : g.Placing placed []) (hacyclic : g.Acyclic) :
    placed.length = g.vertices.length := by
  have hdistinct : placed.Nodup := by simpa using h.distinct
  have hvertices : placed ⊆ g.vertices := by simpa using h.vertices
  have hall : ∀ v : { v // v ∈ g.vertices }, v.1 ∈ placed := by
    have hwf : WellFounded fun u v : { v // v ∈ g.vertices } => Relation.TransGen g.Adj u v := by
      have : IsTrans { v // v ∈ g.vertices } fun u v => Relation.TransGen g.Adj u v :=
        ⟨fun _ _ _ => Relation.TransGen.trans⟩
      have : Std.Irrefl fun u v : { v // v ∈ g.vertices } => Relation.TransGen g.Adj u v :=
        ⟨fun v => hacyclic v⟩
      exact Finite.wellFounded_of_trans_of_irrefl _
    intro v
    induction v using hwf.induction with
    | _ v ih =>
      have hready := (h.ready v v.2).mpr fun u hu =>
        ih ⟨u, (hg.ends u v (mem_predecessors.mp hu)).1⟩ (.single (mem_predecessors.mp hu))
      simpa using hready
  refine le_antisymm (hdistinct.subperm hvertices).length_le ?_
  exact (hg.distinct.subperm fun v hv => hall ⟨v, hv⟩).length_le

end Placing

theorem Sorts.acyclic {order : List String} (h : Sorts order g) : g.Acyclic := by
  have hway : ∀ u v, Relation.TransGen g.Adj u v → order.idxOf u < order.idxOf v := by
    intro u v huv
    induction huv with
    | single hadj => exact h.onward _ _ hadj
    | tail _ hadj ih => exact ih.trans (h.onward _ _ hadj)
  exact fun v hv => lt_irrefl _ (hway v v hv)

theorem placing_placeable (hg : g.Closed) : g.Placing g.placeable.reverse [] := by
  rw [placeable, List.reverse_reverse]
  exact (Placing.start hg.distinct).drain hg (Nat.zero_add _)

/-- An order is found for the graphs without a cycle and for no others, and it sorts the graph. -/
theorem topologicalOrder?_spec (hg : g.Closed) :
    (g.topologicalOrder?.isSome ↔ g.Acyclic) ∧ ∀ order ∈ g.topologicalOrder?, Sorts order g := by
  have hplacing := placing_placeable hg
  have hsorts : g.placeable.length = g.vertices.length → Sorts g.placeable g := fun hall => by
    simpa using hplacing.sorts hg (by simpa using hall)
  rw [topologicalOrder?]
  split
  · rename_i hall
    refine ⟨iff_of_true rfl (hsorts hall).acyclic, fun order horder => ?_⟩
    obtain rfl := Option.some.inj horder
    exact hsorts hall
  · rename_i hsome
    refine ⟨iff_of_false Bool.false_ne_true fun hacyclic => hsome ?_, fun _ h => by cases h⟩
    simpa using hplacing.length_eq hg hacyclic

end Mermaid.Multigraph
