import Mathlib.Logic.Function.Basic
import Mermaid.Proofs.Diagram.Integrity
import Mermaid.Proofs.Flowchart.Preorder

/-! The groups of the nodes in the graph of a flowchart. The subgraphs put their members into their
groups one after the other, and the last one to do so counts; what is no node stops them. -/
namespace Mermaid

/-- What is no node and comes before all else of that kind: by the order of the subgraphs, and in one
of them by the order of its members. -/
def FirstUnknown (nodes : List String) (order : List Subgraph) (id : String) : Prop :=
  ∃ before s behind front back, order = before ++ s :: behind ∧ s.members = front ++ id :: back ∧
    id ∉ nodes ∧ (∀ t ∈ before, t.members ⊆ nodes) ∧ front ⊆ nodes

/-- The last subgraph that lists a node. -/
def LastLister (order : List Subgraph) (id : String) (s : Subgraph) : Prop :=
  ∃ before behind, order = before ++ s :: behind ∧ id ∈ s.members ∧ ∀ t ∈ behind, id ∉ t.members

theorem LastLister.behind {before behind : List Subgraph} {id : String} {s t : Subgraph}
    (h : LastLister behind id t) : LastLister (before ++ s :: behind) id t := by
  obtain ⟨front, back, rfl, hid, hback⟩ := h
  exact ⟨before ++ s :: front, back, by simp, hid, hback⟩

theorem find?_unknown_eq_none {nodes members : List String} :
    members.find? (· ∉ nodes) = none ↔ members ⊆ nodes := by
  simp [List.find?_eq_none, List.subset_def]

theorem find?_unknown_eq_some {nodes : List String} {order : List Subgraph} {id : String} :
    (order.flatMap (·.members)).find? (· ∉ nodes) = some id ↔ FirstUnknown nodes order id := by
  rw [List.find?_flatMap, List.findSome?_eq_some_iff]
  simp only [List.find?_eq_some_iff_append, find?_unknown_eq_none]
  constructor
  · rintro ⟨before, s, behind, horder, ⟨hid, front, back, hmembers, hfront⟩, hbefore⟩
    exact ⟨before, s, behind, front, back, horder, hmembers, by simpa using hid, hbefore,
      fun other hother => by simpa using hfront other hother⟩
  · rintro ⟨before, s, behind, front, back, horder, hmembers, hid, hbefore, hfront⟩
    exact ⟨before, s, behind, horder, ⟨by simpa using hid, front, back, hmembers,
      fun other hother => by simpa using hfront hother⟩, hbefore⟩

theorem find?_lister_eq_some {order : List Subgraph} {id : String} {s : Subgraph} :
    order.reverse.find? (id ∈ ·.members) = some s ↔ LastLister order id s := by
  rw [List.find?_eq_some_iff_append]
  constructor
  · rintro ⟨hid, behind, before, horder, hbehind⟩
    refine ⟨before.reverse, behind.reverse, ?_, by simpa using hid, fun t ht => ?_⟩
    · rw [← List.reverse_reverse order, horder]
      simp
    · simpa using hbehind t (List.mem_reverse.mp ht)
  · rintro ⟨before, behind, rfl, hid, hbehind⟩
    refine ⟨by simpa using hid, behind.reverse, before.reverse, by simp, fun t ht => ?_⟩
    simpa using hbehind t (List.mem_reverse.mp ht)

/-- Where a node is listed at all, some subgraph is the last one to list it. -/
theorem exists_lastLister {order : List Subgraph} {id : String} {s : Subgraph} (hs : s ∈ order)
    (hid : id ∈ s.members) : ∃ t, LastLister order id t := by
  have hfound : (order.reverse.find? (id ∈ ·.members)).isSome :=
    List.find?_isSome.mpr ⟨s, List.mem_reverse.mpr hs, by simpa using hid⟩
  obtain ⟨t, ht⟩ := Option.isSome_iff_exists.mp hfound
  exact ⟨t, find?_lister_eq_some.mp ht⟩

/-- A node is put into a group, whichever one it has been in. -/
def regroup (nodes : List String) (group : String) (groups : String → Option String) (id : String) :
    Except Unresolved (String → Option String) :=
  if id ∈ nodes then .ok (Function.update groups id (some group)) else .error ⟨id⟩

/-- The groups of the nodes after the subgraphs, one after the other, have taken in their members. -/
def regroupAll (nodes : List String) (groups : String → Option String) :
    List Subgraph → Except Unresolved (String → Option String)
  | [] => .ok groups
  | s :: more => do regroupAll nodes (← s.members.foldlM (regroup nodes s.id) groups) more

theorem foldlM_regroup (nodes members : List String) (group : String) (groups : String → Option String) :
    members.foldlM (regroup nodes group) groups = match members.find? (· ∉ nodes) with
      | some id => .error ⟨id⟩
      | none => .ok fun id => if id ∈ members then some group else groups id := by
  induction members generalizing groups with
  | nil => simp [pure, Except.pure]
  | cons member members ih =>
    rw [List.foldlM_cons, regroup, List.find?_cons]
    by_cases hmember : member ∈ nodes
    · have hgroup (id : String) : (if id ∈ members then some group else
          Function.update groups member (some group) id) =
          if id ∈ member :: members then some group else groups id := by
        by_cases hid : id = member <;> simp [hid]
      simp only [hmember, if_true, bind, Except.bind, ih, hgroup, not_true_eq_false, decide_false]
    · simp [hmember, bind, Except.bind]

/-- The subgraphs fail at the first member that is no node, and else the last one to list a node is
the group of the node. -/
theorem regroupAll_eq (nodes : List String) (order : List Subgraph) (groups : String → Option String) :
    regroupAll nodes groups order = match (order.flatMap (·.members)).find? (· ∉ nodes) with
      | some id => .error ⟨id⟩
      | none => .ok fun id => ((order.reverse.find? (id ∈ ·.members)).map (·.id)).or (groups id) := by
  induction order generalizing groups with
  | nil => rfl
  | cons s order ih =>
    rw [regroupAll, foldlM_regroup, List.flatMap_cons, List.find?_append]
    cases hmembers : s.members.find? (· ∉ nodes) with
    | some id => rfl
    | none =>
      simp only [bind, Except.bind, ih, Option.none_or]
      cases (order.flatMap (·.members)).find? (· ∉ nodes) with
      | some id => rfl
      | none =>
        refine congrArg Except.ok (funext fun id => ?_)
        rw [List.reverse_cons, List.find?_append]
        cases order.reverse.find? (id ∈ ·.members) with
        | some t => rfl
        | none =>
          by_cases hid : id ∈ s.members <;> simp [hid]

namespace DiagramGraph
variable {c : Flowchart} {g : DiagramGraph}

theorem allSubgraphs_eq (c : Flowchart) : c.allSubgraphs = Subgraph.preorderAll c.subgraphs :=
  Subgraph.unfold_eq_preorderAll _

theorem group?_eq (h : ofFlowchart c = .ok g) (id : String) : g.group? id =
    ((Subgraph.preorderAll c.subgraphs).reverse.find? (id ∈ ·.members)).map (·.id) := by
  rw [group?, groups_ofFlowchart h, allSubgraphs_eq, ← List.map_reverse, List.find?_map, Option.map_map]
  simp only [Function.comp_def, List.contains_eq_mem]

theorem ofFlowchart_eq_error {id : String} : ofFlowchart c = .error ⟨id⟩ ↔
    FirstUnknown (c.nodes.values.map Node.id) (Subgraph.preorderAll c.subgraphs) id := by
  rw [← find?_unknown_eq_some, ← allSubgraphs_eq, ofFlowchart]
  simp only [List.flatMap_map]
  cases (c.allSubgraphs.flatMap (·.members)).find? (· ∉ c.nodes.values.map Node.id) with
  | some other => simp
  | none => simp

/-- Where the graph is found, the subgraphs list nodes and nothing else. -/
theorem unknown_eq_none (h : ofFlowchart c = .ok g) :
    ((Subgraph.preorderAll c.subgraphs).flatMap (·.members)).find?
      (· ∉ c.nodes.values.map Node.id) = none := by
  rw [Option.eq_none_iff_forall_ne_some]
  intro id hid
  rw [ofFlowchart_eq_error.mpr (find?_unknown_eq_some.mp hid)] at h
  cases h

theorem exists_error_iff : (∃ e, ofFlowchart c = .error e) ↔
    ∃ s ∈ Subgraph.preorderAll c.subgraphs, ∃ id ∈ s.members, id ∉ c.nodes.values.map Node.id := by
  constructor
  · rintro ⟨⟨id⟩, he⟩
    obtain ⟨before, s, behind, front, back, horder, hmembers, hid, -, -⟩ := ofFlowchart_eq_error.mp he
    exact ⟨s, by simp [horder], id, by simp [hmembers], hid⟩
  · rintro ⟨s, hs, id, hid, hunknown⟩
    cases hg : ofFlowchart c with
    | error e => exact ⟨e, rfl⟩
    | ok g =>
      have hknown := find?_unknown_eq_none.mp (unknown_eq_none hg)
      exact absurd (hknown (List.mem_flatMap.mpr ⟨s, hs, hid⟩)) hunknown

/-- The walk through the subgraphs fails where the graph is not found, at the same name, and ends with
the groups of the graph. -/
theorem group?_ofFlowchart (c : Flowchart) : (ofFlowchart c).map group? =
    regroupAll (c.nodes.values.map Node.id) (fun _ => none) (Subgraph.preorderAll c.subgraphs) := by
  rw [regroupAll_eq]
  cases hg : ofFlowchart c with
  | error e => rw [find?_unknown_eq_some.mpr (ofFlowchart_eq_error.mp hg)]; rfl
  | ok g =>
    rw [unknown_eq_none hg]
    exact congrArg Except.ok (funext fun id => by rw [group?_eq hg, Option.or_none])

theorem group?_eq_some (h : ofFlowchart c = .ok g) {id name : String} : g.group? id = some name ↔
    ∃ s, LastLister (Subgraph.preorderAll c.subgraphs) id s ∧ s.id = name := by
  simp only [group?_eq h, Option.map_eq_some_iff, find?_lister_eq_some]

theorem group?_eq_none (h : ofFlowchart c = .ok g) {id : String} : g.group? id = none ↔
    ∀ s ∈ Subgraph.preorderAll c.subgraphs, id ∉ s.members := by
  simp [group?_eq h]

end DiagramGraph

/-- The graph of a flowchart is found unless a subgraph lists what is no node, and what is missing then
is the first such member. The groups are the subgraphs in their order, each one before those in it, and
the group of a node is the last one that lists it. So a node that something in a subgraph lists belongs
to what comes behind that subgraph: to something in it, or to a later one. -/
theorem groups_follow (c : Flowchart) :
    let nodes := c.nodes.values.map Node.id
    let order := Subgraph.preorderAll c.subgraphs
    (c.nodes.Keyed Node.id → nodes = c.nodes.keys) ∧
    (DiagramGraph.ofFlowchart c).map DiagramGraph.group? = regroupAll nodes (fun _ => none) order ∧
    ((∃ e, DiagramGraph.ofFlowchart c = .error e) ↔ ∃ s ∈ order, ∃ id ∈ s.members, id ∉ nodes) ∧
    (∀ id, DiagramGraph.ofFlowchart c = .error ⟨id⟩ ↔ FirstUnknown nodes order id) ∧
    ∀ g, DiagramGraph.ofFlowchart c = .ok g →
      g.groups = order.map (fun s => (s.id, s.members)) ∧
      (∀ id, (g.group? id = none ↔ ∀ s ∈ order, id ∉ s.members) ∧
        ∀ name, g.group? id = some name ↔ ∃ s, LastLister order id s ∧ s.id = name) ∧
      ∀ before s behind, order = before ++ s :: behind →
        ∃ later, behind = Subgraph.preorderAll s.children ++ later ∧
          ∀ t ∈ Subgraph.preorderAll s.children, ∀ id ∈ t.members,
            ∃ last, LastLister behind id last ∧ g.group? id = some last.id := by
  intro nodes order
  refine ⟨Registry.Keyed.map_values, DiagramGraph.group?_ofFlowchart c, DiagramGraph.exists_error_iff,
    fun id => DiagramGraph.ofFlowchart_eq_error, fun g hg => ⟨?_, fun id =>
      ⟨DiagramGraph.group?_eq_none hg, fun name => DiagramGraph.group?_eq_some hg⟩, ?_⟩⟩
  · rw [DiagramGraph.groups_ofFlowchart hg, DiagramGraph.allSubgraphs_eq]
  · intro before s behind horder
    obtain ⟨later, hbehind⟩ := Subgraph.preorderAll_behind horder
    refine ⟨later, hbehind, fun t ht id hid => ?_⟩
    obtain ⟨last, hlast⟩ := exists_lastLister (hbehind ▸ List.mem_append_left later ht) hid
    have hlisted : LastLister order id last := horder ▸ hlast.behind
    exact ⟨last, hlast, (DiagramGraph.group?_eq_some hg).mpr ⟨last, hlisted, rfl⟩⟩

/-- A node that is listed by a subgraph and by the one in it. -/
def sharedChart : Flowchart :=
  { Flowchart.empty.ensureNode "A" 1 with
    subgraphs := [{ id := "S", members := ["A"], children := [{ id := "T", members := ["A"] }] }] }

/-- The inner subgraph comes behind the outer one, and has the node. -/
theorem groups_follow_sharedChart :
    ∃ g, DiagramGraph.ofFlowchart sharedChart = .ok g ∧ g.groups = [("S", ["A"]), ("T", ["A"])] ∧
      g.group? "A" = some "T" := by
  obtain ⟨-, -, hfails, -, hfound⟩ := groups_follow sharedChart
  cases hg : DiagramGraph.ofFlowchart sharedChart with
  | error e => exact absurd (hfails.mp ⟨e, hg⟩) (by decide +kernel)
  | ok g =>
    obtain ⟨hgroups, hlisters, -⟩ := hfound g hg
    have hlast : LastLister (Subgraph.preorderAll sharedChart.subgraphs) "A"
        { id := "T", members := ["A"] } := ⟨[_], [], rfl, by decide, by simp⟩
    exact ⟨g, rfl, hgroups, ((hlisters "A").2 "T").mpr ⟨_, hlast, rfl⟩⟩

end Mermaid
