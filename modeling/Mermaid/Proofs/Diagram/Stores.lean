import Mermaid.ClassDiagram.Basic
import Mermaid.Proofs.Flowchart.Integrity
import Mermaid.Proofs.Flowchart.Sightings

/-! What diagrams hold that are built by hand. However nodes are mentioned, defined and linked, and in
whatever order, each id has its place from its first mention and its node from its last definition; and
so with the classes of class diagrams. -/
namespace Mermaid

namespace Registry
variable {α β : Type} {r : Registry β} {key : String} {Agrees : Sighting α → β → Prop}
  {sightings : List (Sighting α)}

theorem mem_entries_of_find? {b : β} (h : r.find? key = some b) : (key, b) ∈ r.entries := by
  obtain ⟨before, behind, hentries, -⟩ := List.lookup_eq_some_iff.mp h
  rw [hentries]
  exact List.mem_append_right _ List.mem_cons_self

theorem exists_find?_of_mem (h : key ∈ r.keys) : ∃ b, r.find? key = some b := by
  obtain ⟨entry, hentry, rfl⟩ := List.mem_map.mp h
  exact Option.isSome_iff_exists.mp
    (List.lookup_isSome_iff.mpr ⟨entry, hentry, beq_self_eq_true entry.1⟩)

theorem resolve_of_find? {b : β} (h : r.find? key = some b) : r.resolve key = .ok b := by
  rw [resolve, h]

/-- Where a sighting tells all of a value, what is found under a name is the value of the sighting that
tells of it. -/
theorem Follows.find?_eq (h : r.Follows Agrees sightings) {value : Sighting α → β}
    (hvalue : ∀ entry ∈ r.entries, ∀ x : Sighting α, x.name = entry.1 → Agrees x entry.2 →
      entry.2 = value x) (key : String) :
    r.find? key = (Sighting.telling? key sightings).map value := by
  cases hfound : r.find? key with
  | some b =>
    have hentry := mem_entries_of_find? hfound
    obtain ⟨x, htelling, hagrees⟩ := h.agrees _ hentry
    rw [htelling, Option.map_some]
    exact congrArg some (hvalue _ hentry x (Sighting.mem_of_telling? htelling).2 hagrees)
  | none =>
    cases htelling : Sighting.telling? key sightings with
    | none => rfl
    | some x =>
      have hkey := h.mem_keys.mpr ⟨x, Sighting.mem_of_telling? htelling⟩
      obtain ⟨b, hb⟩ := exists_find?_of_mem hkey
      rw [hfound] at hb
      cases hb

/-- What a call sights is registered. -/
theorem Follows.mem_keys_of_mem {γ : Type} {calls : List γ} {told : γ → List (Sighting α)}
    (h : r.Follows Agrees (calls.flatMap told)) {call : γ} (hcall : call ∈ calls) :
    ∀ x ∈ told call, x.name ∈ r.keys :=
  fun x hx => h.mem_keys.mpr ⟨x, List.mem_flatMap.mpr ⟨call, hcall, hx⟩, rfl⟩

end Registry

namespace Flowchart

/-- The node that a sighting tells of: as it is defined, or bare. -/
def nodeOf (x : Sighting (String × NodeShape)) : Node :=
  match x.said? with
  | some (text, shape) => { id := x.name, text, shape, line := x.line }
  | none => .bare x.name x.line

/-- What a chart can be built by. -/
inductive Call
  | mention (id : String) (line : Int)
  | define (id text : String) (shape : NodeShape) (line : Int)
  | link (edge : Edge)

namespace Call

/-- The sightings of a call. An edge sights its source and then its target, on no line. -/
def sightings : Call → List (Sighting (String × NodeShape))
  | mention id line => [⟨id, line, none⟩]
  | define id text shape line => [⟨id, line, some (text, shape)⟩]
  | link e => [⟨e.source, 0, none⟩, ⟨e.target, 0, none⟩]

def edge? : Call → Option Edge
  | link e => some e
  | _ => none

end Call

def call (c : Flowchart) : Call → Flowchart
  | .mention id line => c.ensureNode id line
  | .define id text shape line => c.defineNode id text shape line
  | .link e => c.addEdge e

/-- What a chart holds that was built by calls. -/
structure Holds (c : Flowchart) (calls : List Call) : Prop where
  ids : c.nodes.keys = ((calls.flatMap Call.sightings).map (·.name)).eraseDups
  node : ∀ id, c.findNode? id = (Sighting.telling? id (calls.flatMap Call.sightings)).map nodeOf
  edges : c.edges = calls.filterMap Call.edge?
  ends : ∀ e ∈ c.edges, ∃ source target, c.endpoints e = .ok (source, target) ∧
    c.findNode? e.source = some source ∧ c.findNode? e.target = some target
  others : { c with nodes := .empty, edges := [] } = empty

section call
variable {c : Flowchart} {seen : List (Sighting (String × NodeShape))}

theorem follows_call (h : c.nodes.Follows AsSighted seen) (x : Call) :
    (c.call x).nodes.Follows AsSighted (seen ++ x.sightings) := by
  cases x with
  | mention id line => exact h.ensure (x := ⟨id, line, none⟩) rfl ⟨rfl, rfl⟩
  | define id text shape line =>
    dsimp only [call, defineNode]
    exact h.define (x := ⟨id, line, some (text, shape)⟩) rfl fun _ => ⟨rfl, rfl⟩
  | link e =>
    have hsource : (c.ensureNode e.source 0).nodes.Follows AsSighted (seen ++ [⟨e.source, 0, none⟩]) :=
      h.ensure (x := ⟨e.source, 0, none⟩) rfl ⟨rfl, rfl⟩
    have htarget : (c.addEdge e).nodes.Follows AsSighted
        (seen ++ [⟨e.source, 0, none⟩] ++ [⟨e.target, 0, none⟩]) :=
      hsource.ensure (x := ⟨e.target, 0, none⟩) rfl ⟨rfl, rfl⟩
    rwa [List.append_assoc] at htarget

theorem keyed_call (h : c.nodes.Keyed Node.id) (x : Call) : (c.call x).nodes.Keyed Node.id := by
  cases x with
  | mention id line => exact h.ensure rfl
  | define id text shape line =>
    dsimp only [call, defineNode]
    exact .update (h.ensure rfl) fun _ => rfl
  | link e =>
    dsimp only [call, addEdge, ensureNode]
    exact .ensure (h.ensure rfl) rfl

/-- No call gives a node a style class. -/
theorem unstyled_call (h : c.nodes.All (·.classes = [])) (x : Call) :
    (c.call x).nodes.All (·.classes = []) := by
  cases x with
  | mention id line => exact h.ensure rfl
  | define id text shape line =>
    dsimp only [call, defineNode]
    exact .update (h.ensure rfl) fun _ hn => hn
  | link e =>
    dsimp only [call, addEdge, ensureNode]
    exact .ensure (h.ensure rfl) rfl

theorem edges_call (c : Flowchart) (x : Call) : (c.call x).edges = c.edges ++ x.edge?.toList := by
  cases x with
  | mention | define => exact (List.append_nil _).symm
  | link e => rfl

theorem others_call (c : Flowchart) (x : Call) : { c.call x with nodes := .empty, edges := [] } =
    ({ c with nodes := .empty, edges := [] } : Flowchart) := by
  cases x <;> rfl

end call

variable {c : Flowchart} {calls : List Call}

/-- What every call keeps. -/
structure Kept (c : Flowchart) (calls : List Call) : Prop where
  follows : c.nodes.Follows AsSighted (calls.flatMap Call.sightings)
  keyed : c.nodes.Keyed Node.id
  unstyled : c.nodes.All (·.classes = [])
  edges : c.edges = calls.filterMap Call.edge?
  others : { c with nodes := .empty, edges := [] } = empty

theorem Kept.call (h : c.Kept calls) (x : Call) : (c.call x).Kept (calls ++ [x]) where
  follows := by
    rw [List.flatMap_append, List.flatMap_singleton]
    exact follows_call h.follows x
  keyed := keyed_call h.keyed x
  unstyled := unstyled_call h.unstyled x
  edges := by
    rw [edges_call, List.filterMap_append, h.edges]
    cases x <;> rfl
  others := (others_call c x).trans h.others

theorem kept_calls (calls : List Call) : (calls.foldl call empty).Kept calls := by
  induction calls using List.reverseRecOn with
  | nil => exact ⟨.empty, .empty, .empty, rfl, rfl⟩
  | append_singleton calls x ih =>
    rw [List.foldl_append]
    exact ih.call x

/-- A node with an id, a text, a shape and a line, and no style classes, is told of by its sighting. -/
theorem AsSighted.eq_nodeOf {x : Sighting (String × NodeShape)} {n : Node} (h : AsSighted x n)
    (hid : n.id = x.name) (hclasses : n.classes = []) : n = nodeOf x := by
  obtain ⟨id, text, shape, line, classes⟩ := n
  obtain ⟨name, seen, said⟩ := x
  obtain ⟨rfl, hsaid⟩ := h
  obtain rfl : id = name := hid
  obtain rfl : classes = [] := hclasses
  cases said with
  | none =>
    obtain ⟨rfl, rfl⟩ : text = id ∧ shape = .rectangle := Prod.mk.inj hsaid
    rfl
  | some said =>
    obtain rfl : (text, shape) = said := hsaid
    rfl

/-- The ends of an edge that was added have been sighted. -/
theorem Kept.ends (h : c.Kept calls) {e : Edge} (he : e ∈ c.edges) :
    e.source ∈ c.nodes.keys ∧ e.target ∈ c.nodes.keys := by
  rw [h.edges] at he
  obtain ⟨x, hx, hedge⟩ := List.mem_filterMap.mp he
  have hseen := h.follows.mem_keys_of_mem hx
  cases x with
  | mention | define => cases hedge
  | link e' =>
    obtain rfl := Option.some.inj hedge
    exact ⟨hseen _ List.mem_cons_self, hseen _ (List.mem_cons_of_mem _ List.mem_cons_self)⟩

theorem holds_calls (calls : List Call) : (calls.foldl call empty).Holds calls := by
  have h := kept_calls calls
  refine ⟨h.follows.keys, ?_, h.edges, fun e he => ?_, h.others⟩
  · refine h.follows.find?_eq fun entry hentry x hname hagrees => hagrees.eq_nodeOf ?_ ?_
    · rw [← h.keyed.named entry hentry, hname]
    · exact h.unstyled _ (List.mem_map_of_mem hentry)
  · obtain ⟨hsource, htarget⟩ := h.ends he
    obtain ⟨source, hsource⟩ := Registry.exists_find?_of_mem hsource
    obtain ⟨target, htarget⟩ := Registry.exists_find?_of_mem htarget
    refine ⟨source, target, ?_, hsource, htarget⟩
    rw [endpoints, Registry.resolve_of_find? hsource, Registry.resolve_of_find? htarget]
    rfl

end Flowchart

namespace ClassDiagram

/-- What a class diagram can be built by. -/
inductive Call
  | mention (name : String) (line : Int)
  | relate (relation : Relation)

namespace Call

/-- The sightings of a call. A relation sights its source and then its target, on no line. -/
def sightings : Call → List (Sighting Unit)
  | mention name line => [⟨name, line, none⟩]
  | relate r => [⟨r.source, 0, none⟩, ⟨r.target, 0, none⟩]

def relation? : Call → Option Relation
  | relate r => some r
  | _ => none

end Call

def call (d : ClassDiagram) : Call → ClassDiagram
  | .mention name line => d.ensureClass name line
  | .relate r => d.addRelation r

/-- What a class diagram holds that was built by calls. -/
structure Holds (d : ClassDiagram) (calls : List Call) : Prop where
  names : d.classes.keys = ((calls.flatMap Call.sightings).map (·.name)).eraseDups
  classifier : ∀ name, d.findClass? name =
    ((calls.flatMap Call.sightings).find? (·.name = name)).map fun x => { name := x.name, line := x.line }
  relations : d.relations = calls.filterMap Call.relation?
  ends : ∀ r ∈ d.relations, ∃ source target, d.endpoints r = .ok (source, target) ∧
    d.findClass? r.source = some source ∧ d.findClass? r.target = some target
  others : { d with classes := .empty, relations := [] } = empty

/-- The class is as its sighting says, and has no members. -/
def AsNamed (x : Sighting Unit) (c : Classifier) : Prop := c = { name := x.name, line := x.line }

/-- What every call keeps. -/
structure Kept (d : ClassDiagram) (calls : List Call) : Prop where
  follows : d.classes.Follows AsNamed (calls.flatMap Call.sightings)
  relations : d.relations = calls.filterMap Call.relation?
  others : { d with classes := .empty, relations := [] } = empty

variable {d : ClassDiagram} {calls : List Call}

theorem follows_call {seen : List (Sighting Unit)} (h : d.classes.Follows AsNamed seen) (x : Call) :
    (d.call x).classes.Follows AsNamed (seen ++ x.sightings) := by
  cases x with
  | mention name line => exact h.ensure (x := ⟨name, line, none⟩) rfl rfl
  | relate r =>
    have hsource := h.ensure (x := ⟨r.source, 0, none⟩) rfl rfl
    have htarget := hsource.ensure (x := ⟨r.target, 0, none⟩) rfl rfl
    rwa [List.append_assoc] at htarget

theorem Kept.call (h : d.Kept calls) (x : Call) : (d.call x).Kept (calls ++ [x]) where
  follows := by
    rw [List.flatMap_append, List.flatMap_singleton]
    exact follows_call h.follows x
  relations := by
    rw [List.filterMap_append, ← h.relations]
    cases x with
    | mention => exact (List.append_nil _).symm
    | relate => rfl
  others := by
    rw [← h.others]
    cases x <;> rfl

theorem kept_calls (calls : List Call) : (calls.foldl call empty).Kept calls := by
  induction calls using List.reverseRecOn with
  | nil => exact ⟨.empty, rfl, rfl⟩
  | append_singleton calls x ih =>
    rw [List.foldl_append]
    exact ih.call x

/-- No call says more of a class than its name, so the first one tells of it. -/
theorem telling?_sightings (name : String) (calls : List Call) :
    Sighting.telling? name (calls.flatMap Call.sightings) =
      (calls.flatMap Call.sightings).find? (·.name = name) := by
  refine Sighting.telling?_of_silent fun y hy => ?_
  obtain ⟨x, -, hy⟩ := List.mem_flatMap.mp hy
  cases x with
  | mention name line => exact List.mem_singleton.mp hy ▸ rfl
  | relate r => rcases List.mem_pair.mp hy with rfl | rfl <;> rfl

/-- The ends of a relation that was added have been sighted. -/
theorem Kept.ends (h : d.Kept calls) {r : Relation} (hr : r ∈ d.relations) :
    r.source ∈ d.classes.keys ∧ r.target ∈ d.classes.keys := by
  rw [h.relations] at hr
  obtain ⟨x, hx, hrelation⟩ := List.mem_filterMap.mp hr
  have hseen := h.follows.mem_keys_of_mem hx
  cases x with
  | mention => cases hrelation
  | relate r' =>
    obtain rfl := Option.some.inj hrelation
    exact ⟨hseen _ List.mem_cons_self, hseen _ (List.mem_cons_of_mem _ List.mem_cons_self)⟩

theorem holds_calls (calls : List Call) : (calls.foldl call empty).Holds calls := by
  have h := kept_calls calls
  refine ⟨h.follows.keys, fun name => ?_, h.relations, fun r hr => ?_, h.others⟩
  · rw [← telling?_sightings]
    exact h.follows.find?_eq (fun _ _ _ _ hagrees => hagrees) name
  · obtain ⟨hsource, htarget⟩ := h.ends hr
    obtain ⟨source, hsource⟩ := Registry.exists_find?_of_mem hsource
    obtain ⟨target, htarget⟩ := Registry.exists_find?_of_mem htarget
    refine ⟨source, target, ?_, hsource, htarget⟩
    rw [endpoints, Registry.resolve_of_find? hsource, Registry.resolve_of_find? htarget]
    rfl

end ClassDiagram

/-- Whatever calls build a flowchart or a class diagram, it holds what they say. -/
theorem stores_hold :
    (∀ calls : List Flowchart.Call, (calls.foldl Flowchart.call .empty).Holds calls) ∧
      ∀ calls : List ClassDiagram.Call, (calls.foldl ClassDiagram.call .empty).Holds calls :=
  ⟨Flowchart.holds_calls, ClassDiagram.holds_calls⟩

end Mermaid
