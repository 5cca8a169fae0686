import Mathlib.Data.List.Nodup
import Mermaid.Diagram.Record
import Mermaid.Proofs.Json.RoundTrip

/-!
Diagrams made of records. A record has one form, down to the order of its members, and every diagram
is what is made of its record. No name comes up twice in the record of a diagram whose registry has
every name once.
-/
namespace Mermaid

/-- Reading gives back every value that was written. -/
def Undoes {α β : Type} (read : β → Option α) (write : α → β) : Prop := ∀ a, read (write a) = some a

theorem Undoes.mapM {α β : Type} {read : β → Option α} {write : α → β} (h : Undoes read write)
    (as : List α) : (as.map write).mapM read = some as := by
  induction as with
  | nil => rfl
  | cons a as ih => rw [List.map_cons, List.mapM_cons, h a, ih]; rfl

namespace Json
variable {α : Type} {read : Json → Option α} {write : α → Json}

def str? : Json → Option String
  | str s => some s
  | _ => none

/-- What `read` makes of a value, and nothing of `null`. -/
def orNull? (read : Json → Option α) : Json → Option (Option α)
  | null => some none
  | v => (read v).map some

def list? (read : Json → Option α) : Json → Option (List α)
  | arr items => items.mapM read
  | _ => none

def field? (read : Json → Option α) (field : String × Json) : Option (String × α) :=
  (read field.2).map (field.1, ·)

def registry? (read : Json → Option α) : Json → Option (Registry α)
  | obj fields => (fields.mapM (field? read)).map Registry.mk
  | _ => none

theorem orNull?_strOrNull {name : α → String} (h : Undoes read fun a => str (name a))
    (o : Option α) : orNull? read (strOrNull (o.map name)) = some o := by
  cases o with
  | none => rfl
  | some a => exact congrArg (Option.map some) (h a)

@[simp] theorem orNull?_text (o : Option String) : orNull? str? (strOrNull o) = some o := by
  cases o <;> rfl

theorem list?_map (h : Undoes read write) (as : List α) :
    list? read (arr (as.map write)) = some as := h.mapM as

@[simp] theorem list?_strs (ss : List String) : list? str? (strs ss) = some ss :=
  list?_map (show Undoes str? str from fun _ => rfl) ss

theorem registry?_map (h : Undoes read write) (r : Registry α) :
    registry? read (obj (r.entries.map fun (key, a) => (key, write a))) = some r := by
  have hfield : Undoes (field? read) fun entry : String × α => (entry.1, write entry.2) :=
    fun entry => congrArg (Option.map (entry.1, ·)) (h entry.2)
  exact congrArg (Option.map Registry.mk) (hfield.mapM r.entries)

end Json

/-- The values of a type, each with a name of its own. -/
structure Naming (α : Type) where
  name : α → String
  values : List α
  complete : ∀ a, a ∈ values
  distinct : (values.map name).Nodup

namespace Naming
variable {α : Type}

def read? (n : Naming α) : Json → Option α
  | .str s => n.values.find? (n.name · == s)
  | _ => none

theorem undoes (n : Naming α) : Undoes n.read? fun a => .str (n.name a) := by
  intro a
  have hfound : (n.values.find? (n.name · == n.name a)).isSome :=
    List.find?_isSome.mpr ⟨a, n.complete a, beq_self_eq_true _⟩
  obtain ⟨b, hb⟩ := Option.isSome_iff_exists.mp hfound
  have hname : n.name b = n.name a := by simpa using List.find?_some hb
  obtain rfl : b = a := List.inj_on_of_nodup_map n.distinct (List.mem_of_find?_eq_some hb)
    (n.complete a) hname
  exact hb

end Naming

def Direction.naming : Naming Direction where
  name := Direction.name
  values := [leftRight, rightLeft, topDown, bottomUp]
  complete d := by cases d <;> decide
  distinct := by decide

def NodeShape.naming : Naming NodeShape where
  name := NodeShape.name
  values := [rectangle, rounded, stadium, subroutine, cylinder, circle, doubleCircle, asymmetric,
    rhombus, hexagon, parallelogram, trapezoid]
  complete s := by cases s <;> decide
  distinct := by decide

def EdgeStyle.naming : Naming EdgeStyle where
  name := EdgeStyle.name
  values := [solid, dotted, thick, invisible]
  complete s := by cases s <;> decide
  distinct := by decide

def ArrowHead.naming : Naming ArrowHead where
  name := ArrowHead.name
  values := [normal, openHead, cross, circle, noHead]
  complete h := by cases h <;> decide
  distinct := by decide

def Visibility.naming : Naming Visibility where
  name := Visibility.name
  values := [publicly, privately, protectedly, packaged]
  complete v := by cases v <;> decide
  distinct := by decide

def RelationType.naming : Naming RelationType where
  name := RelationType.name
  values := [inheritance, composition, aggregation, realization, dependency, association]
  complete t := by cases t <;> decide
  distinct := by decide

/-! ### What is made of records -/

def Diagnostic.ofRecord? : Json → Option Diagnostic
  | .obj [("message", .str message), ("line", .int line), ("column", .int column)] =>
    some ⟨message, ⟨line, column⟩⟩
  | _ => none

def Node.ofRecord? : Json → Option Node
  | .obj [("id", .str id), ("text", .str text), ("shape", shape), ("source_line", .int line),
      ("classes", classes)] =>
    return ⟨id, text, ← NodeShape.naming.read? shape, line, ← classes.list? Json.str?⟩
  | _ => none

def Edge.ofRecord? : Json → Option Edge
  | .obj [("from_id", .str source), ("to_id", .str target), ("edge_style", style),
      ("arrowhead", head), ("label", label), ("min_length", .int minLength)] =>
    return ⟨source, target, ← EdgeStyle.naming.read? style, ← ArrowHead.naming.read? head,
      ← label.orNull? Json.str?, minLength⟩
  | _ => none

mutual
def Subgraph.ofRecord? : Json → Option Subgraph
  | .obj [("id", .str id), ("title", title), ("direction", direction),
      ("has_custom_direction", .bool hasCustomDirection), ("node_ids", members),
      ("subgraphs", .arr children)] =>
    return ⟨id, ← title.orNull? Json.str?, ← direction.orNull? Direction.naming.read?,
      hasCustomDirection, ← members.list? Json.str?, ← Subgraph.ofRecords? children⟩
  | _ => none

def Subgraph.ofRecords? : List Json → Option (List Subgraph)
  | [] => some []
  | v :: more => return (← Subgraph.ofRecord? v) :: (← Subgraph.ofRecords? more)
end

def StyleClass.ofRecord? : Json → Option StyleClass
  | .obj [("class_name", .str name), ("properties", .str properties)] => some ⟨name, properties⟩
  | _ => none

def Flowchart.ofRecord? : Json → Option Flowchart
  | .obj [("direction", direction), ("nodes", nodes), ("edges", edges),
      ("subgraphs", .arr subgraphs), ("styles", styles), ("errors", diagnostics)] =>
    return ⟨← Direction.naming.read? direction, ← nodes.registry? Node.ofRecord?,
      ← edges.list? Edge.ofRecord?, ← Subgraph.ofRecords? subgraphs,
      ← styles.list? StyleClass.ofRecord?, ← diagnostics.list? Diagnostic.ofRecord?⟩
  | _ => none

def Member.ofRecord? : Json → Option Member
  | .obj [("name", .str name), ("is_method", .bool isMethod), ("visibility", visibility),
      ("type_name", type)] =>
    return ⟨name, isMethod, ← Visibility.naming.read? visibility, ← type.orNull? Json.str?⟩
  | _ => none

def Classifier.ofRecord? : Json → Option Classifier
  | .obj [("name", .str name), ("members", members), ("source_line", .int line),
      ("annotation", stereotype)] =>
    return ⟨name, ← members.list? Member.ofRecord?, line, ← stereotype.orNull? Json.str?⟩
  | _ => none

def Relation.ofRecord? : Json → Option Relation
  | .obj [("from_name", .str source), ("to_name", .str target), ("relation_type", type),
      ("label", label), ("from_cardinality", sourceCardinality),
      ("to_cardinality", targetCardinality)] =>
    return ⟨source, target, ← RelationType.naming.read? type, ← label.orNull? Json.str?,
      ← sourceCardinality.orNull? Json.str?, ← targetCardinality.orNull? Json.str?⟩
  | _ => none

def ClassDiagram.ofRecord? : Json → Option ClassDiagram
  | .obj [("title", title), ("classes", classes), ("relations", relations),
      ("errors", diagnostics)] =>
    return ⟨← title.orNull? Json.str?, ← classes.registry? Classifier.ofRecord?,
      ← relations.list? Relation.ofRecord?, ← diagnostics.list? Diagnostic.ofRecord?⟩
  | _ => none

def Diagram.ofRecord? (v : Json) : Option Diagram :=
  (Flowchart.ofRecord? v).map .flowchart <|> (ClassDiagram.ofRecord? v).map .classDiagram

theorem Diagnostic.ofRecord?_record : Undoes ofRecord? record := fun _ => rfl

theorem Node.ofRecord?_record : Undoes ofRecord? record := by
  intro n
  have hshape : NodeShape.naming.read? (.str n.shape.name) = some n.shape :=
    NodeShape.naming.undoes n.shape
  simp [record, ofRecord?, hshape]

theorem Edge.ofRecord?_record : Undoes ofRecord? record := by
  intro e
  have hstyle : EdgeStyle.naming.read? (.str e.style.name) = some e.style :=
    EdgeStyle.naming.undoes e.style
  have hhead : ArrowHead.naming.read? (.str e.head.name) = some e.head :=
    ArrowHead.naming.undoes e.head
  simp [record, ofRecord?, hstyle, hhead]

mutual
theorem Subgraph.ofRecord?_record : Undoes ofRecord? record
  | ⟨id, title, direction, hasCustomDirection, members, children⟩ => by
    have hdirection : Json.orNull? Direction.naming.read? (Json.strOrNull (direction.map (·.name))) =
        some direction := Json.orNull?_strOrNull Direction.naming.undoes direction
    simp [record, ofRecord?, hdirection, ofRecords?_records children]

theorem Subgraph.ofRecords?_records : Undoes ofRecords? records
  | [] => rfl
  | s :: more => by simp [records, ofRecords?, ofRecord?_record s, ofRecords?_records more]
end

theorem StyleClass.ofRecord?_record : Undoes ofRecord? record := fun _ => rfl

theorem Flowchart.ofRecord?_record : Undoes ofRecord? record := by
  intro c
  have hdirection : Direction.naming.read? (.str c.direction.name) = some c.direction :=
    Direction.naming.undoes c.direction
  simp [record, ofRecord?, hdirection, Json.registry?_map Node.ofRecord?_record,
    Json.list?_map Edge.ofRecord?_record, Subgraph.ofRecords?_records c.subgraphs,
    Json.list?_map StyleClass.ofRecord?_record, Json.list?_map Diagnostic.ofRecord?_record]

theorem Member.ofRecord?_record : Undoes ofRecord? record := by
  intro m
  have hvisibility : Visibility.naming.read? (.str m.visibility.name) = some m.visibility :=
    Visibility.naming.undoes m.visibility
  simp [record, ofRecord?, hvisibility]

theorem Classifier.ofRecord?_record : Undoes ofRecord? record := by
  intro c
  simp [record, ofRecord?, Json.list?_map Member.ofRecord?_record]

theorem Relation.ofRecord?_record : Undoes ofRecord? record := by
  intro r
  have htype : RelationType.naming.read? (.str r.type.name) = some r.type :=
    RelationType.naming.undoes r.type
  simp [record, ofRecord?, htype]

theorem ClassDiagram.ofRecord?_record : Undoes ofRecord? record := by
  intro d
  simp [record, ofRecord?, Json.registry?_map Classifier.ofRecord?_record,
    Json.list?_map Relation.ofRecord?_record, Json.list?_map Diagnostic.ofRecord?_record]

/-- Every diagram is what is made of its record. -/
theorem Diagram.ofRecord?_record : Undoes ofRecord? record := by
  rintro (c | d)
  · rw [record, ofRecord?, Flowchart.ofRecord?_record c]
    rfl
  · have hchart : Flowchart.ofRecord? d.record = none := rfl
    rw [record, ofRecord?, hchart, ClassDiagram.ofRecord?_record d]
    rfl

/-! ### Names in records -/

namespace Json
variable {α : Type} {write : α → Json}

/-- Names that differ, with values in which names differ. -/
theorem distinct_obj {fields : List (String × Json)} (hnames : (fields.map (·.1)).Nodup)
    (hvalues : ∀ field ∈ fields, field.2.Distinct) : (obj fields).Distinct :=
  ⟨hnames, distinctFields_iff.mpr hvalues⟩

theorem distinct_registry (h : ∀ a, (write a).Distinct) {r : Registry α} (hr : r.keys.Nodup) :
    (obj (r.entries.map fun (key, a) => (key, write a))).Distinct := by
  refine distinct_obj ?_ (List.forall_mem_map.mpr fun entry _ => h entry.2)
  rw [List.map_map]
  exact hr

theorem distinct_list (h : ∀ a, (write a).Distinct) (as : List α) : (arr (as.map write)).Distinct :=
  distinctAll_iff.mpr (List.forall_mem_map.mpr fun a _ => h a)

@[simp] theorem distinct_strs (ss : List String) : (strs ss).Distinct :=
  distinct_list (show ∀ s : String, (str s).Distinct from fun _ => trivial) ss

@[simp] theorem distinct_strOrNull (o : Option String) : (strOrNull o).Distinct := by
  cases o <;> trivial

end Json

theorem Diagnostic.distinct_record (d : Diagnostic) : d.record.Distinct := by
  simp [record, Json.Distinct, Json.DistinctFields]

theorem Node.distinct_record (n : Node) : n.record.Distinct := by
  simp [record, Json.Distinct, Json.DistinctFields]

theorem Edge.distinct_record (e : Edge) : e.record.Distinct := by
  simp [record, Json.Distinct, Json.DistinctFields]

mutual
theorem Subgraph.distinct_record : (s : Subgraph) → s.record.Distinct
  | ⟨_, _, _, _, _, children⟩ => by
    have hchildren := distinct_records children
    simp [record, Json.Distinct, Json.DistinctFields, hchildren]

theorem Subgraph.distinct_records : (ss : List Subgraph) → Json.DistinctAll (records ss)
  | [] => trivial
  | s :: more => ⟨distinct_record s, distinct_records more⟩
end

theorem StyleClass.distinct_record (s : StyleClass) : s.record.Distinct := by
  simp [record, Json.Distinct, Json.DistinctFields]

theorem Member.distinct_record (m : Member) : m.record.Distinct := by
  simp [record, Json.Distinct, Json.DistinctFields]

theorem Classifier.distinct_record (c : Classifier) : c.record.Distinct := by
  have hmembers : Json.DistinctAll (c.members.map (·.record)) :=
    Json.distinct_list Member.distinct_record c.members
  simp [record, Json.Distinct, Json.DistinctFields, hmembers]

theorem Relation.distinct_record (r : Relation) : r.record.Distinct := by
  simp [record, Json.Distinct, Json.DistinctFields]

theorem Flowchart.distinct_record {c : Flowchart} (h : c.nodes.keys.Nodup) : c.record.Distinct := by
  refine Json.distinct_obj (by simp) ?_
  simp only [List.forall_mem_cons]
  exact ⟨trivial, Json.distinct_registry Node.distinct_record h,
    Json.distinct_list Edge.distinct_record c.edges, Subgraph.distinct_records c.subgraphs,
    Json.distinct_list StyleClass.distinct_record c.styles,
    Json.distinct_list Diagnostic.distinct_record c.diagnostics, List.forall_mem_nil _⟩

theorem ClassDiagram.distinct_record {d : ClassDiagram} (h : d.classes.keys.Nodup) :
    d.record.Distinct := by
  refine Json.distinct_obj (by simp) ?_
  simp only [List.forall_mem_cons]
  exact ⟨Json.distinct_strOrNull d.title, Json.distinct_registry Classifier.distinct_record h,
    Json.distinct_list Relation.distinct_record d.relations,
    Json.distinct_list Diagnostic.distinct_record d.diagnostics, List.forall_mem_nil _⟩

/-- Every name in the registry of a diagram comes up once. -/
def Diagram.NamesDistinct : Diagram → Prop
  | .flowchart c => c.nodes.keys.Nodup
  | .classDiagram d => d.classes.keys.Nodup

instance : (d : Diagram) → Decidable d.NamesDistinct
  | .flowchart c => inferInstanceAs (Decidable c.nodes.keys.Nodup)
  | .classDiagram d => inferInstanceAs (Decidable d.classes.keys.Nodup)

theorem Diagram.distinct_record : (d : Diagram) → d.NamesDistinct → d.record.Distinct
  | .flowchart _, h => Flowchart.distinct_record h
  | .classDiagram _, h => ClassDiagram.distinct_record h

end Mermaid
