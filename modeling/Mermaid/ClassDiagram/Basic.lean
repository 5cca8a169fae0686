import Mermaid.Diagnostic
import Mermaid.Registry

/-!
Class diagrams: classes with their members, in the order of their first mention, and the relations
between them.
-/
namespace Mermaid

inductive Visibility
  | publicly | privately | protectedly | packaged
  deriving DecidableEq, Repr

inductive RelationType
  | inheritance | composition | aggregation | realization | dependency | association
  deriving DecidableEq, Repr

def Visibility.name : Visibility → String
  | publicly => "Public"
  | privately => "Private"
  | protectedly => "Protected"
  | packaged => "Package"

def RelationType.name : RelationType → String
  | inheritance => "Inheritance"
  | composition => "Composition"
  | aggregation => "Aggregation"
  | realization => "Realization"
  | dependency => "Dependency"
  | association => "Association"

/-- An attribute or a method; a method's type is what it returns. -/
structure Member where
  name : String
  isMethod : Bool := false
  visibility : Visibility := .publicly
  type : Option String := none
  deriving DecidableEq, Repr

structure Classifier where
  name : String
  members : List Member := []
  /-- The line that the class was declared or first mentioned on; 0 when no line is known. -/
  line : Int := 0
  /-- The text between `<<` and `>>`, such as `interface`. -/
  stereotype : Option String := none
  deriving DecidableEq, Repr

structure Relation where
  source : String
  target : String
  type : RelationType := .association
  label : Option String := none
  sourceCardinality : Option String := none
  targetCardinality : Option String := none
  deriving DecidableEq, Repr

structure ClassDiagram where
  title : Option String := none
  classes : Registry Classifier := .empty
  relations : List Relation := []
  diagnostics : List Diagnostic := []
  deriving DecidableEq, Repr

namespace Classifier

def attributes (c : Classifier) : List Member := c.members.filter (!·.isMethod)

def methods (c : Classifier) : List Member := c.members.filter (·.isMethod)

end Classifier

namespace ClassDiagram

def empty : ClassDiagram := {}

def findClass? (d : ClassDiagram) (name : String) : Option Classifier := d.classes.find? name

/-- Registers a class without members unless the name is taken. -/
def ensureClass (d : ClassDiagram) (name : String) (line : Int) : ClassDiagram :=
  { d with classes := d.classes.ensure name { name, line } }

/-- Registers a class at the line of its declaration. -/
def declareClass (d : ClassDiagram) (name : String) (line : Int) : ClassDiagram :=
  { d with classes := (d.ensureClass name line).classes.update name fun c => { c with line } }

def addMember (d : ClassDiagram) (owner : String) (m : Member) : ClassDiagram :=
  { d with classes := d.classes.update owner fun c => { c with members := c.members ++ [m] } }

def setStereotype (d : ClassDiagram) (owner text : String) : ClassDiagram :=
  { d with classes := d.classes.update owner fun c => { c with stereotype := some text } }

/-- Adds a relation and the classes it needs. -/
def addRelation (d : ClassDiagram) (r : Relation) : ClassDiagram :=
  let d := (d.ensureClass r.source 0).ensureClass r.target 0
  { d with relations := d.relations ++ [r] }

/-- The classes that a relation connects. -/
def endpoints (d : ClassDiagram) (r : Relation) : Except Unresolved (Classifier × Classifier) := do
  return (← d.classes.resolve r.source, ← d.classes.resolve r.target)

def report (d : ClassDiagram) (e : Diagnostic) : ClassDiagram :=
  { d with diagnostics := d.diagnostics ++ [e] }

end ClassDiagram
end Mermaid
