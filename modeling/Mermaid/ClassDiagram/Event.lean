import Mermaid.ClassDiagram.Basic
import Mermaid.Grammar.Recovery

/-!
What a class diagram text says, one event after the other, and the diagram that the events add
up to.
-/
namespace Mermaid.ClassDiagram

inductive Event
  | title (text : String)
  /-- A class referred to by its name. -/
  | mention (name : String) (line : Int)
  /-- A class declared by `class`. -/
  | declare (name : String) (line : Int)
  | stereotype (owner text : String)
  | member (owner : String) (member : Member)
  | relate (relation : Relation)
  /-- A fault that costs nothing. -/
  | fault (diagnostic : Diagnostic)
  /-- A fault for which the rest of a statement is passed over. -/
  | recovered (diagnostic : Diagnostic)
  deriving DecidableEq, Repr

instance : Recovers Event where
  recovered := .recovered
  restarts
    | .classWord | .title => true
    | _ => false

/-- The diagnostic of a statement that was given up. -/
def Event.recovery? : Event → Option Diagnostic
  | .recovered e => some e
  | _ => none

def apply (d : ClassDiagram) : Event → ClassDiagram
  | .title text => { d with title := some text }
  | .mention name line => d.ensureClass name line
  | .declare name line => d.declareClass name line
  | .stereotype owner text => d.setStereotype owner text
  | .member owner m => d.addMember owner m
  | .relate r => d.addRelation r
  | .fault e | .recovered e => d.report e

def applyAll (d : ClassDiagram) (events : List Event) : ClassDiagram := events.foldl apply d

end Mermaid.ClassDiagram
