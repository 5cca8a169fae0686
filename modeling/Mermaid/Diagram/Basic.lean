import Mermaid.ClassDiagram.Grammar
import Mermaid.Flowchart.Grammar

/-!
Diagrams of either kind, and the texts they are read from.
-/
namespace Mermaid

inductive DiagramKind
  | flowchart | classDiagram
  deriving DecidableEq, Repr

inductive Diagram
  | flowchart (chart : Flowchart)
  | classDiagram (diagram : ClassDiagram)
  deriving DecidableEq, Repr

/-- A name that no kind of diagram has. -/
structure UnsupportedKind where
  name : String
  deriving DecidableEq, Repr

def UnsupportedKind.message (e : UnsupportedKind) : String :=
  "Unsupported diagram type: " ++ e.name

namespace DiagramKind

def name : DiagramKind → String
  | flowchart => "flowchart"
  | classDiagram => "class"

def named (name : String) : Except UnsupportedKind DiagramKind :=
  if name = flowchart.name then .ok flowchart
  else if name = classDiagram.name then .ok classDiagram
  else .error ⟨name⟩

end DiagramKind

/-- A diagram as it was read from a text. -/
structure Reading where
  diagram : Diagram
  /-- The faults for which a statement was given up. -/
  recoveries : List Diagnostic
  /-- What is said of the text if it was not read to its end. -/
  abandoned : Option Diagnostic
  deriving DecidableEq, Repr

/-- Whether the text was read to its end. -/
def Reading.complete (r : Reading) : Bool := r.abandoned.isNone

namespace Diagram

/-- Reads a stream, and says which tokens are left. -/
def readOn (kind : DiagramKind) (s : Stream) (limit : Flowchart.Limit := {}) : Reading × List Token :=
  match kind with
  | .flowchart =>
    let r := Flowchart.Grammar.document limit.depth s s.tokens
    (⟨flowchart (.ofReply limit.reason r), r.events.filterMap (·.recovery?),
      r.outcome.abandoned? "flowchart" limit.reason⟩, r.rest)
  | .classDiagram =>
    let r := ClassDiagram.Grammar.document s s.tokens
    (⟨classDiagram (.ofReply r), r.events.filterMap (·.recovery?),
      r.outcome.abandoned? "class diagram" none⟩, r.rest)

def read (kind : DiagramKind) (text : String) (limit : Flowchart.Limit := {}) : Reading :=
  (readOn kind (.ofText text) limit).1

def parse (kind : DiagramKind) (text : String) (limit : Flowchart.Limit := {}) : Diagram :=
  (read kind text limit).diagram

def diagnostics : Diagram → List Diagnostic
  | flowchart c => c.diagnostics
  | classDiagram d => d.diagnostics

end Diagram
end Mermaid
