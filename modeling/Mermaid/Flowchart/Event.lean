import Mermaid.Flowchart.Basic
import Mermaid.Grammar.Recovery

/-!
What a flowchart text says, one event after the other, and the chart that the events add up to.
-/
namespace Mermaid.Flowchart

inductive Event
  | orient (direction : Direction)
  /-- A node referred to by its id. -/
  | mention (id : String) (line : Int)
  /-- A node given a text and a shape. -/
  | define (id text : String) (shape : NodeShape) (line : Int)
  | link (edge : Edge)
  /-- A subgraph opens, without members or children so far. -/
  | enter (subgraph : Subgraph)
  /-- The innermost open subgraph closes. -/
  | leave
  /-- The innermost open subgraph is dropped. -/
  | abandon
  | style (style : StyleClass)
  /-- Nodes given a style class. -/
  | assign (ids : List String) (className : String) (line : Int)
  /-- A fault that costs nothing. -/
  | fault (diagnostic : Diagnostic)
  /-- A fault for which the rest of a statement is passed over. -/
  | recovered (diagnostic : Diagnostic)
  deriving DecidableEq, Repr

instance : Recovers Event where
  recovered := .recovered
  restarts
    | .subgraph | .endSubgraph | .style | .classDef => true
    | _ => false

/-- The diagnostic of a statement that was given up. -/
def Event.recovery? : Event → Option Diagnostic
  | .recovered d => some d
  | _ => none

/-- A chart in the making, with the subgraphs that are open, the innermost first. -/
structure Draft where
  chart : Flowchart
  opened : List Subgraph
  deriving DecidableEq, Repr

namespace Draft

def start : Draft := ⟨.empty, []⟩

/-- Counts a node in to the innermost open subgraph. -/
def join (d : Draft) (id : String) : Draft :=
  match d.opened with
  | [] => d
  | s :: outer => { d with opened := s.addMember id :: outer }

/-- Closes the innermost open subgraph: it becomes a child of the next one, or goes to the top. -/
def close (d : Draft) : Draft :=
  match d.opened with
  | [] => d
  | [s] => ⟨d.chart.addSubgraph s [], []⟩
  | s :: parent :: outer => { d with opened := parent.addChild s :: outer }

def apply (d : Draft) : Event → Draft
  | .orient direction => { d with chart.direction := direction }
  | .mention id line => { d with chart := d.chart.ensureNode id line }.join id
  | .define id text shape line => { d with chart := d.chart.defineNode id text shape line }.join id
  | .link edge => { d with chart := d.chart.addEdge edge }
  | .enter s => { d with opened := s :: d.opened }
  | .leave => d.close
  | .abandon => { d with opened := d.opened.tail }
  | .style s => { d with chart := d.chart.addStyle s }
  | .assign ids className line =>
    let assignOne (c : Flowchart) (id : String) := (c.ensureNode id line).styleNode id className
    { d with chart := ids.foldl assignOne d.chart }
  | .fault e | .recovered e => { d with chart := d.chart.report e }

def applyAll (d : Draft) (events : List Event) : Draft := events.foldl apply d

theorem applyAll_append (d : Draft) (es fs : List Event) :
    d.applyAll (es ++ fs) = (d.applyAll es).applyAll fs := List.foldl_append

end Draft
end Mermaid.Flowchart
