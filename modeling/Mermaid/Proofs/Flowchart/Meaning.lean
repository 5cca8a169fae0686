import Mermaid.Flowchart.Event
import Mermaid.Proofs.Flowchart.Statement

/-! What the statements of a flowchart draw, and the events that lead to the same drawing. -/
namespace Mermaid.Flowchart

/-- The drawing at some place of a text: the chart without its subgraphs, and the members and
children that the innermost open subgraph has there. At the top level the children are the
subgraphs of the chart. -/
structure Scope where
  chart : Flowchart
  members : List String := []
  children : List Subgraph := []

namespace Scope

/-- Draws a node that stands on line `n`, and counts it among the members. -/
def node (n : Int) (t : NodeTerm) (sc : Scope) : Scope where
  chart := match t.body with
    | none => sc.chart.ensureNode t.id.text n
    | some (shape, caption) => sc.chart.defineNode t.id.text caption.text shape n
  members := if t.id.text ∈ sc.members then sc.members else sc.members ++ [t.id.text]
  children := sc.children

def edge (e : Edge) (sc : Scope) : Scope := { sc with chart := sc.chart.addEdge e }

end Scope

/-- The edge that an arrow draws. -/
def Link.edge (l : Link) (source target : String) : Edge where
  source := source
  target := target
  style := l.form.style
  head := l.form.head
  label := labelText l.label
  minLength := l.extra + 1

/-- Draws the targets of a chain and an edge to each from the node before it. -/
def drawTargets (n : Int) (source : String) : List (Link × NodeTerm) → Scope → Scope
  | [], sc => sc
  | (l, t) :: targets, sc =>
    drawTargets n t.id.text targets ((sc.node n t).edge (l.edge source t.id.text))

def Statement.draw (n : Int) (sc : Scope) : Statement → Scope
  | chain source targets => drawTargets n source.id.text targets (sc.node n source)
  | styleClass name => { sc with chart := sc.chart.addStyle { name := name.text } }
  | assign first more className =>
    let assignOne (c : Flowchart) (id : Name) :=
      (c.ensureNode id.text n).styleNode id.text className.text
    { sc with chart := (first :: more).foldl assignOne sc.chart }

/-- How many lines a heading takes. -/
def Heading.size (h : Heading) : Nat := 1 + if h.direction.isSome then 1 else 0

/-- How many lines a block takes. -/
def Block.size : Block → Nat
  | nil => 0
  | line _ rest => 1 + rest.size
  | subgraph h body rest => h.size + (body.size + (1 + rest.size))

def Heading.subgraph (h : Heading) (members : List String) (children : List Subgraph) :
    Subgraph where
  id := h.id.text
  title := h.title.map (·.text)
  direction := h.direction.map (·.direction)
  members := members
  children := children

/-- Draws a block that begins on line `n`. -/
def Block.draw (n : Int) (sc : Scope) : Block → Scope
  | nil => sc
  | line s rest => rest.draw (n + 1) (s.draw n sc)
  | subgraph h body rest =>
    let inner := body.draw (n + h.size) { chart := sc.chart }
    rest.draw (n + h.size + body.size + 1) { sc with
      chart := inner.chart
      children := sc.children ++ [h.subgraph inner.members inner.children] }

/-- The chart that a text means: its header is on the first line. -/
def chartOf (d : DirectionWord) (b : Block) : Flowchart :=
  let drawn := b.draw 2 { chart := { Flowchart.empty with direction := d.direction } }
  { drawn.chart with subgraphs := drawn.children }

section events

def NodeTerm.event (n : Int) (t : NodeTerm) : Event :=
  match t.body with
  | none => .mention t.id.text n
  | some (shape, caption) => .define t.id.text caption.text shape n

def targetEvents (n : Int) (source : String) : List (Link × NodeTerm) → List Event
  | [] => []
  | (l, t) :: targets =>
    t.event n :: .link (l.edge source t.id.text) :: targetEvents n t.id.text targets

def Statement.events (n : Int) : Statement → List Event
  | chain source targets => source.event n :: targetEvents n source.id.text targets
  | styleClass name => [.style { name := name.text }]
  | assign first more className => [.assign ((first :: more).map (·.text)) className.text n]

def Block.events (n : Int) : Block → List Event
  | nil => []
  | line s rest => s.events n ++ rest.events (n + 1)
  | subgraph h body rest =>
    .enter (h.subgraph [] []) :: (body.events (n + h.size) ++
      .leave :: rest.events (n + h.size + body.size + 1))

/-- Where a scope lies: at the top level, or in a subgraph with the ones around it and the finished
subgraphs at the top level. -/
inductive Place
  | top
  | within (s : Subgraph) (outer : List Subgraph) (finished : List Subgraph)

/-- The draft that a scope is a part of. -/
def Scope.draft (sc : Scope) : Place → Draft
  | .top => ⟨{ sc.chart with subgraphs := sc.children }, []⟩
  | .within s outer finished => ⟨{ sc.chart with subgraphs := finished },
      { s with members := sc.members, children := sc.children } :: outer⟩

private theorem apply_event (n : Int) (t : NodeTerm) (sc : Scope) (p : Place) :
    (sc.draft p).apply (t.event n) = (sc.node n t).draft p := by
  by_cases hm : t.id.text ∈ sc.members
  all_goals
    cases p <;> cases h : t.body <;>
      simp [NodeTerm.event, Scope.node, h, Scope.draft, Draft.apply, Draft.join, ensureNode,
        defineNode, Subgraph.addMember, hm]

theorem applyAll_targetEvents (n : Int) (source : String) (targets : List (Link × NodeTerm))
    (sc : Scope) (p : Place) : (sc.draft p).applyAll (targetEvents n source targets) =
      (drawTargets n source targets sc).draft p := by
  induction targets generalizing source sc with
  | nil => rfl
  | cons target targets ih =>
    obtain ⟨l, t⟩ := target
    have hedge : ((sc.node n t).draft p).apply (.link (l.edge source t.id.text)) =
        ((sc.node n t).edge (l.edge source t.id.text)).draft p := by
      cases p <;> rfl
    rw [targetEvents, Draft.applyAll, List.foldl_cons, List.foldl_cons, apply_event, hedge]
    exact ih t.id.text _

private theorem Statement.applyAll_events (n : Int) (s : Statement) (sc : Scope) (p : Place) :
    (sc.draft p).applyAll (s.events n) = (s.draw n sc).draft p := by
  cases s with
  | chain source targets =>
    rw [events, Draft.applyAll, List.foldl_cons, apply_event]
    exact applyAll_targetEvents n _ targets _ p
  | styleClass name => cases p <;> rfl
  | assign first more className =>
    have hfold : ∀ (ids : List Name) (c : Flowchart) (top : List Subgraph),
        (ids.map (·.text)).foldl (fun c id => (c.ensureNode id n).styleNode id className.text)
          { c with subgraphs := top } =
        { ids.foldl (fun c id => (c.ensureNode id.text n).styleNode id.text className.text) c with
          subgraphs := top } := by
      intro ids
      induction ids with
      | nil => exact fun _ _ => rfl
      | cons id ids ih =>
        exact fun c top => ih ((c.ensureNode id.text n).styleNode id.text className.text) top
    cases p with
    | top => simp only [events, Draft.applyAll, List.foldl_cons, List.foldl_nil, Draft.apply,
        Scope.draft, hfold, draw]
    | within => simp only [events, Draft.applyAll, List.foldl_cons, List.foldl_nil, Draft.apply,
        Scope.draft, hfold, draw]

/-- The place inside a subgraph that opens in a scope. -/
def Place.inside (p : Place) (sc : Scope) (s : Subgraph) : Place :=
  .within s (sc.draft p).opened (sc.draft p).chart.subgraphs

theorem apply_enter (h : Heading) (sc : Scope) (p : Place) :
    (sc.draft p).apply (.enter (h.subgraph [] [])) =
      ({ chart := sc.chart } : Scope).draft (p.inside sc (h.subgraph [] [])) := by
  cases p <;> rfl

theorem apply_leave (h : Heading) (sc inner : Scope) (p : Place) :
    (inner.draft (p.inside sc (h.subgraph [] []))).apply .leave =
      ({ sc with
        chart := inner.chart
        children := sc.children ++ [h.subgraph inner.members inner.children] } : Scope).draft p := by
  cases p <;> rfl

/-- The events of a block draw what the block does. -/
theorem Block.applyAll_events (b : Block) (n : Int) (sc : Scope) (p : Place) :
    (sc.draft p).applyAll (b.events n) = (b.draw n sc).draft p := by
  induction b generalizing n sc p with
  | nil => rfl
  | line s rest ih =>
    rw [events, Draft.applyAll_append, s.applyAll_events, ih]
    rfl
  | subgraph h body rest ihb ihr =>
    have hbody := ihb (n + h.size) { chart := sc.chart } (p.inside sc (h.subgraph [] []))
    rw [events, Draft.applyAll, List.foldl_cons, ← Draft.applyAll, apply_enter,
      Draft.applyAll_append, hbody, Draft.applyAll, List.foldl_cons, ← Draft.applyAll,
      apply_leave, ihr]
    rfl

end events

section diagnostics

private theorem drawTargets_diagnostics (n : Int) (source : String)
    (targets : List (Link × NodeTerm)) (sc : Scope) :
    (drawTargets n source targets sc).chart.diagnostics = sc.chart.diagnostics := by
  induction targets generalizing source sc with
  | nil => rfl
  | cons target targets ih =>
    obtain ⟨l, t⟩ := target
    rw [drawTargets, ih]
    cases h : t.body <;> simp [Scope.node, Scope.edge, h, addEdge, ensureNode, defineNode]

private theorem Statement.draw_diagnostics (n : Int) (s : Statement) (sc : Scope) :
    (s.draw n sc).chart.diagnostics = sc.chart.diagnostics := by
  cases s with
  | chain source targets =>
    rw [draw, drawTargets_diagnostics]
    cases h : source.body <;> simp [Scope.node, h, ensureNode, defineNode]
  | styleClass name => rfl
  | assign first more className =>
    have hfold : ∀ (ids : List Name) (c : Flowchart),
        (ids.foldl (fun c id => (c.ensureNode id.text n).styleNode id.text className.text)
          c).diagnostics = c.diagnostics := by
      intro ids
      induction ids with
      | nil => exact fun _ => rfl
      | cons id ids ih => exact fun c => ih _
    exact hfold _ _

theorem Block.draw_diagnostics (b : Block) (n : Int) (sc : Scope) :
    (b.draw n sc).chart.diagnostics = sc.chart.diagnostics := by
  induction b generalizing n sc with
  | nil => rfl
  | line s rest ih => rw [draw, ih, s.draw_diagnostics]
  | subgraph h body rest ihb ihr => rw [draw, ihr, ihb]

end diagnostics
end Mermaid.Flowchart
