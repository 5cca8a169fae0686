import Mermaid.Flowchart.Delimiter
import Mermaid.Flowchart.Event

/-!
The grammar of flowcharts, and the chart of a text.
-/
namespace Mermaid.Flowchart
namespace Grammar
open Rule

/-- A node whose id has been read: its definition, if one follows, or else a mention. -/
def node (id : Token) : Rule Event String := do
  match (← nextKind).bind shape? with
  | none => emit (.mention id.lexeme id.position.line)
  | some (shape, closer) =>
    let _ ← advance
    let (text, closed) ← take (NodeText.read closer)
    if closed then emit (.define id.lexeme text shape id.position.line)
    else fail (.shapeEnd closer.text)
  return id.lexeme

def edgeLabel : Rule Event (Option String) := do
  if ← accept .pipe then
    let label ← take readLabel
    let _ ← expect .pipe .labelEnd
    return if label = "" then none else some label
  else return none

/-- An arrow with its label and its target, from a node on. The target is the next source. -/
def link (source : String) : Rule Event String := do
  let t ← advance
  match arrow? t.kind with
  | none => return source
  | some arrow =>
    let label ← edgeLabel
    let target ← node (← expect .identifier .linkTarget)
    emit (.link {
      source, target, label
      style := arrow.style
      head := arrow.head
      minLength := arrow.minLength t.lexeme })
    return target

def links (source : String) : Rule Event String :=
  iterate (fun t => (arrow? t.kind).isSome) link source

def nodeOrEdge : Rule Event Unit := do
  let source ← node (← advance)
  if (← nextKind) = some .solidLink then fail .arrow
  let _ ← links source

/-- The title of a subgraph: a text in brackets, a string, or the whole line. -/
def subgraphTitle (id : String) : Rule Event (Option String) := do
  match ← nextKind with
  | none | some .newline => return none
  | some .string => return some (← advance).lexeme
  | some .openSquare =>
    let _ ← advance
    let (text, closed) ← take (NodeText.read .square)
    if closed then return some text else fail (.shapeEnd Closer.square.text)
  | some _ => return some (" ".intercalate (id :: (← skipLine).map (·.lexeme)))

/-- A direction, if one comes next. -/
def direction : Rule Event (Option Direction) := do
  match (← nextKind).bind direction? with
  | none => return none
  | some d =>
    let _ ← advance
    return some d

/-- The head of a subgraph, up to its own direction. -/
def subgraphHead : Rule Event Subgraph := do
  let _ ← advance
  let id := (← expect .identifier .subgraphName).lexeme
  let title ← subgraphTitle id
  skipBlankLines
  if ← accept .direction then
    skipBlankLines
    return { id, title, direction := ← direction }
  else return { id, title }

/-- A subgraph with the rule for the statements in it; without one it would be too deep. -/
def subgraph (inner : Option (Rule Event Unit)) : Rule Event Unit := do
  let head ← subgraphHead
  match inner with
  | none => tooDeep
  | some statement =>
    emit (.enter head)
    onOverflow (block statement (some .endSubgraph)) .abandon
    emit .leave
    let _ ← expect .endSubgraph .subgraphEnd

def nodeStyle : Rule Event Unit := do
  let _ ← advance
  let _ ← expect .identifier .styledNode
  let _ ← skipLine

def styleClass : Rule Event Unit := do
  let _ ← advance
  let name := (← expect .identifier .styleName).lexeme
  emit (.style ⟨name, Token.joinSource (← skipLine)⟩)

def furtherId (ids : List String) : Rule Event (List String) := do
  let _ ← advance
  return ids ++ [(← expect .identifier .furtherNode).lexeme]

/-- `class` with the ids of nodes and the style class they get. -/
def classAssignment : Rule Event Unit := do
  let line := (← advance).position.line
  let first := (← expect .identifier .assignedNode).lexeme
  let ids ← iterate (·.kind == .comma) furtherId [first]
  let className := (← expect .identifier .styleName).lexeme
  emit (.assign ids className line)
  let _ ← skipLine

/-- A statement, with the rule for the statements in a subgraph. -/
def statementOver (inner : Option (Rule Event Unit)) : Rule Event Unit := do
  skipBlankLines
  match ← nextKind with
  | none => return
  | some .subgraph => subgraph inner
  | some .style => nodeStyle
  | some .classDef => styleClass
  | some .classWord => classAssignment
  | some .linkStyle => let _ ← skipLine
  | some .identifier => nodeOrEdge
  | some _ => let _ ← advance

/-- A statement that may open subgraphs up to `depth` deep. -/
def statement : (depth : Nat) → Rule Event Unit
  | 0 => statementOver none
  | depth + 1 => statementOver (some (statement depth))

def header : Rule Event Unit := do
  skipBlankLines
  if ← accept .flowchart then
    skipBlankLines
    match ← direction with
    | some d => emit (.orient d)
    | none => return
  else emit (.fault (← unmet .flowchartHeader))

def document (depth : Nat) : Rule Event Unit := do
  header
  block (statement depth) none

end Grammar

/-- How deep subgraphs can be nested where nothing else is said. -/
def nestingLimit : Nat := 256

/-- The limit of the stack on which a text is read. It is not the grammar's: it depends on where the program
runs, and so does what is said there. -/
structure Limit where
  /-- How deep subgraphs can be nested. -/
  depth : Nat := nestingLimit
  /-- Why a text is abandoned in which they are nested deeper, where a reason is given. -/
  reason : Option String := none
  deriving DecidableEq, Repr

/-- The chart of a reply. A document that is nested too deeply is left where that shows, for the reason
`overflow`; the subgraphs that are open there are lost. -/
def ofReply (overflow : Option String) (r : Reply Event Unit) : Flowchart :=
  let chart := (Draft.start.applyAll r.events).chart
  match r.outcome.abandoned? "flowchart" overflow with
  | none => chart
  | some d => chart.report d

/-- A document that is read to its end is what its events build. -/
theorem ofReply_of_done {overflow : Option String} {r : Reply Event Unit} (h : r.outcome = .done ()) :
    ofReply overflow r = (Draft.start.applyAll r.events).chart := by
  rw [ofReply, h]
  rfl

/-- The chart of a token stream, with subgraphs as deep as the limit allows. -/
def ofStreamWithin (limit : Limit) (s : Stream) : Flowchart :=
  ofReply limit.reason (Grammar.document limit.depth s s.tokens)

def ofStream (s : Stream) : Flowchart := ofStreamWithin {} s

def parse (text : String) (limit : Limit := {}) : Flowchart := ofStreamWithin limit (.ofText text)

end Mermaid.Flowchart
