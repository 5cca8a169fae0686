import Mermaid.Proofs.Flowchart.Progress
import Mermaid.Proofs.Grammar.Moving

/-! The flowchart grammar run on a stream and on the stream with its tokens moved within their lines.
Only the text of a style class depends on columns, and only on the gaps between its tokens. -/
namespace Mermaid.Flowchart
open Rule Token

instance : Movable Event where
  moved column
    | .fault d => .fault (d.moved column)
    | .recovered d => .recovered (d.moved column)
    | e => e

variable {column : Position → Int} {s : Stream}

private theorem pieces_moved (c : Closer) (last : Option TokenKind) (ts : List Token) :
    NodeText.pieces c last (ts.map (·.moved column)) =
      let (texts, closed, rest) := NodeText.pieces c last ts
      (texts, closed, rest.map (·.moved column)) := by
  induction ts generalizing last with
  | nil => rfl
  | cons t ts ih =>
    have hends : NodeText.endsWith c (t.moved column) = NodeText.endsWith c t := rfl
    simp only [List.map_cons, NodeText.pieces, kind_moved, lexeme_moved, hends, ih]
    repeat' split
    all_goals rfl

theorem carries_nodeText (c : Closer) : Carries column id (NodeText.read c) (NodeText.read c) := by
  intro ts
  rw [NodeText.read, pieces_moved]
  rfl

theorem carries_readLabel : Carries column id readLabel readLabel := by
  intro ts
  have hspan : Carries column _ (List.span fun t => t.kind != .pipe && t.kind != .newline) _ :=
    .span fun _ => rfl
  simp only [readLabel, hspan ts, map_lexeme_moved]
  rfl

namespace Grammar

theorem moves_node (t : Token) : Moves s column id (node t) (node (t.moved column)) := by
  refine .bindSame .nextKind fun k => ?_
  cases k.bind shape? with
  | none => exact .bindSame (.emit rfl) fun _ => .value _
  | some shape =>
    refine .bind .advance fun _ =>
      .bindSame (.take (NodeText.reads shape.2) (carries_nodeText shape.2)) fun (text, closed) => ?_
    cases closed with
    | true => exact .bindSame (.emit rfl) fun _ => .value _
    | false => exact .bindSame (.fail _) fun _ => .value _

theorem moves_edgeLabel : Moves s column id edgeLabel edgeLabel := by
  refine .bindSame (.accept _) fun given => ?_
  cases given with
  | true =>
    exact .bindSame (.take reads_readLabel carries_readLabel) fun _ => .bind (.expect _ _) fun _ =>
      .value _
  | false => exact .value _

theorem moves_link (source : String) : Moves s column id (link source) (link source) := by
  refine .bind .advance fun t => ?_
  rw [kind_moved, lexeme_moved]
  cases arrow? t.kind with
  | none => exact .value _
  | some arrow =>
    exact .bindSame moves_edgeLabel fun _ => .bind (.expect _ _) fun _ => .bindSame (moves_node _) fun _ =>
      .bindSame (.emit rfl) fun _ => .value _

theorem moves_nodeOrEdge : Moves s column id nodeOrEdge nodeOrEdge := by
  have hlinks : ∀ source, Moves s column id (do let _ ← links source) (do let _ ← links source) :=
    fun source => .bindSame (.iterate (fun _ => by rfl) moves_link source) fun _ => .value _
  refine .bind .advance fun _ => .bindSame (moves_node _) fun source => .bindSame .nextKind fun k => ?_
  by_cases h : k = some .solidLink
  · rw [if_pos h]
    exact .bindSame (.fail _) fun _ => hlinks source
  · rw [if_neg h]
    exact hlinks source

theorem moves_subgraphTitle (name : String) :
    Moves s column id (subgraphTitle name) (subgraphTitle name) := by
  refine .bindSame .nextKind fun k => ?_
  split
  · exact .value _
  · exact .value _
  · exact .bind .advance fun _ => .value _
  · refine .bind .advance fun _ =>
      .bindSame (.take (NodeText.reads _) (carries_nodeText _)) fun (text, closed) => ?_
    cases closed with
    | true => exact .value _
    | false => exact .fail _
  · refine .bind .skipLine fun line => ?_
    rw [map_lexeme_moved]
    exact .value _

theorem moves_direction : Moves s column id direction direction := by
  refine .bindSame .nextKind fun k => ?_
  cases k.bind direction? with
  | none => exact .value _
  | some d => exact .bind .advance fun _ => .value _

theorem moves_subgraphHead : Moves s column id subgraphHead subgraphHead := by
  refine .bind .advance fun _ => .bind (.expect _ _) fun _ => .bindSame (moves_subgraphTitle _) fun _ =>
    .bindSame .skipBlankLines fun _ => .bindSame (.accept _) fun given => ?_
  cases given with
  | true => exact .bindSame .skipBlankLines fun _ => .bindSame moves_direction fun _ => .value _
  | false => exact .value _

theorem moves_nodeStyle : Moves s column id nodeStyle nodeStyle :=
  .bind .advance fun _ => .bind (.expect _ _) fun _ => .bind .skipLine fun _ => .value _

theorem moves_classAssignment : Moves s column id classAssignment classAssignment := by
  have hfurther : ∀ ids, Moves s column id (furtherId ids) (furtherId ids) := fun _ =>
    .bind .advance fun _ => .bind (.expect _ _) fun _ => .value _
  exact .bind .advance fun _ => .bind (.expect _ _) fun _ =>
    .bindSame (.iterate (fun _ => by rfl) hfurther _) fun _ => .bind (.expect _ _) fun _ =>
      .bindSame (.emit rfl) fun _ => .bind .skipLine fun _ => .value _

theorem moves_subgraph {inner : Option (Rule Event Unit)}
    (h : ∀ statement ∈ inner, Moves s column id statement statement) :
    Moves s column id (subgraph inner) (subgraph inner) := by
  refine .bindSame moves_subgraphHead fun _ => ?_
  cases inner with
  | none => exact .tooDeep
  | some statement =>
    exact .bindSame (.emit rfl) fun _ =>
      .bindSame (.onOverflow (.block (fun _ => rfl) (h _ rfl) _) rfl) fun _ =>
        .bindSame (.emit rfl) fun _ => .bind (.expect _ _) fun _ => .value _

theorem moves_header : Moves s column id header header := by
  refine .bindSame .skipBlankLines fun _ => .bindSame (.accept _) fun given => ?_
  cases given with
  | true =>
    refine .bindSame .skipBlankLines fun _ => .bindSame moves_direction fun d => ?_
    cases d with
    | some d => exact .emit rfl
    | none => exact .value _
  | false => exact .bind (.unmet _) fun _ => .emit rfl

section statements
variable (hgaps : s.tokens.IsChain (SameGap column))
include hgaps

theorem moves_styleClass : Moves s column id styleClass styleClass := by
  refine .bind .advance fun _ => .bind (.expect _ _) fun _ => .lineBind (fun line hline hlast => ?_)
    fun _ => .emit _
  rw [Stream.joinSource_moved hgaps hline hlast]
  exact .emit rfl

theorem moves_statementOver {inner : Option (Rule Event Unit)}
    (h : ∀ statement ∈ inner, Moves s column id statement statement) :
    Moves s column id (statementOver inner) (statementOver inner) := by
  refine .bindSame .skipBlankLines fun _ => .bindSame .nextKind fun k => ?_
  split
  · exact .value _
  · exact moves_subgraph h
  · exact moves_nodeStyle
  · exact moves_styleClass hgaps
  · exact moves_classAssignment
  · exact .bind .skipLine fun _ => .value _
  · exact moves_nodeOrEdge
  · exact .bind .advance fun _ => .value _

theorem moves_statement (depth : Nat) : Moves s column id (statement depth) (statement depth) := by
  induction depth with
  | zero => exact moves_statementOver hgaps (by simp)
  | succ depth ih =>
    refine moves_statementOver hgaps fun r hr => ?_
    cases hr
    exact ih

/-- A document is read alike but for the places of faults. -/
theorem moves_document (depth : Nat) : Moves s column id (document depth) (document depth) :=
  .bindSame moves_header fun _ => .block (fun _ => rfl) (moves_statement hgaps depth) none

end statements
end Grammar
end Mermaid.Flowchart
