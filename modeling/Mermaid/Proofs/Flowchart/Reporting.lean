import Mermaid.Proofs.Flowchart.Writing
import Mermaid.Proofs.Grammar.Reporting

/-! The diagnostics of flowcharts. A chart keeps those that its events report, in their order; and
the rules report them on their way through the tokens. -/
namespace Mermaid.Flowchart
open Rule

instance : Reporting Event where
  diagnostic? := Event.diagnostic?
  recovered _ := rfl

theorem Draft.diagnostics_apply (d : Draft) (e : Event) :
    (d.apply e).chart.diagnostics = d.chart.diagnostics ++ e.diagnostic?.toList := by
  cases e with
  | mention | define => simp [apply, ensureNode, defineNode, Event.diagnostic?]
  | leave =>
    rcases d with ⟨c, _ | ⟨s, _ | ⟨parent, outer⟩⟩⟩ <;>
      simp [apply, close, addSubgraph, Event.diagnostic?]
  | assign ids className line =>
    obtain ⟨nodes, hnodes⟩ := d.exists_nodes_assign ids className line
    simp [hnodes, Event.diagnostic?]
  | fault _ | recovered _ => rfl
  | orient _ | link _ | enter _ | abandon | style _ => exact (List.append_nil _).symm

/-- Events add the diagnostics that they keep, and take none away. -/
theorem Draft.diagnostics_applyAll (d : Draft) (events : List Event) :
    (d.applyAll events).chart.diagnostics =
      d.chart.diagnostics ++ events.filterMap Event.diagnostic? :=
  foldl_view (fun d : Draft => d.chart.diagnostics) (fun d e _ => d.diagnostics_apply e) d

namespace Grammar

theorem Plain.silent {α : Type} {r : Rule Event α} (h : Plain r) :
    Writes (fun e => Reporting.diagnostic? e = none) (fun _ => True) r :=
  h.mono fun _ he => he.2.1

/-- A subgraph reports what the statements in it do, and its head leaves the room for its end. -/
theorem spares_subgraph {inner : Option (Rule Event Unit)}
    (h : ∀ statement ∈ inner, Spares statement) (kind : TokenKind) :
    SparesKind kind (subgraph inner) := by
  have hhead : SparesKind kind subgraphHead :=
    .plain (takes_subgraphHead.ofKind kind) writes_subgraphHead
  refine hhead.bind fun head => ?_
  cases inner with
  | none => exact .plain (.tooDeep trivial) .tooDeep
  | some statement =>
    have hend : Reports 0 (do emit Event.leave; let _ ← expect .endSubgraph .subgraphEnd) :=
      .plain (.bind (.emit _) fun _ => .bind (.expect _ _) fun _ => .pure _)
        (.bind (.emit rfl) fun _ _ => .bind (.expect _ _) fun _ _ => .silent fun _ _ => rfl)
    exact .bind (.plain (.emit _) (.emit rfl)) fun _ =>
      .bind (.onOverflow (.block (h statement rfl) _) rfl) fun _ => hend

theorem spares_statementOver {inner : Option (Rule Event Unit)}
    (h : ∀ statement ∈ inner, Spares statement) : Spares (statementOver inner) := by
  rw [statementOver_eq]
  refine .pastBlank (.plain (.pure _) (.silent fun _ _ => rfl)) fun kind => ?_
  by_cases hk : kind = .subgraph
  · rw [hk]
    exact spares_subgraph h _
  · exact .plain (takes_statementFrom fun h => absurd h hk)
      (plain_statementFrom (fun h => hk (Option.some.inj h)) inner).silent

theorem spares_statement (depth : Nat) : Spares (statement depth) := by
  induction depth with
  | zero => exact spares_statementOver nofun
  | succ depth ih =>
    refine spares_statementOver fun r hr => ?_
    cases hr
    exact ih

theorem reports_header : Reports 1 header := by
  refine .bind (.plain .skipBlankLines .skipBlankLines) fun _ =>
    .bind (.plain (.accept _) (.accept _)) fun given => ?_
  cases given with
  | true =>
    refine .weaken (.bind (.plain .skipBlankLines .skipBlankLines) fun _ =>
      .bind (.plain steady_direction writes_direction) fun d => ?_)
    cases d with
    | some d => exact .plain (.emit _) (.emit rfl)
    | none => exact .plain (.pure _) (.silent fun _ _ => rfl)
  | false => exact .fault _ fun _ => rfl

theorem reports_document (depth : Nat) : Reports 1 (document depth) :=
  reports_header.bindLast fun _ => .block (spares_statement depth) none

/-- A statement that is no subgraph leaves the diagnostics to its guard. -/
theorem reports_statement (depth : Nat) (s : Stream) {ts : List Token} (h : atSubgraph ts = false) :
    (statement depth s ts).reports = [] :=
  List.filterMap_eq_nil_iff.mpr fun e he => (plain_statement depth s h e he).2.1

/-- A flowchart keeps what its events report; a document that is not read to its end has one
diagnostic more. -/
theorem faultsReported (limit : Limit) {s : Stream} (hs : s.Ordered) :
    FaultsReported (statement limit.depth) (document limit.depth) (atSubgraph · = false)
      (fun events => (Draft.start.applyAll events).chart.diagnostics)
      (ofStreamWithin limit s).diagnostics s := by
  refine .of_reports Draft.start.diagnostics_applyAll ?_ (fun hdone => ?_)
    (fun _ => reports_statement limit.depth s) (reports_document limit.depth) hs
  · rw [ofStreamWithin, ofReply]
    split
    · exact List.prefix_refl _
    · exact List.prefix_append _ _
  · rw [ofStreamWithin, ofReply_of_done hdone]

end Grammar
end Mermaid.Flowchart
