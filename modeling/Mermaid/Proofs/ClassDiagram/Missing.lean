import Mermaid.Proofs.ClassDiagram.Reporting
import Mermaid.Proofs.Grammar.Missing

/-! What the statements of a class diagram find missing. -/
namespace Mermaid.ClassDiagram.Grammar
open Rule

section
variable {Q : Expectation → Prop} (hQ : ∀ m : Expectation, m.Listed → Q m)

theorem misses_restText : Misses Q restText := .bind .skipLine fun _ => .pure _

theorem misses_member (owner : String) : Misses Q (member owner) := by
  refine .bind (.take _) fun said => ?_
  cases said with
  | nothing => exact .pure _
  | stereotype text => exact .emit _
  | member m => exact .emit _

theorem misses_body (owner : String) : Misses Q (body owner) :=
  .bind .skipBlankLines fun _ => .iterate (fun _ => .bind (.look _) fun _ =>
    .bind (misses_member owner) fun _ => .bind (.progressPast _) fun _ => .skipBlankLines) ()

theorem misses_sourceCardinality : Misses Q sourceCardinality := by
  refine .bind (.look _) fun given => ?_
  cases given with
  | true => exact .bind .advance fun _ => .pure _
  | false => exact .pure _

theorem misses_targetCardinality : Misses Q targetCardinality := by
  refine .bind .nextKind fun k => ?_
  by_cases h : k = some .string
  · rw [if_pos h]
    exact .bind .advance fun _ => .pure _
  · rw [if_neg h]
    exact .pure _

include hQ

theorem misses_declaration : Misses Q declaration := by
  refine .bind .advance fun _ => .bind (.expect (hQ _ trivial)) fun _ => .bind (.emit _) fun _ =>
    .bind .skipBlankLines fun _ => .bind (.of_sure (.accept _)) fun opened => ?_
  cases opened with
  | true => exact .bind (misses_body _) fun _ => .bind (.expect (hQ .classEnd trivial)) fun _ => .pure _
  | false => exact .pure _

theorem misses_relation (source : Token) (cardinality : Option String) (type : RelationType) :
    Misses Q (relation source cardinality type) := by
  refine .bind (.emit _) fun _ => .bind .advance fun _ => .bind (.take _) fun _ =>
    .bind misses_targetCardinality fun _ => .bind (.expect (hQ .relatedClass trivial)) fun _ =>
      .bind (.emit _) fun _ => .bind (.of_sure (.accept _)) fun given => ?_
  cases given with
  | true => exact .bind (.map _ misses_restText) fun _ => .emit _
  | false => exact .bind (.pure _) fun _ => .emit _

theorem misses_relationOrReference : Misses Q relationOrReference := by
  refine .bind .advance fun source => .bind misses_sourceCardinality fun cardinality =>
    .bind (.look _) fun given => ?_
  extract_lets last
  have hlast : ∀ u, Misses Q (last u) := by
    refine fun u => .bind .nextKind fun k => ?_
    cases k.bind relation? with
    | some type => exact misses_relation hQ source cardinality type
    | none =>
      refine .bind (.of_sure (.accept _)) fun withMember => .bind (.emit _) fun _ => ?_
      cases withMember with
      | true => exact misses_member _
      | false => exact .pure _
  cases given with
  | true => exact .bind .advance fun _ => hlast ()
  | false => exact hlast ()

theorem misses_statement : Misses Q statement := by
  refine .bind .skipBlankLines fun _ => .bind .nextKind fun k => ?_
  split
  · exact .pure _
  · exact .bind .advance fun _ => .bind misses_restText fun _ => .emit _
  · exact misses_declaration hQ
  · exact .bind .advance fun _ => .bind (.take _) fun _ => .bind (.expect (hQ _ trivial)) fun _ =>
      .bind (.emit _) fun _ => .emit _
  · exact misses_relationOrReference hQ
  · exact .bind .advance fun _ => .pure _

end

/-- A text reports nothing but what its header and its statements can miss. -/
theorem names_document : Writes (Reporting.Names Expectation.Listed) (fun _ => True) document := by
  have hstatement : Writes (Reporting.Names Expectation.Listed) (fun _ => True) statement :=
    silent_statement.mono fun _ he => .of_silent he
  have hguarded : Writes (Reporting.Names Expectation.Listed) (fun _ => True) (guarded statement) :=
    (misses_statement fun _ hm => hm).writes_guarded hstatement fun _ _ hm => .of_unmet rfl hm
  have hheader : Writes (Reporting.Names Expectation.Listed) (fun _ => True) header := by
    refine .bind .skipBlankLines fun _ _ => .bind (.accept _) fun given _ => ?_
    cases given with
    | true => exact .silent fun _ _ => rfl
    | false =>
      refine .bind (.unmet _) fun d hd => .emit ?_
      obtain ⟨t, rfl⟩ := hd
      exact .of_unmet rfl trivial
  exact .bind hheader fun _ _ => .block_of_guarded hguarded none

/-- No text is given up. -/
theorem not_givesUp {s : Stream} (heof : ∀ t ∈ s.tokens, t.kind ≠ .eof) :
    ∀ d ∈ (ofStream s).diagnostics, ¬ d.GivesUp := by
  rw [ofStream, ofReply_of_done (document_outcome heof), diagnostics_applyAll]
  exact Reporting.Names.not_givesUp (names_document.events s s.tokens)

end Mermaid.ClassDiagram.Grammar
