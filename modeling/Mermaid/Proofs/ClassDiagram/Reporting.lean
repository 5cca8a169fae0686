import Mermaid.Proofs.ClassDiagram.Integrity
import Mermaid.Proofs.ClassDiagram.Progress
import Mermaid.Proofs.ClassDiagram.Writing
import Mermaid.Proofs.Diagram.Safety
import Mermaid.Proofs.Grammar.Reporting

/-! The diagnostics of class diagrams. A diagram keeps those that its events report, in their order;
the statements report none themselves, wherever they end, and leave that to their guard. -/
namespace Mermaid.ClassDiagram
open Rule

instance : Reporting Event where
  diagnostic? := Event.diagnostic?
  recovered _ := rfl

theorem diagnostics_apply (d : ClassDiagram) (e : Event) :
    (d.apply e).diagnostics = d.diagnostics ++ e.diagnostic?.toList := by
  cases e with
  | fault _ | recovered _ => rfl
  | title _ | mention _ _ | declare _ _ | stereotype _ _ | member _ _ | relate _ =>
    exact (List.append_nil _).symm

/-- Events add the diagnostics that they keep, and take none away. -/
theorem diagnostics_applyAll (d : ClassDiagram) (events : List Event) :
    (d.applyAll events).diagnostics = d.diagnostics ++ events.filterMap Event.diagnostic? :=
  foldl_view diagnostics (fun d e _ => d.diagnostics_apply e) d

namespace Grammar

/-- A statement reports nothing itself. -/
theorem silent_statement : Writes (fun e => Reporting.diagnostic? e = none) (fun _ => True) statement :=
  writes_statement (fun _ _ h _ => h) (fun _ => rfl) fun _ => rfl

theorem spares_statement : Spares statement :=
  fun kind => .plain (takes_statement.ofKind kind) silent_statement

theorem reports_header : Reports 1 header := by
  refine .bind (.plain .skipBlankLines .skipBlankLines) fun _ =>
    .bind (.plain (.accept _) (.accept _)) fun given => ?_
  cases given with
  | true => exact .weaken (.plain (.pure _) (.silent fun _ _ => rfl))
  | false => exact .fault _ fun _ => rfl

theorem reports_document : Reports 1 document :=
  reports_header.bindLast fun _ => .block spares_statement none

/-- A class diagram keeps what its events report. -/
theorem faultsReported {s : Stream} (hs : s.Ordered) (heof : ∀ t ∈ s.tokens, t.kind ≠ .eof) :
    FaultsReported statement document (fun _ => True)
      (fun events => (empty.applyAll events).diagnostics) (ofStream s).diagnostics s := by
  have hfinal : ofStream s = empty.applyAll (document s s.tokens).events :=
    ofReply_of_done (document_outcome heof)
  refine .of_reports empty.diagnostics_applyAll ?_ (fun _ => ?_)
    (fun ts _ => List.filterMap_eq_nil_iff.mpr (silent_statement.events s ts)) reports_document hs
  · exact hfinal ▸ List.prefix_refl _
  · rw [hfinal]

end Grammar
end Mermaid.ClassDiagram
