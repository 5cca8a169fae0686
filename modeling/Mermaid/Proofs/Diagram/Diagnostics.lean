import Mermaid.Proofs.ClassDiagram.Reporting
import Mermaid.Proofs.Flowchart.Reporting

/-! The diagnostics of every text stand in it, in order. -/
namespace Mermaid
open Rule

/-- Every text has its faults reported, as a flowchart and as a class diagram. While it is read,
diagnostics are only ever added: one by the guard of each statement that fails, subgraphs apart,
and none by that of a statement that does not. If it is read to its end, as class diagrams always
are, the diagnostics stand at tokens of the text, the one for its end included, in the order of the
text, and they are not more than these tokens. -/
theorem diagnostics_located (text : String) :
    let s := Stream.ofText text
    (∀ limit : Flowchart.Limit,
      FaultsReported (Flowchart.Grammar.statement limit.depth) (Flowchart.Grammar.document limit.depth)
      (Flowchart.Grammar.atSubgraph · = false)
      (fun events => (Flowchart.Draft.start.applyAll events).chart.diagnostics)
      (Flowchart.ofStreamWithin limit s).diagnostics s) ∧
    FaultsReported ClassDiagram.Grammar.statement ClassDiagram.Grammar.document (fun _ => True)
      (fun events => (ClassDiagram.empty.applyAll events).diagnostics)
      (ClassDiagram.parse text).diagnostics s ∧
    (ClassDiagram.Grammar.document s s.tokens).outcome = .done () := by
  intro s
  have hs : s.Ordered := Stream.ordered_ofText text
  have heof : ∀ t ∈ s.tokens, t.kind ≠ .eof := Stream.kind_ne_eof text
  exact ⟨fun limit => Flowchart.Grammar.faultsReported limit hs,
    ClassDiagram.Grammar.faultsReported hs heof, ClassDiagram.Grammar.document_outcome heof⟩

/-- Two faulty lines in a subgraph that is not closed. -/
def unclosedText : String := "flowchart TD\nsubgraph S\nA -->\nB[x\n"

theorem diagnostics_located_unclosedText :
    let s := Stream.ofText unclosedText
    (Flowchart.Grammar.document Flowchart.nestingLimit s s.tokens).outcome = .done () ∧
    Diagnostic.Located (Flowchart.parse unclosedText).diagnostics (scan unclosedText) ∧
    (Flowchart.parse unclosedText).diagnostics =
      [⟨"Expected node identifier after arrow", ⟨3, 6⟩⟩, ⟨"Expected ']'", ⟨4, 4⟩⟩,
        ⟨"Expected 'end' to close subgraph", ⟨5, 1⟩⟩] := by
  have hdone : (Flowchart.Grammar.document Flowchart.nestingLimit (.ofText unclosedText)
      (Stream.ofText unclosedText).tokens).outcome = .done () := by
    decide +kernel
  refine ⟨hdone, ((diagnostics_located unclosedText).1 {}).located hdone, ?_⟩
  decide +kernel

end Mermaid
