import Mermaid.Proofs.ClassDiagram.Lines
import Mermaid.Proofs.Grammar.Looping

/-! Blocks make progress and recover from faults, whatever their statements are. -/
namespace Mermaid
open Rule

/-- A block reads to its end whatever its statement takes, if it takes anything at all. It has no more
rounds than there are tokens, never goes back, and stops at the end of the text or a token to stop at.
From a statement that fails it goes on at the first boundary, and the diagram has one more diagnostic
then and is else as the statement left it. -/
theorem blocks_progress :
    (∀ {ε : Type} [Recovers ε] (statement : Rule ε Unit), Steady False statement →
      ∀ stop s ts, ts <:+ s.tokens → Progresses statement stop s ts) ∧
    (∀ (statement : Rule Flowchart.Event Unit) s ts m, (statement s ts).outcome = .failed m →
      ∀ d : Flowchart.Draft,
        let left := d.applyAll (statement s ts).events
        d.applyAll (guarded statement s ts).events =
          { left with chart := left.chart.report (m.unmetAt (s.current (statement s ts).rest)) }) ∧
    (∀ (statement : Rule ClassDiagram.Event Unit) s ts m, (statement s ts).outcome = .failed m →
      ∀ d : ClassDiagram, d.applyAll (guarded statement s ts).events =
        (d.applyAll (statement s ts).events).report (m.unmetAt (s.current (statement s ts).rest))) := by
  refine ⟨fun statement h stop s ts _ => h.progresses stop s ts, ?_, ?_⟩
  · intro statement s ts m hm d left
    rw [guarded_of_failed hm, Flowchart.Draft.applyAll_append]
    rfl
  · intro statement s ts m hm d
    rw [guarded_of_failed hm, ClassDiagram.applyAll_append]
    rfl

/-- Two lines with one word each. -/
def twoWordsText : String := "A\nB\n"

/-- A statement that takes nothing and fails wherever it stands. The second word is passed over for the
statement, which then fails at the line break as well. -/
theorem blocks_progress_twoWordsText :
    let s := Stream.ofText twoWordsText
    let statement : Rule ClassDiagram.Event Unit := fail .classEnd
    Steady False statement ∧ s.tokens <:+ s.tokens ∧ Progresses statement none s s.tokens ∧
      (block statement none s s.tokens).rest = [] ∧
      (ClassDiagram.empty.applyAll (block statement none s s.tokens).events).diagnostics =
        [⟨"Expected '\x7d'", ⟨1, 1⟩⟩, ⟨"Expected '\x7d'", ⟨2, 1⟩⟩, ⟨"Expected '\x7d'", ⟨2, 2⟩⟩] := by
  intro s statement
  have hsteady : Steady False statement := .fail _
  exact ⟨hsteady, List.suffix_refl _, blocks_progress.1 statement hsteady none s s.tokens (List.suffix_refl _),
    by decide +kernel, by decide +kernel⟩

end Mermaid
