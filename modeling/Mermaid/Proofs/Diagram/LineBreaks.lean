import Mermaid.CommandLine.Run
import Mermaid.Proofs.Token.Unified

/-! It does not show in a diagram, nor in what is said about its text, how the lines of the text end. -/
namespace Mermaid
open CommandLine

/-- A text with its line breaks written as line feeds has the same tokens at the same places, and is
read to the same diagrams. So the program, which unifies the breaks of its input, answers as for the
input as it stands. -/
theorem lineBreaks_invisible (text : String) :
    let unified := String.ofList (Text.unifyBreaks text.toList)
    scan unified = scan text ∧
    (∀ kind limit, Diagram.parse kind unified limit = Diagram.parse kind text limit) ∧
    ∀ (o : Options) limit,
      let diagram := Diagram.parse o.kind text limit
      (o.answer text limit).output = diagram.render o.format ∧
      (o.answer text limit).faulty = !diagram.diagnostics.isEmpty ∧
      (o.answer text limit).notices = unlines (logLines o.verbose (Diagram.read o.kind text limit) ++
        diagram.diagnostics.map errorLine) := by
  intro unified
  have hstream : Stream.ofText unified = Stream.ofText text := Stream.ofText_unifyBreaks text
  have hread : ∀ kind limit, Diagram.read kind unified limit = Diagram.read kind text limit :=
    fun kind limit => congrArg (fun s => (Diagram.readOn kind s limit).1) hstream
  refine ⟨congrArg Stream.toList hstream, fun kind limit => congrArg Reading.diagram (hread kind limit),
    fun o limit => ?_⟩
  rw [Options.answer, hread]
  exact ⟨rfl, rfl, rfl⟩

end Mermaid
