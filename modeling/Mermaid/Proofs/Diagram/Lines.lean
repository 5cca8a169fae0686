import Mermaid.Proofs.ClassDiagram.Lines
import Mermaid.Proofs.Flowchart.Lines

/-! A faulty line costs no other line anything. -/
namespace Mermaid
open Rule

/-- Flowcharts without subgraphs, and class diagrams without declarations of classes, are drawn line
by line: the diagram of a text is that of its lines, each drawn as a block of statements, under its
own number, into the diagram of the lines before it. The blocks of the lines are read to their ends,
and no statement and no recovery takes tokens of a later line. What later lines do to a diagram
does not depend on what was reported before. -/
theorem parse_line_by_line (lines : List String) :
    ((∀ l ∈ lines, PlainLine .subgraph l) → ∀ limit : Flowchart.Limit,
      let text := "flowchart TD\n" ++ String.join (lines.map (· ++ "\n"))
      let statement := Flowchart.Grammar.statement limit.depth
      Flowchart.parse text limit = Flowchart.empty.addLines limit.depth lines 2 ∧
      (∀ l ∈ lines, ∀ n : Nat, let line := Stream.ofTextFrom n (l ++ "\n")
        (block statement none line line.tokens).outcome = .done ()) ∧
      KeepsLines .subgraph statement (.ofText text)) ∧
    (∀ depth n, ∃ added, ∀ (c : Flowchart) ds,
      Flowchart.addLines depth { c with diagnostics := ds } lines n =
        { c.addLines depth lines n with diagnostics := ds ++ added }) ∧
    ((∀ l ∈ lines, PlainLine .classWord l) →
      let text := "classDiagram\n" ++ String.join (lines.map (· ++ "\n"))
      let statement := ClassDiagram.Grammar.statement
      ClassDiagram.parse text = ClassDiagram.empty.addLines lines 2 ∧
      (∀ l ∈ lines, ∀ n : Nat, let line := Stream.ofTextFrom n (l ++ "\n")
        (block statement none line line.tokens).outcome = .done ()) ∧
      KeepsLines .classWord statement (.ofText text)) ∧
    (∀ n, ∃ added, ∀ (d : ClassDiagram) ds,
      ClassDiagram.addLines { d with diagnostics := ds } lines n =
        { d.addLines lines n with diagnostics := ds ++ added }) := by
  have hclass := ClassDiagram.Grammar.lineLocal_statement
  refine ⟨fun h limit => ?_, fun depth => Flowchart.addLines_withDiagnostics depth lines,
    fun h => ⟨ClassDiagram.parse_lines h, fun l hl n => ?_, hclass.keepsLines _⟩,
    ClassDiagram.addLines_withDiagnostics lines⟩
  · have hflowchart := Flowchart.Grammar.lineLocal_statement limit.depth
    refine ⟨Flowchart.parse_lines limit h, fun l hl n => ?_, hflowchart.keepsLines _⟩
    exact congrArg Reply.outcome (hflowchart.block_ofTextFrom (h l hl) n).2.1
  · exact congrArg Reply.outcome (hclass.block_ofTextFrom (h l hl) n).2.1

/-- Lines of a flowchart, some of them faulty. -/
def faultyLines : List String := ["A -->", "B[x", "%% B", "A --> C |", "style", "C --> B"]

/-- Lines of a class diagram, some of them faulty. -/
def faultyMembers : List String := ["A <|--", "A : +int x", "<<interface", "B -- A : x"]

theorem parse_faultyLines : (∀ l ∈ faultyLines, PlainLine .subgraph l) ∧
    (∀ l ∈ faultyMembers, PlainLine .classWord l) ∧
    Flowchart.parse "flowchart TD\nA -->\nB[x\n%% B\nA --> C |\nstyle\nC --> B\n" =
      Flowchart.empty.addLines Flowchart.nestingLimit faultyLines 2 ∧
    ((Flowchart.empty.addLines Flowchart.nestingLimit faultyLines 2).nodes.keys = ["A", "C", "B"] ∧
      (Flowchart.empty.addLines Flowchart.nestingLimit faultyLines 2).diagnostics =
        [⟨"Expected node identifier after arrow", ⟨2, 6⟩⟩, ⟨"Expected ']'", ⟨3, 4⟩⟩,
          ⟨"Expected identifier after 'style'", ⟨6, 6⟩⟩]) ∧
    ClassDiagram.parse "classDiagram\nA <|--\nA : +int x\n<<interface\nB -- A : x\n" =
      ClassDiagram.empty.addLines faultyMembers 2 ∧
    ((ClassDiagram.empty.addLines faultyMembers 2).classes.keys = ["A", "B"] ∧
      (ClassDiagram.empty.addLines faultyMembers 2).diagnostics =
        [⟨"Expected target class name", ⟨2, 7⟩⟩,
          ⟨"Expected class name after annotation", ⟨4, 12⟩⟩]) := by
  have hlines : ∀ l ∈ faultyLines, PlainLine .subgraph l := by decide +kernel
  have hmembers : ∀ l ∈ faultyMembers, PlainLine .classWord l := by decide +kernel
  obtain ⟨hflowchart, -⟩ := parse_line_by_line faultyLines
  obtain ⟨-, -, hclass, -⟩ := parse_line_by_line faultyMembers
  refine ⟨hlines, hmembers, (hflowchart hlines {}).1, ?_, (hclass hmembers).1, ?_⟩
  · decide +kernel
  · decide +kernel

end Mermaid
