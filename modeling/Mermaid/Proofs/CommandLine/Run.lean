import Mermaid.CommandLine.Run
import Mermaid.Proofs.ClassDiagram.Missing
import Mermaid.Proofs.CommandLine.Options
import Mermaid.Proofs.CommandLine.Workspace
import Mermaid.Proofs.Diagram.Summary
import Mermaid.Proofs.Flowchart.Abandoned
import Mermaid.Proofs.Token.Unified

/-! What a run of the program leaves behind: the diagram of its text, wherever the text comes from and
wherever the diagram goes, and a line for each fault. -/
namespace Mermaid

namespace Diagram
open Flowchart (Exceeds)

variable {limit : Flowchart.Limit}

/-- The subgraphs of a text are not nested more deeply than they are read; class diagrams have none. -/
def Nests (kind : DiagramKind) (text : String) (limit : Flowchart.Limit) : Prop :=
  let s := Stream.ofText text
  kind = .flowchart → ¬ Exceeds limit.depth (Flowchart.Grammar.document s.tokens.length s s.tokens).events

theorem complete_of_nests {kind : DiagramKind} {text : String} (h : Nests kind text limit) :
    (read kind text limit).complete := by
  cases kind with
  | flowchart =>
    have hdeep := mt (Flowchart.Grammar.exceeds_iff limit.depth (.ofText text)).mpr (h rfl)
    rw [read, readOn, Flowchart.Grammar.document_outcome hdeep]
    rfl
  | classDiagram =>
    rw [read, readOn, ClassDiagram.Grammar.document_outcome (Stream.kind_ne_eof text)]
    rfl

/-- All that is reported of a text is that something is missing. -/
theorem exists_unmet {kind : DiagramKind} {text : String} (h : (read kind text limit).complete) :
    ∀ d ∈ (parse kind text limit).diagnostics, ∃ m : Expectation, ∃ t, m.Listed ∧ d = m.unmetAt t := by
  cases kind with
  | flowchart =>
    have hnames := Flowchart.Grammar.names_document (s := .ofText text) limit.depth
    have hdone := Flowchart.Grammar.document_outcome (outcome_ne_tooDeep h)
    rw [parse_flowchart, diagnostics, Flowchart.ofStreamWithin, Flowchart.ofReply_of_done hdone,
      Flowchart.Draft.diagnostics_applyAll]
    exact Reporting.Names.exists_unmet hnames
  | classDiagram =>
    have hnames := ClassDiagram.Grammar.names_document.events (.ofText text) (Stream.ofText text).tokens
    have hdone := ClassDiagram.Grammar.document_outcome (Stream.kind_ne_eof text)
    rw [parse_classDiagram, diagnostics, ClassDiagram.parse, ClassDiagram.ofStream,
      ClassDiagram.ofReply_of_done hdone, ClassDiagram.diagnostics_applyAll]
    exact Reporting.Names.exists_unmet hnames

end Diagram

namespace CommandLine
open Text

/-- The line of a fault holds no character that would end it. -/
theorem legible_errorLine {m : Expectation} (h : m.Listed) (t : Token) :
    Legible (errorLine (m.unmetAt t)).toList := by
  simp only [errorLine, Diagnostic.text, Expectation.unmetAt, String.toList_append, legible_append]
  exact ⟨by decide, ⟨⟨⟨⟨by decide, Json.legible_toString _⟩, by decide⟩, Json.legible_toString _⟩, by decide⟩,
    h.legible⟩

/-- The text that a run reads: the standard input, or else a file. -/
def Options.Takes (o : Options) (stdin : String) (w : Workspace) (text : String) : Prop :=
  match o.input with
  | none => stdin = text
  | some name => w.read? name = some (.ok text.toUTF8)

/-- Whether a run can write: to the standard output, or to a file that there is or that can be made. -/
def Options.CanWrite (o : Options) (w : Workspace) : Prop :=
  ∀ name ∈ o.output, isPossibleName name ∧
    ∃ path, w.locate name = .ok (.file path) ∨ w.locate name = .ok (.vacant path)

/-- What a run leaves behind that shows a diagram as `out`. -/
structure Delivers (o : Options) (w : Workspace) (d : Diagram) (out : String) (report : Report) : Prop where
  rendered : d.render o.format = .ok out
  ending : report.ending = .exit (if o.strict ∧ d.diagnostics ≠ [] then 1 else 0)
  stderr : report.stderr = unlines (d.diagnostics.map fun e =>
    "parse error: line " ++ toString e.position.line ++ ", column " ++ toString e.position.column ++ ": " ++
      e.message)
  /-- So each fault takes one line, and not more. -/
  lines : ∀ e ∈ d.diagnostics, Legible (errorLine e).toList
  /-- A pipe loses the control sequences, which nothing has but titles. -/
  stdout : o.output = none → report.workspace = w ∧ report.stdout = plain out ∧
    ((o.format = .summary → ∀ title ∈ d.title?, Inert title) → report.stdout = out)
  file : ∀ name ∈ o.output, report.stdout = "" ∧ report.workspace.read? name = some (.ok out.toUTF8) ∧
    ∃ path, report.workspace.directories = w.directories ∧ ∀ other, report.workspace.files.lookup other =
      if other = path then some out.toUTF8 else w.files.lookup other

variable {o : Options} {args : List String} {stdin text : String} {w : Workspace} {limit : Flowchart.Limit}

theorem run_eq (hargs : Options.parse args = .ok o) (htext : o.Takes stdin w text) :
    run args stdin w limit = o.deliver (o.answer text limit) w := by
  rw [Options.Takes] at htext
  rw [run, hargs]
  dsimp only
  cases hinput : o.input with
  | none =>
    rw [hinput] at htext
    dsimp only at htext ⊢
    rw [htext]
  | some name =>
    have hbytes : String.fromUTF8? text.toUTF8 = some text := dif_pos text.isValidUTF8
    rw [hinput] at htext
    dsimp only at htext ⊢
    rw [htext]
    dsimp only
    rw [hbytes]

/-- Nothing is logged of a text that is read to its end. -/
theorem answer_eq (hverbose : o.verbose = false) (hcomplete : (Diagram.read o.kind text limit).complete) :
    let d := Diagram.parse o.kind text limit
    o.answer text limit =
      ⟨unlines (d.diagnostics.map errorLine), d.render o.format, !d.diagnostics.isEmpty⟩ := by
  intro d
  have hread : Diagram.read o.kind (String.ofList (unifyBreaks text.toList)) limit =
      Diagram.read o.kind text limit :=
    congrArg (fun s => (Diagram.readOn o.kind s limit).1) (Stream.ofText_unifyBreaks text)
  have hnone : (Diagram.read o.kind text limit).abandoned = none := Option.isNone_iff_eq_none.mp hcomplete
  rw [Options.answer, hread]
  simp only [logLines, hverbose, hnone, Bool.false_eq_true, if_false, Option.toList_none, List.map_nil,
    List.nil_append]
  rfl

theorem deliver_spec {d : Diagram} {out : String} (houtput : o.CanWrite w)
    (hrendered : d.render o.format = .ok out) (hunmet : ∀ e ∈ d.diagnostics, ∃ m : Expectation, ∃ t,
      m.Listed ∧ e = m.unmetAt t)
    (hinert : (o.format = .summary → ∀ title ∈ d.title?, Inert title) → Inert out) :
    Delivers o w d out (o.deliver
      ⟨unlines (d.diagnostics.map errorLine), .ok out, !d.diagnostics.isEmpty⟩ w) := by
  have hexit : ∀ notices output, o.exitCode ⟨notices, output, !d.diagnostics.isEmpty⟩ =
      if o.strict ∧ d.diagnostics ≠ [] then 1 else 0 := by
    intro notices output
    rw [Options.exitCode]
    exact if_congr (by simp) rfl rfl
  have hstderr : unlines (d.diagnostics.map errorLine) = unlines (d.diagnostics.map fun e =>
      "parse error: line " ++ toString e.position.line ++ ", column " ++ toString e.position.column ++ ": " ++
        e.message) := by
    refine congrArg unlines (List.map_congr_left fun e _ => ?_)
    simp only [errorLine, Diagnostic.text, ← String.append_assoc]
    rfl
  have hlines : ∀ e ∈ d.diagnostics, Legible (errorLine e).toList := by
    intro e he
    obtain ⟨m, t, hm, rfl⟩ := hunmet e he
    exact legible_errorLine hm t
  rw [Options.deliver]
  dsimp only
  cases hfile : o.output with
  | none =>
    refine ⟨hrendered, ?_, hstderr, hlines, fun _ => ⟨rfl, rfl, fun h => (hinert h).plain_eq_self⟩, ?_⟩
    · exact congrArg Ending.exit (hexit _ _)
    · rw [hfile]
      exact fun _ h => by cases h
  | some name =>
    obtain ⟨hpossible, path, hplace⟩ := houtput name hfile
    have hwritten : w.write name out.toUTF8 = .ok (w.put path out.toUTF8) := by
      rcases hplace with hplace | hplace
      · exact Workspace.write_iff.mpr ⟨_, path, hplace, rfl, rfl⟩
      · exact Workspace.write_iff.mpr ⟨_, path, hplace, rfl, rfl⟩
    obtain ⟨hread, hothers⟩ := Workspace.write_spec hwritten
    simp only [hpossible, Bool.not_true, Bool.false_eq_true, if_false, hwritten]
    refine ⟨hrendered, ?_, hstderr, hlines, fun h => ?_, fun other hother => ?_⟩
    · exact congrArg Ending.exit (hexit _ _)
    · rw [hfile] at h
      cases h
    · rw [hfile] at hother
      cases hother
      exact ⟨rfl, hread, hothers⟩

/-- Whatever the options are, there are arguments for them; and whatever the arguments, a run that is not
verbose shows the diagram of its text, if it is not nested too deeply, can be read, and the output can be
written. The diagram depends on neither the place of the text nor that of the output: to a file it is
written as it is rendered, and to a pipe without the control sequences that the title of a class diagram can
have. There is a line for each fault, in order, and the faults of a strict run show in its exit code. -/
theorem runs_deliver :
    (∀ o : Options, (∀ name ∈ o.input, isPossibleName name) → o.output ≠ some "" →
      Options.parse o.arguments = .ok o) ∧
    ∀ (args : List String) (o : Options) (stdin text : String) (w : Workspace) (limit : Flowchart.Limit),
      Options.parse args = .ok o → o.verbose = false → o.Takes stdin w text →
      Diagram.Nests o.kind text limit → o.CanWrite w →
      ∃ out, Delivers o w (Diagram.parse o.kind text limit) out (run args stdin w limit) := by
  refine ⟨fun o => Options.parse_arguments, ?_⟩
  intro args o stdin text w limit hargs hverbose htext hnests houtput
  have hcomplete := Diagram.complete_of_nests hnests
  obtain ⟨out, hrendered⟩ := Diagram.exists_render o.kind o.format text limit
  refine ⟨out, ?_⟩
  rw [run_eq hargs htext, answer_eq hverbose hcomplete, hrendered]
  exact deliver_spec houtput hrendered (Diagram.exists_unmet hcomplete) fun htitle =>
    Diagram.inert_render htitle hrendered

/-- One edge has no target. -/
def targetlessText : String := "flowchart TD\nA --> B\nA -->\n"

def targetlessFile : Workspace := .ofNames [("in.mmd", targetlessText.toUTF8)] []

theorem runs_deliver_targetlessText :
    let toPipe : Options := { strict := true }
    let toFile : Options := { strict := true, input := some "in.mmd", output := some "out" }
    let d := Diagram.parse .flowchart targetlessText
    Options.parse toFile.arguments = .ok toFile ∧
    (∃ out, Delivers toPipe targetlessFile d out (run ["--strict"] targetlessText targetlessFile)) ∧
    (∃ out, Delivers toFile targetlessFile d out
      (run ["in.mmd", "-o", "out", "--strict"] "" targetlessFile)) ∧
    d.diagnostics = [⟨"Expected node identifier after arrow", ⟨3, 6⟩⟩] ∧
    d.render .summary = .ok ("flowchart TD\nnodes: 2\nedges: 1\nsubgraphs: 0\nacyclic: yes\n" ++
      "  node A Rectangle 'A'\n  node B Rectangle 'B'\n  edge A -> B Solid/Normal\nerrors: 1\n") := by
  have hnests : Diagram.Nests .flowchart targetlessText {} := by
    refine fun _ => mt (Flowchart.Grammar.exceeds_iff _ _).mp ?_
    decide +kernel
  have hpossible : isPossibleName "in.mmd" ∧ isPossibleName "out" := by decide
  refine ⟨runs_deliver.1 _ (fun name hname => ?_) (by decide),
    runs_deliver.2 _ _ _ _ _ _ rfl rfl rfl hnests nofun,
    runs_deliver.2 _ _ _ _ _ _ rfl rfl rfl hnests fun name hname => ?_, ?_, ?_⟩
  · cases hname
    exact hpossible.1
  · cases hname
    exact ⟨hpossible.2, ["out"], .inr rfl⟩
  · decide +kernel
  · decide +kernel

/-- The title of a class diagram in red. -/
def colouredText : String := "classDiagram\ntitle \"\x1b[31mred\"\n"

theorem run_colouredText :
    Options.parse ["--type", "class"] = .ok { kind := .classDiagram } ∧
    (Diagram.parse .classDiagram colouredText).render .summary =
      .ok "classDiagram\ntitle: \x1b[31mred\nclasses: 0\nrelations: 0\nerrors: 0\n" ∧
    (run ["--type", "class"] colouredText ⟨[], []⟩).ending = .exit 0 ∧
    (run ["--type", "class"] colouredText ⟨[], []⟩).stdout =
      "classDiagram\ntitle: red\nclasses: 0\nrelations: 0\nerrors: 0\n" ∧
    (Diagram.parse .classDiagram colouredText).render .summary ≠
      .ok (run ["--type", "class"] colouredText ⟨[], []⟩).stdout := by
  refine ⟨rfl, ?_, ?_, ?_, ?_⟩
  · decide +kernel
  · decide +kernel
  · decide +kernel
  · decide +kernel

end CommandLine
end Mermaid
