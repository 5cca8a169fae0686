import Mermaid.CommandLine.Options
import Mermaid.CommandLine.Workspace
import Mermaid.Text.Transfer

/-!
A run of the program: it reads a diagram text, says what is wrong with it, and shows the diagram.
-/
namespace Mermaid.CommandLine

/-- Numbers with what they count. -/
def tally (counts : List (Nat × String)) : String :=
  ", ".intercalate (counts.map fun (n, what) => toString n ++ " " ++ what)

/-- How a reading went, for the log. -/
def outcomeLine (r : Reading) : String :=
  match r.abandoned, r.diagram with
  | some d, _ => "WARNING mermaid_syntax.parsers.base: " ++ d.message
  | none, .flowchart c =>
    "DEBUG mermaid_syntax.parsers.flowchart: Parsed flowchart: " ++
      tally [(c.nodes.entries.length, "nodes"), (c.edges.length, "edges"),
        (c.diagnostics.length, "errors")]
  | none, .classDiagram d =>
    "DEBUG mermaid_syntax.parsers.class_diagram: Parsed class diagram: " ++
      tally [(d.classes.entries.length, "classes"), (d.relations.length, "relations"),
        (d.diagnostics.length, "errors")]

def describe : Diagram → String
  | .flowchart _ => "flowchart"
  | .classDiagram _ => "class diagram"

/-- The log of a reading. Without `verbose` it holds nothing but the failure to reach the end. -/
def logLines (verbose : Bool) (r : Reading) : List String :=
  if verbose then
    r.recoveries.map (fun d => "DEBUG mermaid_syntax.parsers.base: Recovering from " ++
      describe r.diagram ++ " parse error at " ++ d.text) ++ [outcomeLine r]
  else r.abandoned.toList.map (·.message)

def errorLine (d : Diagnostic) : String := "parse error: " ++ d.text

def unlines (lines : List String) : String := String.join (lines.map (· ++ "\n"))

/-- What the program has to say about a text. -/
structure Answer where
  /-- The log and the diagnostics, for the standard error. -/
  notices : String
  output : Except Unresolved String
  faulty : Bool

def Options.answer (o : Options) (text : String) (limit : Flowchart.Limit := {}) : Answer :=
  let r := Diagram.read o.kind (String.ofList (Text.unifyBreaks text.toList)) limit
  { notices := unlines (logLines o.verbose r ++ r.diagram.diagnostics.map errorLine)
    output := r.diagram.render o.format
    faulty := !r.diagram.diagnostics.isEmpty }

/-- The exit code once the output is written. -/
def Options.exitCode (o : Options) (a : Answer) : Nat := if o.strict && a.faulty then 1 else 0

def cannotRead (name reason : String) : String :=
  "error: cannot read '" ++ name ++ "': " ++ reason ++ "\n"

def cannotWrite (name reason : String) : String :=
  "error: cannot write '" ++ name ++ "': " ++ reason ++ "\n"

inductive Ending
  | exit (code : Nat)
  /-- The arguments make no sense, or name an input that is missing. -/
  | usage
  /-- The input is not UTF-8. -/
  | notText
  /-- A name holds a character that the name of a file cannot hold. -/
  | impossibleName
  | unresolved (e : Unresolved)
  deriving DecidableEq, Repr

/-- What a run leaves behind. Its two streams are no terminals. -/
structure Report where
  ending : Ending
  stdout : String
  stderr : String
  workspace : Workspace

/-- Sends the output where it belongs. -/
def Options.deliver (o : Options) (a : Answer) (w : Workspace) : Report :=
  match a.output with
  | .error e => ⟨.unresolved e, "", a.notices, w⟩
  | .ok text => match o.output with
    | none => ⟨.exit (o.exitCode a), Text.plain text, a.notices, w⟩
    | some name =>
      if !isPossibleName name then ⟨.impossibleName, "", a.notices, w⟩
      else match w.write name text.toUTF8 with
        | .ok w => ⟨.exit (o.exitCode a), "", a.notices, w⟩
        | .error f =>
          ⟨.exit 1, "", a.notices ++ Text.plain (cannotWrite name (f.message name)), w⟩

/-- A run of the program. -/
def run (args : List String) (stdin : String) (w : Workspace) (limit : Flowchart.Limit := {}) : Report :=
  match Options.parse args with
  | .error .usage => ⟨.usage, "", "", w⟩
  | .error .impossibleName => ⟨.impossibleName, "", "", w⟩
  | .ok o => match o.input with
    | none => o.deliver (o.answer stdin limit) w
    | some name => match w.read? name with
      | none => ⟨.usage, "", "", w⟩
      | some (.error f) => ⟨.exit 1, "", Text.plain (cannotRead name (f.message name)), w⟩
      | some (.ok bytes) => match String.fromUTF8? bytes with
        | none => ⟨.notText, "", "", w⟩
        | some text => o.deliver (o.answer text limit) w

end Mermaid.CommandLine
