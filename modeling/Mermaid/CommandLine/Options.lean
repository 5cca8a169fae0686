import Mermaid.Diagram.Output

/-!
The options of the command line. A setting takes a value, a flag takes none; of several values
for a setting the last one counts.
-/
namespace Mermaid.CommandLine

inductive Setting
  | kind | format | output
  deriving DecidableEq, Repr

inductive Flag
  | strict | verbose
  deriving DecidableEq, Repr

inductive Switch
  | setting (s : Setting)
  | flag (f : Flag)
  deriving DecidableEq, Repr

def Switch.long? : String → Option Switch
  | "--type" => some (.setting .kind)
  | "--format" => some (.setting .format)
  | "--output" => some (.setting .output)
  | "--strict" => some (.flag .strict)
  | "--verbose" => some (.flag .verbose)
  | _ => none

def Switch.short? : Char → Option Switch
  | 't' => some (.setting .kind)
  | 'f' => some (.setting .format)
  | 'o' => some (.setting .output)
  | 'v' => some (.flag .verbose)
  | _ => none

/-- What one argument gives: flags, and then perhaps a setting, whose value is the rest of the
argument or else the next one. -/
structure Given where
  flags : List Flag
  setting : Option (Setting × Option String)
  deriving DecidableEq, Repr

/-- The letters behind one hyphen. -/
def Given.ofLetters? : List Char → Option Given
  | [] => some ⟨[], none⟩
  | c :: cs => match Switch.short? c with
    | none => none
    | some (.flag f) => (ofLetters? cs).map fun g => { g with flags := f :: g.flags }
    | some (.setting s) => some ⟨[], some (s, if cs = [] then none else some (String.ofList cs))⟩

/-- A long option, with a value behind an equals sign or none, or else letters. -/
def Given.ofOption? (arg : List Char) : Option Given :=
  let name := String.ofList (arg.takeWhile (· != '='))
  let value := if '=' ∈ arg then some (String.ofList ((arg.dropWhile (· != '=')).drop 1)) else none
  match Switch.long? name, value with
  | some (.setting s), value => some ⟨[], some (s, value)⟩
  | some (.flag f), none => some ⟨[f], none⟩
  | some (.flag _), some _ => none
  | none, _ => match arg with
    | '-' :: '-' :: _ => none
    | _ => ofLetters? (arg.drop 1)

/-- The values of all options as they are given, and the arguments that belong to none. -/
structure Arguments where
  kind : String := "flowchart"
  format : String := "summary"
  output : Option String := none
  strict : Bool := false
  verbose : Bool := false
  inputs : List String := []
  deriving DecidableEq, Repr

namespace Arguments

def set (a : Arguments) (value : String) : Setting → Arguments
  | .kind => { a with kind := value }
  | .format => { a with format := value }
  | .output => { a with output := some value }

def raise (a : Arguments) : Flag → Arguments
  | .strict => { a with strict := true }
  | .verbose => { a with verbose := true }

/-- Whether an argument is an option; a lone hyphen is not. -/
def isOption : List Char → Bool
  | '-' :: _ :: _ => true
  | _ => false

/-- Reads the arguments one by one; behind `--` there are no options. -/
def read? (a : Arguments) : List String → Option Arguments
  | [] => some a
  | arg :: args =>
    if arg = "--" then some { a with inputs := a.inputs ++ args }
    else if !isOption arg.toList then read? { a with inputs := a.inputs ++ [arg] } args
    else match Given.ofOption? arg.toList with
      | none => none
      | some ⟨flags, none⟩ => read? (flags.foldl raise a) args
      | some ⟨flags, some (s, some value)⟩ => read? ((flags.foldl raise a).set value s) args
      | some ⟨flags, some (s, none)⟩ => match args with
        | [] => none
        | value :: args => read? ((flags.foldl raise a).set value s) args

end Arguments

structure Options where
  kind : DiagramKind := .flowchart
  format : OutputFormat := .summary
  strict : Bool := false
  verbose : Bool := false
  /-- The file to write; none for the standard output. -/
  output : Option String := none
  /-- The file to read; none for the standard input. -/
  input : Option String := none
  deriving DecidableEq, Repr

/-- Why arguments are refused. -/
inductive Refusal
  | usage
  /-- The input has a name that no file can have. -/
  | impossibleName
  deriving DecidableEq, Repr

/-- Whether a file can have this name, as far as its characters go. -/
def isPossibleName (name : String) : Bool := '\x00' ∉ name.toList

namespace Arguments

/-- The one input, if there is any. -/
def input (a : Arguments) : Except Refusal (Option String) :=
  match a.inputs with
  | [] => .ok none
  | name :: more =>
    if !isPossibleName name then .error .impossibleName
    else if more = [] then .ok (some name)
    else .error .usage

def options? (a : Arguments) : Option Options := do
  return {
    kind := ← (DiagramKind.named a.kind).toOption
    format := ← OutputFormat.named? a.format
    strict := a.strict
    verbose := a.verbose
    output := a.output.filter (· ≠ "") }

end Arguments

/-- The options that some arguments give. -/
def Options.parse (args : List String) : Except Refusal Options :=
  match Arguments.read? {} args with
  | none => .error .usage
  | some a => match a.options? with
    | none => .error .usage
    | some o => a.input.map fun input => { o with input }

end Mermaid.CommandLine
