import Mermaid.CommandLine.Options

/-! All options can be asked for. -/
namespace Mermaid

def OutputFormat.name : OutputFormat → String
  | .summary => "summary"
  | .json => "json"

namespace CommandLine

def Setting.long : Setting → String
  | kind => "--type"
  | format => "--format"
  | output => "--output"

def Flag.long : Flag → String
  | strict => "--strict"
  | verbose => "--verbose"

namespace Arguments
variable {a : Arguments} {args : List String}

theorem read?_setting (s : Setting) (value : String) :
    a.read? (s.long :: value :: args) = (a.set value s).read? args := by
  have hgiven : s.long ≠ "--" ∧ isOption s.long.toList = true ∧
      Given.ofOption? s.long.toList = some ⟨[], some (s, none)⟩ := by
    cases s <;> decide
  obtain ⟨hdashes, hoption, hgiven⟩ := hgiven
  simp [read?, hdashes, hoption, hgiven]

theorem read?_flag (f : Flag) : a.read? (f.long :: args) = (a.raise f).read? args := by
  have hgiven : f.long ≠ "--" ∧ isOption f.long.toList = true ∧
      Given.ofOption? f.long.toList = some ⟨[f], none⟩ := by
    cases f <;> decide
  obtain ⟨hdashes, hoption, hgiven⟩ := hgiven
  simp [read?, hdashes, hoption, hgiven]

theorem read?_rest : a.read? ("--" :: args) = some { a with inputs := a.inputs ++ args } := by
  rw [read?, if_pos rfl]

end Arguments

/-- Arguments for all the options, each by its long name. -/
def Options.arguments (o : Options) : List String :=
  Setting.kind.long :: o.kind.name :: Setting.format.long :: o.format.name ::
    ((if o.strict then [Flag.strict.long] else []) ++ (if o.verbose then [Flag.verbose.long] else []) ++
      o.output.toList.flatMap (fun name => [Setting.output.long, name]) ++ "--" :: o.input.toList)

open Arguments in
/-- Whatever the options, there are arguments for them. -/
theorem Options.parse_arguments {o : Options} (hinput : ∀ name ∈ o.input, isPossibleName name)
    (houtput : o.output ≠ some "") : Options.parse o.arguments = .ok o := by
  obtain ⟨kind, format, strict, verbose, output, input⟩ := o
  have hread : Arguments.read? {} (Options.arguments ⟨kind, format, strict, verbose, output, input⟩) =
      some ⟨kind.name, format.name, output, strict, verbose, input.toList⟩ := by
    cases strict <;> cases verbose <;> cases output <;>
      simp [arguments, read?_setting, read?_flag, read?_rest, Arguments.set, Arguments.raise]
  have hkind : (DiagramKind.named kind.name).toOption = some kind := by
    cases kind <;> decide
  have hformat : OutputFormat.named? format.name = some format := by
    cases format <;> decide
  have hfilter : output.filter (· ≠ "") = output := by
    cases output <;> simp_all
  have hinput' : Arguments.input ⟨kind.name, format.name, output, strict, verbose, input.toList⟩ =
      .ok input := by
    cases input with
    | none => rfl
    | some name => simp [Arguments.input, hinput name rfl]
  simp only [Options.parse, hread, Arguments.options?, hkind, hformat, hfilter]
  rw [Option.bind_eq_bind]
  simp [hinput', Except.map]

end CommandLine
end Mermaid
