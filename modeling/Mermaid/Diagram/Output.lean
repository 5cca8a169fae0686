import Mermaid.Diagram.Record
import Mermaid.Diagram.Summary
import Mermaid.Json.Printer

/-!
The text that a diagram is shown as.
-/
namespace Mermaid

inductive OutputFormat
  | summary | json
  deriving DecidableEq, Repr

def OutputFormat.named? : String → Option OutputFormat
  | "summary" => some .summary
  | "json" => some .json
  | _ => none

/-- The text of a diagram; every line of it ends with a line feed. -/
def Diagram.render (d : Diagram) : OutputFormat → Except Unresolved String
  | .json => .ok (d.record.render ++ "\n")
  | .summary => return String.join ((← d.summary).map (· ++ "\n"))

end Mermaid
