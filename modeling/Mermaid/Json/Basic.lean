/-!
JSON values. The members of an object stand in the order in which they are written.
-/
namespace Mermaid

inductive Json
  | null
  | bool (b : Bool)
  | int (n : Int)
  | str (s : String)
  | arr (items : List Json)
  | obj (fields : List (String × Json))
  deriving Repr

namespace Json

def strs (ss : List String) : Json := .arr (ss.map .str)

def strOrNull : Option String → Json
  | some s => .str s
  | none => .null

end Json

end Mermaid
