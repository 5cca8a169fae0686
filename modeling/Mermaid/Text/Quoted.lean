import Mermaid.Text.Printable

/-!
Text between quotes on one line. Apostrophes are the quotes, unless the text has an apostrophe
and no quotation mark; what would end or break the line is escaped.
-/
namespace Mermaid.Text

/-- The last `width` hexadecimal digits of `n`, in lower case, most significant first. -/
def hexDigits : Nat → Nat → List Char
  | 0, _ => []
  | width + 1, n => hexDigits width (n / 16) ++ [Nat.digitChar (n % 16)]

namespace Quoted

/-- The quote that a text is written between. -/
def mark (s : List Char) : Char :=
  if '\'' ∈ s && '"' ∉ s then '"' else '\''

/-- A character that is not printable, by the shortest of three widths that holds its code point. -/
def numeral (c : Char) : List Char :=
  if c.toNat < 0x100 then '\\' :: 'x' :: hexDigits 2 c.toNat
  else if c.toNat < 0x10000 then '\\' :: 'u' :: hexDigits 4 c.toNat
  else '\\' :: 'U' :: hexDigits 8 c.toNat

/-- One character of a text written between two `quote`s. -/
def escape (quote c : Char) : List Char :=
  if c = quote || c = '\\' then ['\\', c]
  else match c with
    | '\n' => ['\\', 'n']
    | '\r' => ['\\', 'r']
    | '\t' => ['\\', 't']
    | c => if isPrintable c then [c] else numeral c

def encode (s : List Char) : List Char :=
  mark s :: s.flatMap (escape (mark s)) ++ [mark s]

end Quoted

def quote (s : String) : String := String.ofList (Quoted.encode s.toList)

end Mermaid.Text
