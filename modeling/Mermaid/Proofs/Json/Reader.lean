import Mermaid.Json.Basic

/-!
JSON texts read back, with white space wherever the format has it and with every escape of it.
Numbers are whole, strings hold no half of a surrogate pair, and no name comes up twice in an object:
what goes beyond that is refused, as is what is no JSON.
-/
namespace Mermaid.Json

/-- White space between the parts of a text. -/
def isSpace (c : Char) : Bool := c == ' ' || c == '\t' || c == '\n' || c == '\r'

def skipSpaces (s : List Char) : List Char := s.dropWhile isSpace

def hexValue? (c : Char) : Option Nat :=
  if '0' ≤ c ∧ c ≤ '9' then some (c.toNat - '0'.toNat)
  else if 'a' ≤ c ∧ c ≤ 'f' then some (c.toNat - 'a'.toNat + 10)
  else if 'A' ≤ c ∧ c ≤ 'F' then some (c.toNat - 'A'.toNat + 10)
  else none

/-- Four hexadecimal digits, which give a unit of UTF-16. -/
def readUnit : List Char → Option (Nat × List Char)
  | a :: b :: c :: d :: s => do
    let digits ← [a, b, c, d].mapM hexValue?
    return (digits.foldl (16 * · + ·) 0, s)
  | _ => none

/-- The character behind `\u`; a unit that begins a surrogate pair needs the other one behind it. -/
def readCodePoint (s : List Char) : Option (Char × List Char) := do
  let (unit, s) ← readUnit s
  if unit < 0xd800 ∨ 0xe000 ≤ unit then return (Char.ofNat unit, s)
  match s with
  | '\\' :: 'u' :: s =>
    let (low, s) ← readUnit s
    if unit < 0xdc00 ∧ 0xdc00 ≤ low ∧ low < 0xe000 then
      return (Char.ofNat (0x10000 + (unit - 0xd800) * 0x400 + (low - 0xdc00)), s)
    else none
  | _ => none

/-- The characters that a backslash and one letter or mark stand for. -/
def escapes : List (Char × Char) := [
  ('"', '"'), ('\\', '\\'), ('/', '/'), ('b', '\x08'), ('f', '\x0c'), ('n', '\n'), ('r', '\r'),
  ('t', '\t')]

/-- One character of a string. -/
def readChar : List Char → Option (Char × List Char)
  | '\\' :: 'u' :: s => readCodePoint s
  | '\\' :: c :: s => (escapes.lookup c).map (·, s)
  | c :: s => if c = '"' ∨ c = '\\' ∨ c < ' ' then none else some (c, s)
  | [] => none

/-- The characters of a string up to its closing mark; `bound` is how many there can be. -/
def readChars : (bound : Nat) → List Char → Option (List Char × List Char)
  | 0, _ => none
  | bound + 1, s =>
    if s.head? = some '"' then some ([], s.tail)
    else do
      let (c, s) ← readChar s
      let (cs, s) ← readChars bound s
      return (c :: cs, s)

def readString : List Char → Option (String × List Char)
  | '"' :: s => (readChars s.length s).map fun (cs, s) => (String.ofList cs, s)
  | _ => none

/-- What makes a numeral longer, or gives it a fraction or an exponent. -/
def isNumeral (c : Char) : Bool := c.isDigit || c == '.' || c == 'e' || c == 'E'

/-- Digits without a needless zero before them. -/
def readNat (s : List Char) : Option (Nat × List Char) :=
  let digits := s.takeWhile Char.isDigit
  let rest := s.dropWhile Char.isDigit
  if digits = [] ∨ digits.head? = some '0' ∧ digits ≠ ['0'] ∨ rest.head?.any isNumeral then none
  else some (Nat.ofDigitChars 10 digits 0, rest)

def readInt : List Char → Option (Int × List Char)
  | '-' :: s => (readNat s).map fun (n, s) => (-n, s)
  | s => (readNat s).map fun (n, s) => (n, s)

section sequences
variable {α : Type} (stop : Char) (item : List Char → Option (α × List Char))

/-- Items with commas between them, and the bracket behind them. -/
def readItems : (bound : Nat) → List Char → Option (List α × List Char)
  | 0, _ => none
  | bound + 1, s => do
    let (a, s) ← item (skipSpaces s)
    match skipSpaces s with
    | [] => none
    | c :: s =>
      if c = stop then return ([a], s)
      else if c = ',' then
        let (as, s) ← readItems bound s
        return (a :: as, s)
      else none

/-- What stands behind the first of two brackets. -/
def readEnclosed (s : List Char) : Option (List α × List Char) :=
  if (skipSpaces s).head? = some stop then some ([], (skipSpaces s).tail)
  else readItems stop item s.length s

end sequences

/-- A name, a colon and a value. -/
def readField (value : List Char → Option (Json × List Char)) (s : List Char) :
    Option ((String × Json) × List Char) := do
  let (key, s) ← readString s
  match skipSpaces s with
  | ':' :: s =>
    let (v, s) ← value (skipSpaces s)
    return ((key, v), s)
  | _ => none

/-- A value, and what stands behind it; `bound` is how deep values can be nested in it. -/
def readValue : (bound : Nat) → List Char → Option (Json × List Char)
  | 0, _ => none
  | _, 'n' :: 'u' :: 'l' :: 'l' :: s => some (null, s)
  | _, 't' :: 'r' :: 'u' :: 'e' :: s => some (bool true, s)
  | _, 'f' :: 'a' :: 'l' :: 's' :: 'e' :: s => some (bool false, s)
  | _, '"' :: s => (readString ('"' :: s)).map fun (t, s) => (str t, s)
  | bound + 1, '[' :: s => do
    let (items, s) ← readEnclosed ']' (readValue bound) s
    return (arr items, s)
  | bound + 1, '\x7b' :: s => do
    let (fields, s) ← readEnclosed '\x7d' (readField (readValue bound)) s
    if (fields.map (·.1)).Nodup then return (obj fields, s) else none
  | _, s => (readInt s).map fun (n, s) => (int n, s)

/-- The value of a text. -/
def read? (text : String) : Option Json := do
  let (v, s) ← readValue text.length (skipSpaces text.toList)
  if skipSpaces s = [] then return v else none

end Mermaid.Json
