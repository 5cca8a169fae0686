import Mermaid.Json.Basic
import Mermaid.Text.Quoted

/-!
JSON in ASCII, with one item or member a line and two spaces for each level of nesting.
-/
namespace Mermaid.Json
open Text

/-- A unit of UTF-16 as an escape. -/
def unit (n : Nat) : List Char := '\\' :: 'u' :: hexDigits 4 n

/-- A character of a string. Beyond the Basic Multilingual Plane it takes two units. -/
def escape (c : Char) : List Char :=
  match c with
  | '"' => ['\\', '"']
  | '\\' => ['\\', '\\']
  | '\n' => ['\\', 'n']
  | '\r' => ['\\', 'r']
  | '\t' => ['\\', 't']
  | '\x08' => ['\\', 'b']
  | '\x0c' => ['\\', 'f']
  | c =>
    let n := c.toNat
    if 0x20 ≤ n && n < 0x7f then [c]
    else if n < 0x10000 then unit n
    else unit (0xd800 + (n - 0x10000) / 0x400) ++ unit (0xdc00 + (n - 0x10000) % 0x400)

def string (s : String) : List Char := '"' :: s.toList.flatMap escape ++ ['"']

/-- A line break and the indentation of the next line. -/
def newline (level : Nat) : List Char := '\n' :: List.replicate (2 * level) ' '

/-- The lines between two brackets. -/
def enclose (start stop : Char) (level : Nat) (lines : List (List Char)) : List Char :=
  match lines with
  | [] => [start, stop]
  | line :: more =>
    start :: newline (level + 1) ++ line ++
      more.flatMap (fun l => ',' :: newline (level + 1) ++ l) ++ newline level ++ [stop]

mutual
/-- The text of a value that begins on a line of this level. -/
def print (level : Nat) : Json → List Char
  | null => "null".toList
  | bool true => "true".toList
  | bool false => "false".toList
  | int n => (toString n).toList
  | str s => string s
  | arr items => enclose '[' ']' level (printItems (level + 1) items)
  | obj fields => enclose '\x7b' '\x7d' level (printFields (level + 1) fields)

def printItems (level : Nat) : List Json → List (List Char)
  | [] => []
  | v :: items => print level v :: printItems level items

def printFields (level : Nat) : List (String × Json) → List (List Char)
  | [] => []
  | (key, v) :: fields => (string key ++ ':' :: ' ' :: print level v) :: printFields level fields
end

def render (v : Json) : String := String.ofList (print 0 v)

end Mermaid.Json
