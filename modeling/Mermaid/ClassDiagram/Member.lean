import Mermaid.ClassDiagram.Basic
import Mermaid.Text.Blank
import Mermaid.Token.Basic

/-!
The members of a class. One line can hold several: a visibility marker begins the next one.
-/
namespace Mermaid.ClassDiagram

/-- Whether a name or a type can come next. -/
def wordNext (ts : List Token) : Bool := ts.head?.any (·.isWord)

/-- What the tokens of a class body say next. -/
inductive MemberLine
  | nothing
  | stereotype (text : String)
  | member (m : Member)
  deriving DecidableEq, Repr

namespace MemberLine

/-- Whether a member ends here: at the end of the line or of the class, or where a marker begins
the next member. A hyphen is a marker only before a word. -/
def ends : List Token → Bool
  | [] => true
  | t :: ts => match t.kind with
    | .newline | .closeCurly | .plus | .hash | .tilde => true
    | .minus => wordNext ts
    | _ => false

theorem ends_newline {close : Token} (h : close.kind = .newline) (ts : List Token) :
    ends (close :: ts) = true := by
  simp [ends, h]

/-- The tokens up to the end of a member. -/
def rest : List Token → List Token × List Token
  | [] => ([], [])
  | t :: ts =>
    if ends (t :: ts) then ([], t :: ts)
    else let (taken, left) := rest ts; (t :: taken, left)

/-- How many parentheses a token opens, less those that it closes. -/
def depth : TokenKind → Int
  | .openRound | .openRoundSquare | .openSquareRound => 1
  | .openDoubleRound => 2
  | .openTripleRound => 3
  | .closeRound | .closeSquareRound | .closeRoundSquare => -1
  | .closeDoubleRound => -2
  | .closeTripleRound => -3
  | _ => 0

/-- The tokens behind the parenthesis that closes the `opened` ones, or from the end of the line
or of the class on. -/
def pastParameters (opened : Int) : List Token → List Token
  | [] => []
  | t :: ts =>
    if t.kind = .newline || t.kind = .closeCurly then t :: ts
    else if opened + depth t.kind ≤ 0 then ts
    else pastParameters (opened + depth t.kind) ts

/-- The text of a stereotype, up to its closing mark or the end of the line. -/
def stereotypeText (ts : List Token) : String × List Token :=
  let (words, left) := ts.span fun t => t.kind != .closeGuillemet && t.kind != .newline
  (" ".intercalate (words.map (·.lexeme)), match left with
    | t :: more => if t.kind = .closeGuillemet then more else left
    | [] => [])

/-- The visibility that a marker gives; none for a hyphen that is not a marker. -/
def visibility : List Token → Option (Visibility × List Token)
  | [] => some (.publicly, [])
  | t :: ts => match t.kind with
    | .plus => some (.publicly, ts)
    | .hash => some (.protectedly, ts)
    | .tilde => some (.packaged, ts)
    | .minus => if wordNext ts then some (.privately, ts) else none
    | _ => some (.publicly, t :: ts)

/-- The brackets of an array type. -/
def brackets : List Token → String × List Token
  | t :: u :: ts =>
    if t.kind = .openSquare && u.kind = .closeSquare then ("[]", ts) else ("", t :: u :: ts)
  | ts => ("", ts)

/-- The type before a name. A word that no other word follows is the name itself. -/
def leadingType : List Token → Option String × List Token
  | [] => (none, [])
  | t :: ts =>
    let (suffix, left) := brackets ts
    if t.isWord && wordNext left then (some (t.lexeme ++ suffix), left) else (none, t :: ts)

/-- What parentheses behind a name say: that it is a method, and what it returns. -/
def parameters : List Token → Option (Option String) × List Token
  | [] => (none, [])
  | t :: ts =>
    if t.kind = .openRound then
      let left := pastParameters 1 ts
      if wordNext left then
        let (words, left) := rest left
        (some (some (" ".intercalate (words.map (·.lexeme)))), left)
      else (some none, left)
    else (none, t :: ts)

/-- The words of a type behind a colon; whether a parenthesis ends them, as for a method. -/
def typeWords : List Token → List String × Bool × List Token
  | [] => ([], false, [])
  | t :: ts =>
    if ends (t :: ts) then ([], false, t :: ts)
    else if t.kind = .openRound then ([], true, t :: ts)
    else let (words, method, left) := typeWords ts; (t.lexeme :: words, method, left)

/-- The type behind a colon, if a colon comes next. -/
def trailingType : List Token → Option String × Bool × List Token
  | [] => (none, false, [])
  | t :: ts =>
    if t.kind = .colon then
      let (words, method, left) := typeWords ts
      (if words = [] then none else some (Text.joinWords words), method, left)
    else (none, false, t :: ts)

/-- A member from its name on, with the type that was read before the name. -/
def named (visibility : Visibility) (type : Option String) (name : Token) (ts : List Token) :
    Member × List Token :=
  let (returned, ts) := parameters ts
  let (declared, method, ts) := trailingType ts
  ({ name := name.lexeme, visibility
     isMethod := returned.isSome || method
     type := (declared.or (returned.getD none)).or type }, (rest ts).2)

/-- A member or a stereotype. Where neither is found, a marker is taken all the same, unless it is
a hyphen. -/
def read (ts : List Token) : MemberLine × List Token :=
  match ts with
  | t :: more =>
    if t.kind = .openGuillemet then
      let (text, left) := stereotypeText more
      (.stereotype text, left)
    else match visibility (t :: more) with
      | none => (.nothing, t :: more)
      | some (v, left) =>
        let (type, left) := leadingType left
        match left with
        | name :: left =>
          if name.isWord then
            let (m, left) := named v type name left
            (.member m, left)
          else (.nothing, name :: left)
        | [] => (.nothing, [])
  | [] => (.nothing, [])

end MemberLine
end Mermaid.ClassDiagram
