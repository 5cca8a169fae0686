import Mermaid.ClassDiagram.Event
import Mermaid.ClassDiagram.Member

/-!
The grammar of class diagrams, and the diagram of a text.
-/
namespace Mermaid.ClassDiagram

/-- The relation that a link stands for. -/
def relation? : TokenKind → Option RelationType
  | .inheritance => some .inheritance
  | .composition => some .composition
  | .aggregation | .solidCircle => some .aggregation
  | .realization => some .realization
  | .dependency | .dottedArrow | .dottedLine | .dottedOpen | .dottedCross => some .dependency
  | .solidArrow | .solidLine | .solidLink | .dashedLink | .solidOpen | .solidCross | .thickArrow
  | .thickLine | .invisibleLink => some .association
  | _ => none

/-- What is left of a link with two heads, such as `<|--|>`, beside the link in its midst. -/
def isFragment : TokenKind → Bool
  | .pipe | .greater | .less | .asterisk => true
  | _ => false

namespace Grammar
open Rule

/-- The words of a text that runs to the end of the line, without a comment. -/
def restText : Rule Event String := do
  let words := (← skipLine).filter (·.kind != .comment)
  return Text.joinWords (words.map (·.lexeme))

def title : Rule Event Unit := do
  let _ ← advance
  emit (.title (← restText))

/-- One line of the body of a class. -/
def member (owner : String) : Rule Event Unit := do
  match ← take MemberLine.read with
  | .nothing => return
  | .stereotype text => emit (.stereotype owner text)
  | .member m => emit (.member owner m)

/-- The members up to a closing brace, the declaration of another class, or the end of the text. -/
def body (owner : String) : Rule Event Unit := do
  skipBlankLines
  iterate (fun t => t.kind != .closeCurly && t.kind != .classWord) (fun _ => do
    let before ← look List.length
    member owner
    progressPast before
    skipBlankLines) ()

/-- A declared class, with the members in its braces. -/
def declaration : Rule Event Unit := do
  let _ ← advance
  let name ← expect .identifier .className
  emit (.declare name.lexeme name.position.line)
  skipBlankLines
  if ← accept .openCurly then
    body name.lexeme
    let _ ← expect .closeCurly .classEnd

/-- A stereotype before the class that it describes. -/
def stereotype : Rule Event Unit := do
  let _ ← advance
  let text ← take MemberLine.stereotypeText
  let name ← expect .identifier .stereotypedClass
  emit (.mention name.lexeme name.position.line)
  emit (.stereotype name.lexeme text)

/-- Whether a token of this class comes next, and a link right behind it. -/
def beforeLink (inClass : TokenKind → Bool) : List Token → Bool
  | t :: u :: _ => inClass t.kind && (relation? u.kind).isSome
  | _ => false

/-- A string before a link. -/
def sourceCardinality : Rule Event (Option String) := do
  if ← look (beforeLink (· == .string)) then return some (← advance).lexeme else return none

def targetCardinality : Rule Event (Option String) := do
  if (← nextKind) = some .string then return some (← advance).lexeme else return none

/-- A relation, from its link on. -/
def relation (source : Token) (cardinality : Option String) (type : RelationType) :
    Rule Event Unit := do
  emit (.mention source.lexeme source.position.line)
  let _ ← advance
  let _ ← take fun ts => ((), ts.dropWhile (isFragment ·.kind))
  let targetCardinality ← targetCardinality
  let target ← expect .identifier .relatedClass
  emit (.mention target.lexeme target.position.line)
  let label ← if ← accept .colon then some <$> restText else pure none
  emit (.relate {
    source := source.lexeme
    target := target.lexeme
    type, label, targetCardinality
    sourceCardinality := cardinality })

/-- A class by its name: in a relation, with a member behind a colon, or alone. -/
def relationOrReference : Rule Event Unit := do
  let source ← advance
  let cardinality ← sourceCardinality
  if ← look (beforeLink isFragment) then let _ ← advance
  match (← nextKind).bind relation? with
  | some type => relation source cardinality type
  | none =>
    let withMember ← accept .colon
    emit (.mention source.lexeme source.position.line)
    if withMember then member source.lexeme

def statement : Rule Event Unit := do
  skipBlankLines
  match ← nextKind with
  | none => return
  | some .title => title
  | some .classWord => declaration
  | some .openGuillemet => stereotype
  | some .identifier => relationOrReference
  | some _ => let _ ← advance

def header : Rule Event Unit := do
  skipBlankLines
  if ← accept .classDiagram then return
  else emit (.fault (← unmet .classDiagramHeader))

def document : Rule Event Unit := do
  header
  block statement none

end Grammar

/-- The diagram of a reply. Nothing in the grammar is nested, so no reason is given for an overflow. -/
def ofReply (r : Reply Event Unit) : ClassDiagram :=
  let d := empty.applyAll r.events
  match r.outcome.abandoned? "class diagram" none with
  | none => d
  | some e => d.report e

/-- A document that is read to its end is what its events build. -/
theorem ofReply_of_done {r : Reply Event Unit} (h : r.outcome = .done ()) :
    ofReply r = empty.applyAll r.events := by
  rw [ofReply, h]
  rfl

def ofStream (s : Stream) : ClassDiagram := ofReply (Grammar.document s s.tokens)

def parse (text : String) : ClassDiagram := ofStream (.ofText text)

end Mermaid.ClassDiagram
