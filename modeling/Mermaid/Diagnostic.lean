import Mermaid.Token.Basic

/-!
What a diagram text can lack, and the diagnostics that say so and where.
-/
namespace Mermaid

structure Diagnostic where
  message : String
  position : Position
  deriving DecidableEq, Repr

def Diagnostic.text (d : Diagnostic) : String :=
  "line " ++ toString d.position.line ++ ", column " ++ toString d.position.column ++ ": " ++
    d.message

/-- The diagnostic of a document that could not be read to its end, with the reason where one is given. -/
def Diagnostic.abandoned (what : String) (reason : Option String) : Diagnostic :=
  ⟨"Failed to parse " ++ what ++ reason.elim "" (": " ++ ·), ⟨1, 1⟩⟩

/-- What should have come next. -/
inductive Expectation
  | flowchartHeader | classDiagramHeader
  | arrow | linkTarget | labelEnd | shapeEnd (closer : String)
  | subgraphName | subgraphEnd | styledNode | styleName | assignedNode | furtherNode
  | className | classEnd | stereotypedClass | relatedClass
  /-- Something that the reader of the tokens says in its own words. -/
  | other (message : String)
  deriving DecidableEq, Repr

namespace Expectation

def message : Expectation → String
  | flowchartHeader => "Expected 'flowchart'"
  | classDiagramHeader => "Expected 'classDiagram'"
  | arrow => "Expected arrow"
  | linkTarget => "Expected node identifier after arrow"
  | labelEnd => "Expected '|' after edge label"
  | shapeEnd closer => "Expected '" ++ closer ++ "'"
  | subgraphName => "Expected subgraph identifier"
  | subgraphEnd => "Expected 'end' to close subgraph"
  | styledNode => "Expected identifier after 'style'"
  | styleName | className => "Expected class name"
  | assignedNode => "Expected node identifier after 'class'"
  | furtherNode => "Expected node identifier after ','"
  | classEnd => "Expected '\x7d'"
  | stereotypedClass => "Expected class name after annotation"
  | relatedClass => "Expected target class name"
  | other message => message

/-- The diagnostic of an expectation that a token does not meet. -/
def unmetAt (e : Expectation) (t : Token) : Diagnostic := ⟨e.message, t.position⟩

end Expectation
end Mermaid
