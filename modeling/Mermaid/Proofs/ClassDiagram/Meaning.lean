import Mermaid.ClassDiagram.Event
import Mermaid.Proofs.ClassDiagram.Statement

/-! What the statements of a class diagram add to it, and the events that add up to the same. -/
namespace Mermaid.ClassDiagram

def Marker.visibility : Marker → Visibility
  | plus => .publicly
  | minus => .privately
  | hash => .protectedly
  | tilde => .packaged

def TypeTerm.text (t : TypeTerm) : String := t.word.text ++ if t.isArray then "[]" else ""

namespace Tail

def isMethod : Tail → Bool
  | method _ _ => true
  | plain | typed _ _ => false

/-- The type behind a name: what a method returns, or the type of an attribute. -/
def type : Tail → Option String
  | plain | method _ [] => none
  | method _ (w :: ws) | typed w ws => some (wordsText (w :: ws))

end Tail

/-- The member that a line describes; a type behind the name counts more than one before it. -/
def MemberTerm.member (m : MemberTerm) : Member where
  name := m.name.text
  isMethod := m.tail.isMethod
  visibility := (m.marker.map (·.visibility)).getD .publicly
  type := m.tail.type.or (m.type.map (·.text))

/-- The relation that a link of this kind draws. -/
def relationOf : TokenKind → RelationType
  | .inheritance => .inheritance
  | .composition => .composition
  | .aggregation | .solidCircle => .aggregation
  | .realization => .realization
  | .dependency | .dottedArrow | .dottedLine | .dottedOpen | .dottedCross => .dependency
  | _ => .association

def RelationTerm.relation (r : RelationTerm) : Relation where
  source := r.source.text
  target := r.target.text
  type := relationOf r.link.kind
  label := r.label.map wordsText
  sourceCardinality := r.sourceCardinality.map (·.text)
  targetCardinality := r.targetCardinality.map (·.text)

def MemberText.add (owner : String) (d : ClassDiagram) : MemberText → ClassDiagram
  | stereotype ws => d.setStereotype owner (wordsText ws)
  | member m => d.addMember owner m.member

/-- Adds what a statement says that begins on line `n`. -/
def Statement.add (n : Int) (d : ClassDiagram) : Statement → ClassDiagram
  | title ws => { d with title := some (wordsText ws) }
  | declare name => d.declareClass name.text n
  | define name body => body.foldl (fun d line => line.text.add name.text d) (d.declareClass name.text n)
  | describe name text => text.add name.text (d.ensureClass name.text n)
  | annotate ws name => (d.ensureClass name.text n).setStereotype name.text (wordsText ws)
  | mention name => d.ensureClass name.text n
  | relate r => ((d.ensureClass r.source.text n).ensureClass r.target.text n).addRelation r.relation

/-- How many lines a statement takes. -/
def Statement.size : Statement → Nat
  | define _ body => body.length + 2
  | _ => 1

/-- Adds what the statements say, the first one beginning on line `n`. -/
def addAll (n : Int) (d : ClassDiagram) : List Statement → ClassDiagram
  | [] => d
  | s :: ss => addAll (n + s.size) (s.add n d) ss

/-- The diagram that a text means: its header is on the first line. -/
def diagramOf (ss : List Statement) : ClassDiagram := addAll 2 empty ss

section events

def MemberText.event (owner : String) : MemberText → Event
  | stereotype ws => .stereotype owner (wordsText ws)
  | member m => .member owner m.member

def Statement.events (n : Int) : Statement → List Event
  | title ws => [.title (wordsText ws)]
  | declare name => [.declare name.text n]
  | define name body => .declare name.text n :: body.map (·.text.event name.text)
  | describe name text => [.mention name.text n, text.event name.text]
  | annotate ws name => [.mention name.text n, .stereotype name.text (wordsText ws)]
  | mention name => [.mention name.text n]
  | relate r => [.mention r.source.text n, .mention r.target.text n, .relate r.relation]

def eventsOf (n : Int) : List Statement → List Event
  | [] => []
  | s :: ss => s.events n ++ eventsOf (n + s.size) ss

private theorem apply_event (owner : String) (d : ClassDiagram) (t : MemberText) :
    d.apply (t.event owner) = t.add owner d := by
  cases t <;> rfl

private theorem Statement.applyAll_events (n : Int) (d : ClassDiagram) (s : Statement) :
    d.applyAll (s.events n) = s.add n d := by
  cases s with
  | define name body =>
    rw [events, add, applyAll, List.foldl_cons, List.foldl_map]
    simp only [apply_event]
    rfl
  | describe name text => exact apply_event name.text _ text
  | _ => rfl

/-- The events of statements add up to what the statements do. -/
theorem applyAll_eventsOf (n : Int) (d : ClassDiagram) (ss : List Statement) :
    d.applyAll (eventsOf n ss) = addAll n d ss := by
  induction ss generalizing n d with
  | nil => rfl
  | cons s ss ih =>
    rw [eventsOf, applyAll, List.foldl_append, ← applyAll, ← applyAll, s.applyAll_events, ih, addAll]

end events

private theorem Statement.add_diagnostics (n : Int) (d : ClassDiagram) (s : Statement) :
    (s.add n d).diagnostics = d.diagnostics := by
  have htext : ∀ (owner : String) (d : ClassDiagram) (t : MemberText),
      (t.add owner d).diagnostics = d.diagnostics := by
    intro owner d t
    cases t <;> rfl
  cases s with
  | define name body =>
    have hbody : ∀ (body : List BodyLine) (d : ClassDiagram),
        (body.foldl (fun d line => line.text.add name.text d) d).diagnostics = d.diagnostics := by
      intro body
      induction body with
      | nil => exact fun _ => rfl
      | cons line body ih => exact fun d => (ih _).trans (htext name.text d line.text)
    exact hbody body _
  | describe name text => exact htext _ _ text
  | _ => rfl

theorem addAll_diagnostics (n : Int) (d : ClassDiagram) (ss : List Statement) :
    (addAll n d ss).diagnostics = d.diagnostics := by
  induction ss generalizing n d with
  | nil => rfl
  | cons s ss ih => rw [addAll, ih, s.add_diagnostics]

end Mermaid.ClassDiagram
