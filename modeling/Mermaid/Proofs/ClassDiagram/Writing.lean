import Mermaid.ClassDiagram.Grammar
import Mermaid.Proofs.Grammar.Writing

/-! What the rules of the class diagram grammar write. The statements leave faults to their guard, and
only relations relate classes. -/
namespace Mermaid.ClassDiagram
open Rule

/-- The diagnostic that an event keeps. -/
def Event.diagnostic? : Event → Option Diagnostic
  | .fault d | .recovered d => some d
  | _ => none

/-- The title that an event gives the diagram. -/
def Event.title? : Event → Option String
  | .title text => some text
  | _ => none

/-- The relation that an event adds to the diagram. -/
def Event.relate? : Event → Option Relation
  | .relate r => some r
  | _ => none

namespace Grammar
variable {P : Event → Prop}

theorem writes_restText : Writes P (fun _ => True) restText := .bind .skipLine fun _ _ => .pure trivial

theorem writes_sourceCardinality : Writes P (fun _ => True) sourceCardinality := by
  refine .bind (.look _) fun given _ => ?_
  cases given with
  | true => exact .bind .advance fun _ _ => .pure trivial
  | false => exact .pure trivial

theorem writes_targetCardinality : Writes P (fun _ => True) targetCardinality := by
  refine .bind .nextKind fun k _ => ?_
  by_cases h : k = some .string
  · rw [if_pos h]
    exact .bind .advance fun _ _ => .pure trivial
  · rw [if_neg h]
    exact .pure trivial

theorem writes_header (hfault : ∀ d, P (.fault d)) : Writes P (fun _ => True) header := by
  refine .bind .skipBlankLines fun _ _ => .bind (.accept _) fun given _ => ?_
  cases given with
  | true => exact .silent fun _ _ => rfl
  | false => exact .bind (.unmet _) fun d _ => .emit (hfault d)

section
variable (hstereotype : ∀ owner text, P (.stereotype owner text)) (hmember : ∀ owner m, P (.member owner m))
include hstereotype hmember

theorem writes_member (owner : String) : Writes P (fun _ => True) (member owner) := by
  refine .bind (.take _) fun said _ => ?_
  cases said with
  | nothing => exact .pure trivial
  | stereotype text => exact .emit (hstereotype _ _)
  | member m => exact .emit (hmember _ _)

theorem writes_body (owner : String) : Writes P (fun _ => True) (body owner) :=
  .bind .skipBlankLines fun _ _ => .iterate (fun _ _ => .bind (.look _) fun _ _ =>
    .bind (writes_member hstereotype hmember owner) fun _ _ =>
      .bind (.progressPast _) fun _ _ => .skipBlankLines) trivial

end

theorem writes_title (h : ∀ text, P (.title text)) : Writes P (fun _ => True) title :=
  .bind .advance fun _ _ => .bind writes_restText fun _ _ => .emit (h _)

section
variable (hP : ∀ e, e.title? = none → e.diagnostic? = none → e.relate? = none → P e)
include hP

theorem writes_declaration : Writes P (fun _ => True) declaration := by
  refine .bind .advance fun _ _ => .bind (.expect _ _) fun name _ => .bind (.emit (hP _ rfl rfl rfl))
    fun _ _ => .bind .skipBlankLines fun _ _ => .bind (.accept _) fun opened _ => ?_
  cases opened with
  | true =>
    exact .bind (writes_body (fun _ _ => hP _ rfl rfl rfl) (fun _ _ => hP _ rfl rfl rfl) _) fun _ _ =>
      .bind (.expect _ _) fun _ _ => .pure trivial
  | false => exact .pure trivial

theorem writes_stereotype : Writes P (fun _ => True) stereotype :=
  .bind .advance fun _ _ => .bind (.take _) fun _ _ => .bind (.expect _ _) fun _ _ =>
    .bind (.emit (hP _ rfl rfl rfl)) fun _ _ => .emit (hP _ rfl rfl rfl)

/-- A class by its name writes about classes and members, and the relation that it is in. -/
theorem writes_relationOrReference (hrelate : ∀ r, P (.relate r)) :
    Writes P (fun _ => True) relationOrReference := by
  have hrelation : ∀ source cardinality type,
      Writes P (fun _ => True) (relation source cardinality type) := by
    intro source cardinality type
    refine .bind (.emit (hP _ rfl rfl rfl)) fun _ _ => .bind .advance fun _ _ => .bind (.take _) fun _ _ =>
      .bind writes_targetCardinality fun _ _ => .bind (.expect _ _) fun _ _ =>
        .bind (.emit (hP _ rfl rfl rfl)) fun _ _ => .bind (.accept _) fun given _ => ?_
    cases given with
    | true => exact .bind (.map _ writes_restText) fun _ _ => .emit (hrelate _)
    | false => exact .bind (.silent fun _ _ => rfl) fun _ _ => .emit (hrelate _)
  refine .bind .advance fun source _ => .bind writes_sourceCardinality fun cardinality _ =>
    .bind (.look _) fun given _ => ?_
  extract_lets last
  have hlast : ∀ u, Writes P (fun _ => True) (last u) := by
    refine fun u => .bind .nextKind fun k _ => ?_
    cases k.bind relation? with
    | some type => exact hrelation source cardinality type
    | none =>
      refine .bind (.accept _) fun withMember _ => .bind (.emit (hP _ rfl rfl rfl)) fun _ _ => ?_
      cases withMember with
      | true => exact writes_member (fun _ _ => hP _ rfl rfl rfl) (fun _ _ => hP _ rfl rfl rfl) _
      | false => exact .pure trivial
  cases given with
  | true => exact .bind .advance fun _ _ => hlast ()
  | false => exact hlast ()

theorem writes_statement (htitle : ∀ text, P (.title text)) (hrelate : ∀ r, P (.relate r)) :
    Writes P (fun _ => True) statement := by
  refine .bind .skipBlankLines fun _ _ => .bind .nextKind fun k _ => ?_
  split
  · exact .pure trivial
  · exact writes_title htitle
  · exact writes_declaration hP
  · exact writes_stereotype hP
  · exact writes_relationOrReference hP hrelate
  · exact .bind .advance fun _ _ => .pure trivial

end
end Grammar
end Mermaid.ClassDiagram
