import Mermaid.Proofs.Flowchart.Progress
import Mermaid.Proofs.Grammar.Missing

/-! What the statements of a flowchart find missing. The end of a subgraph is missing to subgraphs only,
and no other diagnostic is worded like that one. -/
namespace Mermaid.Flowchart.Grammar
open Rule

/-- Is not worded like the missing end of a subgraph. -/
def UnlikeEnd (m : Expectation) : Prop := m.message ≠ Expectation.subgraphEnd.message

instance (m : Expectation) : Decidable (UnlikeEnd m) := inferInstanceAs (Decidable (_ ≠ _))

theorem legible_closer {k : TokenKind} {shape : NodeShape} {closer : Closer}
    (h : shape? k = some (shape, closer)) : Text.Legible closer.text.toList := by
  cases k <;> cases h <;> decide

/-- A missing delimiter is quoted at the very end. -/
private theorem unlikeEnd_shapeEnd (closer : String) : UnlikeEnd (.shapeEnd closer) := by
  intro h
  have htext : (Expectation.shapeEnd closer).message.toList =
      ("Expected '" ++ closer).toList ++ ['\''] := String.toList_append
  have hlast := congrArg (·.toList.getLast?) h
  rw [htext, List.getLast?_concat] at hlast
  cases hlast

theorem unlikeEnd_of_listed (m : Expectation) (h : m.Listed) (hne : m ≠ .subgraphEnd) : UnlikeEnd m := by
  cases m with
  | other _ => exact h.elim
  | subgraphEnd => exact absurd rfl hne
  | shapeEnd closer => exact unlikeEnd_shapeEnd closer
  | _ => decide

section
variable {Q : Expectation → Prop} (hQ : ∀ m : Expectation, m.Listed → m ≠ .subgraphEnd → Q m)
include hQ

theorem misses_node (id : Token) : Misses Q (node id) := by
  refine .bind .nextKind fun k => ?_
  cases hshape : k.bind shape? with
  | none => exact .bind (.emit _) fun _ => .pure _
  | some shape =>
    obtain ⟨kind, -, hkind⟩ := Option.bind_eq_some_iff.mp hshape
    refine .bind .advance fun _ => .bind (.take _) fun (_, closed) => ?_
    cases closed with
    | true => exact .bind (.emit _) fun _ => .pure _
    | false => exact .bind (.fail (hQ _ (legible_closer hkind) nofun)) fun _ => .pure _

theorem misses_edgeLabel : Misses Q edgeLabel := by
  refine .bind (.of_sure (.accept _)) fun given => ?_
  cases given with
  | true => exact .bind (.take _) fun _ => .bind (.expect (hQ _ trivial nofun)) fun _ => .pure _
  | false => exact .pure _

theorem misses_link (source : String) : Misses Q (link source) := by
  refine .bind .advance fun t => ?_
  cases arrow? t.kind with
  | none => exact .pure _
  | some arrow =>
    exact .bind (misses_edgeLabel hQ) fun _ => .bind (.expect (hQ _ trivial nofun)) fun _ =>
      .bind (misses_node hQ _) fun _ => .bind (.emit _) fun _ => .pure _

theorem misses_nodeOrEdge : Misses Q nodeOrEdge := by
  have hlinks : ∀ source, Misses Q (links source) := fun source => .iterate (misses_link hQ) source
  refine .bind .advance fun _ => .bind (misses_node hQ _) fun source => .bind .nextKind fun k => ?_
  by_cases h : k = some .solidLink
  · rw [if_pos h]
    exact .bind (.fail (hQ _ trivial nofun)) fun _ => .bind (hlinks _) fun _ => .pure _
  · rw [if_neg h]
    exact .bind (hlinks _) fun _ => .pure _

theorem misses_subgraphTitle (id : String) : Misses Q (subgraphTitle id) := by
  refine .bind .nextKind fun k => ?_
  split
  · exact .pure _
  · exact .pure _
  · exact .bind .advance fun _ => .pure _
  · refine .bind .advance fun _ => .bind (.take _) fun (_, closed) => ?_
    cases closed with
    | true => exact .pure _
    | false => exact .fail (hQ (.shapeEnd Closer.square.text) (legible_closer (k := .openSquare) rfl) nofun)
  · exact .bind .skipLine fun _ => .pure _

theorem misses_subgraphHead : Misses Q subgraphHead := by
  refine .bind .advance fun _ => .bind (.expect (hQ _ trivial nofun)) fun id =>
    .bind (misses_subgraphTitle hQ _) fun title => .bind .skipBlankLines fun _ =>
      .bind (.of_sure (.accept _)) fun given => ?_
  cases given with
  | true => exact .bind .skipBlankLines fun _ => .bind (.of_sure sure_direction) fun _ => .pure _
  | false => exact .pure _

theorem misses_classAssignment : Misses Q classAssignment := by
  have hids : ∀ ids, Misses Q (iterate (·.kind == .comma) furtherId ids) := fun ids =>
    .iterate (fun _ => .bind .advance fun _ => .bind (.expect (hQ .furtherNode trivial nofun)) fun _ =>
      .pure _) ids
  exact .bind .advance fun _ => .bind (.expect (hQ _ trivial nofun)) fun _ => .bind (hids _) fun _ =>
    .bind (.expect (hQ _ trivial nofun)) fun _ => .bind (.emit _) fun _ => .bind .skipLine fun _ => .pure _

theorem misses_statementFrom {k : Option TokenKind} (hk : k ≠ some .subgraph)
    (inner : Option (Rule Event Unit)) : Misses Q (statementFrom inner k) := by
  rw [statementFrom.eq_def]
  split
  · exact .pure _
  · contradiction
  · exact .bind .advance fun _ => .bind (.expect (hQ _ trivial (by simp))) fun _ =>
      .bind .skipLine fun _ => .pure _
  · exact .bind .advance fun _ => .bind (.expect (hQ _ trivial (by simp))) fun _ =>
      .bind .skipLine fun _ => .emit _
  · exact misses_classAssignment hQ
  · exact .bind .skipLine fun _ => .pure _
  · exact misses_nodeOrEdge hQ
  · exact .bind .advance fun _ => .pure _

end
end Mermaid.Flowchart.Grammar
