import Mermaid.Proofs.Flowchart.Nesting
import Mermaid.Proofs.Grammar.Curtailing

/-! A flowchart text that ends before a subgraph. What stands before the head of a subgraph is read
there just as if the text ended with it. -/
namespace Mermaid.Flowchart
open Rule

section readers
variable {t : Token} {us : List Token}

theorem NodeText.curtails_pieces (ht : t.kind ≠ .newline) (c : Closer) (last : Option TokenKind)
    (ts left : List Token) (hleft : (pieces c last (ts ++ t :: us)).2.2 = left ++ t :: us) :
    pieces c last ts =
      ((pieces c last (ts ++ t :: us)).1, (pieces c last (ts ++ t :: us)).2.1, left) := by
  induction ts generalizing last with
  | nil =>
    -- The token is part of the text, or ends it.
    have hsuffix : (pieces c last (t :: us)).2.2 <:+ us := by
      have hmore : ∀ last, (pieces c last us).2.2 <:+ us := fun last => pieces_suffix c last us
      rw [pieces, if_neg ht]
      split
      · exact us.suffix_refl
      · split
        · exact hmore _
        · split
          · exact us.suffix_refl
          · exact hmore _
    rw [List.nil_append] at hleft
    exact absurd (hleft ▸ hsuffix) not_suffix_of_left
  | cons u ts ih =>
    rw [List.cons_append] at hleft ⊢
    rw [pieces] at hleft ⊢
    rw [pieces]
    split at hleft
    · rename_i hu
      rw [if_pos hu, if_pos hu, @List.append_cancel_right _ (u :: ts) _ _ hleft]
    · rename_i hu
      rw [if_neg hu, if_neg hu]
      split at hleft
      · rename_i hc
        rw [if_pos hc, if_pos hc, List.append_cancel_right hleft]
      · rename_i hc
        rw [if_neg hc, if_neg hc]
        split at hleft
        · rename_i hpipe
          rw [if_pos hpipe, if_pos hpipe]
          exact ih last hleft
        · rename_i hpipe
          rw [if_neg hpipe, if_neg hpipe]
          split at hleft
          · rename_i hends
            rw [if_pos hends, if_pos hends, List.append_cancel_right hleft]
          · rename_i hends
            rw [if_neg hends, if_neg hends, ih (some u.kind) hleft]

theorem NodeText.curtails_read (ht : t.kind ≠ .newline) (c : Closer) :
    CurtailsReads t us (read c) := by
  intro ts left hleft
  rw [read, read, curtails_pieces ht c none ts left hleft]

theorem curtails_readLabel : CurtailsReads t us readLabel := by
  intro ts left hleft
  have hspan : CurtailsReads t us (List.span fun t => t.kind != .pipe && t.kind != .newline) := .span _
  rw [readLabel, readLabel, hspan ts left hleft]

end readers

namespace Grammar
variable {s p : Stream} {t : Token} {us : List Token}

/-- A node is read the same where the text ends before a token that opens no shape. -/
theorem curtails_node (hline : t.kind ≠ .newline) (hshape : shape? t.kind = none) (id : Token) :
    Curtails s p t us (node id) := by
  refine .nextKindBind (fun k => ?_) (.inl (by rw [Option.bind_some, hshape]; rfl))
  cases k.bind shape? with
  | none => exact .bind (.emit _) fun _ => .pure _
  | some shape =>
    refine .bind .advance fun _ =>
      .bind (.take (NodeText.reads _) (NodeText.curtails_read hline _)) fun (_, closed) => ?_
    cases closed with
    | true => exact .bind (.emit _) fun _ => .pure _
    | false => exact .bind (.fail _) fun _ => .pure _

theorem curtails_edgeLabel : Curtails s p t us edgeLabel := by
  refine .bind (.accept _) fun given => ?_
  cases given with
  | true =>
    exact .bind (.take reads_readLabel curtails_readLabel) fun _ => .bind (.expect _ _) fun _ => .pure _
  | false => exact .pure _

theorem curtails_link (hline : t.kind ≠ .newline) (hshape : shape? t.kind = none) (source : String) :
    Curtails s p t us (link source) := by
  refine .bind .advance fun u => ?_
  cases arrow? u.kind with
  | none => exact .pure _
  | some arrow =>
    exact .bind curtails_edgeLabel fun _ => .bind (.expect _ _) fun _ =>
      .bind (curtails_node hline hshape _) fun _ => .bind (.emit _) fun _ => .pure _

private theorem ne_newline_of_subgraph (ht : t.kind = .subgraph) : t.kind ≠ .newline := by
  rw [ht]
  decide

private theorem shape?_of_subgraph (ht : t.kind = .subgraph) : shape? t.kind = none := by
  rw [ht]
  rfl

theorem separates_subgraph (ht : t.kind = .subgraph) : separates t = false := by
  simp [separates, ht]

section subgraphs
variable (ht : t.kind = .subgraph)
include ht

theorem curtails_links (source : String) : Curtails s p t us (links source) :=
  .iterate (by rw [ht]; rfl) takes_link
    (curtails_link (ne_newline_of_subgraph ht) (shape?_of_subgraph ht)) source

theorem curtails_nodeOrEdge : Curtails s p t us nodeOrEdge := by
  have hnode : ∀ id, Curtails s p t us (node id) :=
    curtails_node (ne_newline_of_subgraph ht) (shape?_of_subgraph ht)
  refine .bind .advance fun _ => .bind (hnode _) fun source =>
    .nextKindBind (fun k => ?_) (.inl (by simp [ht]))
  have hlinks : Curtails s p t us (do let _ ← links source) :=
    .bind (curtails_links ht source) fun _ => .pure _
  by_cases hk : k = some .solidLink
  · rw [if_pos hk]
    exact .bind (.fail _) fun _ => hlinks
  · rw [if_neg hk]
    exact hlinks

/-- A title that takes the whole line would take the head of the next subgraph too. -/
theorem curtails_subgraphTitle (id : String) : Curtails s p t us (subgraphTitle id) := by
  refine .nextKindBind (fun k => ?_) (.inr fun ts => ?_)
  · split
    · exact .pure _
    · exact .pure _
    · exact .bind .advance fun _ => .pure _
    · have hread : CurtailsReads t us (NodeText.read .square) :=
        NodeText.curtails_read (ne_newline_of_subgraph ht) .square
      refine .bind .advance fun _ => .bind (.take (NodeText.reads _) hread) fun (_, closed) => ?_
      cases closed with
      | true => exact .pure _
      | false => exact .fail _
    · exact .bind .skipLine fun _ => .pure _
  · rw [ht]
    have htakes : TakesKind True .subgraph (skipLine : Rule Event (List Token)) := .skipLine (by decide)
    exact (htakes.bind fun _ => .pure _).taken s t ts ht

theorem curtails_direction : Curtails s p t us direction := by
  refine .nextKindBind (fun k => ?_) (.inl (by rw [ht]; rfl))
  cases k.bind direction? with
  | none => exact .pure _
  | some d => exact .bind .advance fun _ => .pure _

theorem curtails_subgraphHead : Curtails s p t us subgraphHead := by
  refine .bind .advance fun _ => .bind (.expect _ _) fun id =>
    .bind (curtails_subgraphTitle ht _) fun title =>
      .bind (.skipBlankLines (separates_subgraph ht)) fun _ => .bind (.accept _) fun given => ?_
  cases given with
  | true =>
    exact .bind (.skipBlankLines (separates_subgraph ht)) fun _ =>
      .bind (curtails_direction ht) fun _ => .pure _
  | false => exact .pure _

theorem curtails_classAssignment : Curtails s p t us classAssignment := by
  have hids : ∀ ids, Curtails s p t us (iterate (·.kind == .comma) furtherId ids) :=
    .iterate (by simp [ht]) takes_furtherId fun _ =>
      .bind .advance fun _ => .bind (.expect _ _) fun _ => .pure _
  exact .bind .advance fun _ => .bind (.expect _ _) fun _ => .bind (hids _) fun _ =>
    .bind (.expect _ _) fun _ => .bind (.emit _) fun _ => .bind .skipLine fun _ => .pure _

theorem curtails_statementFrom (k : Option TokenKind) : Curtails s p t us (statementFrom none k) := by
  rw [statementFrom.eq_def]
  split
  · exact .pure _
  · exact .bind (curtails_subgraphHead ht) fun _ => .tooDeep
  · exact .bind .advance fun _ => .bind (.expect _ _) fun _ => .bind .skipLine fun _ => .pure _
  · exact .bind .advance fun _ => .bind (.expect _ _) fun _ => .bind .skipLine fun _ => .emit _
  · exact curtails_classAssignment ht
  · exact .bind .skipLine fun _ => .pure _
  · exact curtails_nodeOrEdge ht
  · exact .bind .advance fun _ => .pure _

theorem curtails_statement : Curtails s p t us (statement 0) := by
  rw [statement, statementOver_eq]
  refine .bind (.skipBlankLines (separates_subgraph ht)) fun _ =>
    .nextKindBind (curtails_statementFrom ht) (.inr fun ts => ?_)
  have htakes : TakesKind True t.kind (statementFrom none (some t.kind)) :=
    takes_statementFrom fun _ => takes_subgraph (fun _ => trivial) nofun
  exact htakes.taken s t ts rfl

theorem curtails_header (hp : s.Curtailed p t us) : Curtails s p t us header := by
  refine .bind (.skipBlankLines (separates_subgraph ht)) fun _ => .bind (.accept _) fun given => ?_
  cases given with
  | true =>
    refine .bind (.skipBlankLines (separates_subgraph ht)) fun _ =>
      .bind (curtails_direction ht) fun d => ?_
    cases d with
    | some d => exact .emit _
    | none => exact .pure _
  | false => exact .bind (.unmet hp _) fun _ => .emit _

end subgraphs

end Grammar

section nesting
variable {s p : Stream} {t : Token} {us ts left : List Token} {k k' : Nat} {es : List Event}

/-- A step takes a token, and more than one if it opens a subgraph. -/
theorem Step.rest {u : Token} (h : Step s k (u :: ts) es k' left) : left <:+ ts := by
  cases h with
  | blank _ | leave _ => exact ts.suffix_refl
  | statement _ _ _ h =>
    have hrest := (Takes.guarded (Grammar.takes_statement 0)).taken s u ts
    rwa [h] at hrest
  | headless _ hh =>
    have htakes : Takes True Grammar.subgraphHead := Grammar.takes_subgraphHead
    have hrest := htakes.taken s u ts
    rw [hh] at hrest
    exact (resumption_suffix _ _ _).trans hrest
  | enter _ hh =>
    have htakes : Takes True Grammar.subgraphHead := Grammar.takes_subgraphHead
    have hrest := htakes.taken s u ts
    rwa [hh] at hrest

theorem Nested.rest (h : Nested s k ts es k' left) : left <:+ ts := by
  induction h with
  | refl _ ts => exact ts.suffix_refl
  | @step _ _ _ ts _ _ _ _ h _ ih =>
    cases ts with
    | nil => cases h
    | cons u ts => exact (ih.trans h.rest).trans (ts.suffix_cons u)

/-- A step before the head of a subgraph is a step of the text that ends there. -/
theorem Step.curtail (hp : s.Curtailed p t us) (ht : t.kind = .subgraph) {u : Token}
    (h : Step s k (u :: (ts ++ t :: us)) es k' (left ++ t :: us)) : Step p k (u :: ts) es k' left := by
  have hrestarts : Recovers.restarts Event t.kind = true := by rw [ht]; rfl
  have hguarded := Curtails.guarded hp hrestarts (Grammar.curtails_statement ht)
  have hhead : Curtails s p t us Grammar.subgraphHead := Grammar.curtails_subgraphHead ht
  generalize hrest : left ++ t :: us = rest at h
  cases h with
  | blank hu =>
    obtain rfl := List.append_cancel_right hrest
    exact .blank hu
  | statement hblank hhead hend h =>
    subst hrest
    exact .statement hblank hhead hend (hguarded.run h)
  | @headless _ _ _ rest m hu hh =>
    obtain ⟨mid, rfl, hunmet, hresume⟩ := Curtails.resume hp hrestarts hrest.symm m
    rw [← hunmet, ← hresume]
    exact .headless hu (hhead.run hh)
  | enter hu hh =>
    subst hrest
    exact .enter hu (hhead.run hh)
  | leave hu =>
    obtain rfl := List.append_cancel_right hrest
    exact .leave hu

/-- What is read before the head of a subgraph is read to the end of the text that ends there. -/
theorem Nested.curtail (hp : s.Curtailed p t us) (ht : t.kind = .subgraph)
    (h : Nested s k (ts ++ t :: us) es k' (t :: us)) : Nested p k ts es k' [] := by
  generalize hall : ts ++ t :: us = all at h
  generalize hrest : t :: us = rest at h
  induction h generalizing ts with
  | refl =>
    obtain rfl : ts = [] := by simpa using hall.trans hrest.symm
    exact .refl _ _
  | @step _ _ _ all mid _ _ _ h more ih =>
    subst hall hrest
    obtain ⟨front, rfl⟩ := more.rest
    cases ts with
    | nil => exact absurd h.rest not_suffix_of_left
    | cons u ts => exact .step (h.curtail hp ht) (ih rfl rfl)

end nesting
end Mermaid.Flowchart
