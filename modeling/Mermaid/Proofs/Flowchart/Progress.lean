import Mermaid.Flowchart.Grammar
import Mermaid.Proofs.Grammar.Safety

/-! The rules of the flowchart grammar take tokens off the front, and every statement takes the
token that it begins with. -/
namespace Mermaid.Flowchart
open Rule

section readers

/-- What the next token means for the text of a node, whatever comes behind it: the text stops before it
or with it, or goes on behind it. -/
inductive NodeText.Turn (c : Closer) (last : Option TokenKind) (t : Token) : Prop
  | lineEnd (hline : t.kind = .newline) (run : ∀ ts, pieces c last (t :: ts) = ([], false, t :: ts))
  | closer (hline : t.kind ≠ .newline) (hcloser : t.kind = c.kind)
      (run : ∀ ts, pieces c last (t :: ts) = ([], true, ts))
  | pipe (hcloser : t.kind ≠ c.kind) (hpipe : t.kind = .pipe)
      (run : ∀ ts, pieces c last (t :: ts) = pieces c last ts)
  | longer (hline : t.kind ≠ .newline) (hcloser : t.kind ≠ c.kind) (hend : endsWith c t)
      (run : ∀ ts, pieces c last (t :: ts) = ([gap last t.kind, stem c t.lexeme], true, ts))
  | word (hline : t.kind ≠ .newline) (hcloser : t.kind ≠ c.kind) (hpipe : t.kind ≠ .pipe)
      (hend : ¬ endsWith c t) (run : ∀ ts, pieces c last (t :: ts) =
        (gap last t.kind :: t.lexeme :: (pieces c (some t.kind) ts).1, (pieces c (some t.kind) ts).2))

theorem NodeText.turn (c : Closer) (last : Option TokenKind) (t : Token) : Turn c last t := by
  by_cases hline : t.kind = .newline
  · exact .lineEnd hline fun ts => by rw [pieces, if_pos hline]
  by_cases hcloser : t.kind = c.kind
  · exact .closer hline hcloser fun ts => by rw [pieces, if_neg hline, if_pos hcloser]
  by_cases hpipe : t.kind = .pipe
  · exact .pipe hcloser hpipe fun ts => by rw [pieces, if_neg hline, if_neg hcloser, if_pos hpipe]
  by_cases hend : endsWith c t
  · exact .longer hline hcloser hend fun ts => by
      rw [pieces, if_neg hline, if_neg hcloser, if_neg hpipe, if_pos hend]
  · exact .word hline hcloser hpipe hend fun ts => by
      rw [pieces, if_neg hline, if_neg hcloser, if_neg hpipe, if_neg hend]

theorem pieces_suffix (c : Closer) (last : Option TokenKind) (ts : List Token) :
    (NodeText.pieces c last ts).2.2 <:+ ts := by
  induction ts generalizing last with
  | nil => exact List.suffix_refl _
  | cons t ts ih =>
    have hcons := ts.suffix_cons t
    cases NodeText.turn c last t with
    | lineEnd _ run => exact run ts ▸ List.suffix_refl _
    | closer _ _ run | longer _ _ _ run => exact run ts ▸ hcons
    | pipe _ _ run | word _ _ _ _ run => exact run ts ▸ (ih _).trans hcons

theorem NodeText.reads (c : Closer) : Reads (NodeText.read c) := fun ts => pieces_suffix c none ts

/-- The delimiters that close shapes have a text. -/
theorem NodeText.closer_of_shape? {opening : TokenKind} {shape : NodeShape} {c : Closer}
    (h : shape? opening = some (shape, c)) : c.kind.closesShape ∧ c.text ≠ "" := by
  cases opening <;> simp only [shape?, Option.some.injEq, Prod.mk.injEq, reduceCtorEq] at h <;>
    obtain ⟨-, rfl⟩ := h <;> decide

theorem reads_readLabel : Reads readLabel := fun ts => Reads.span _ ts

/-- Whether a token is part of a label that is not closed before it. -/
def inLabel (t : Token) : Bool := t.kind != .pipe && t.kind != .newline

theorem readLabel_eq (ts : List Token) : readLabel ts =
    (Text.joinWords ((ts.takeWhile inLabel).map (·.lexeme)), ts.dropWhile inLabel) := by
  rw [readLabel, List.span_eq_takeWhile_dropWhile]
  rfl

end readers

namespace Grammar
variable {deep : Prop}

theorem steady_node (id : Token) : Steady deep (node id) := by
  refine .bind .nextKind fun k => ?_
  cases k.bind shape? with
  | none => exact .bind (.emit _) fun _ => .pure _
  | some shape =>
    refine .bind .advance fun _ => .bind (.take (NodeText.reads _)) fun (_, closed) => ?_
    cases closed with
    | true => exact .bind (.emit _) fun _ => .pure _
    | false => exact .bind (.fail _) fun _ => .pure _

theorem steady_edgeLabel : Steady deep edgeLabel := by
  refine .bind (.accept _) fun given => ?_
  cases given with
  | true => exact .bind (.take reads_readLabel) fun _ => .bind (.expect _ _) fun _ => .pure _
  | false => exact .pure _

theorem takes_link (source : String) : Takes deep (link source) := by
  refine .bind .advance fun t => ?_
  cases arrow? t.kind with
  | none => exact .pure _
  | some arrow =>
    exact .bind steady_edgeLabel fun _ => .bind (.expect _ _) fun _ =>
      .bind (steady_node _) fun _ => .bind (.emit _) fun _ => .pure _

theorem steady_links (source : String) : Steady deep (links source) :=
  .iterate (fun source => (takes_link source).toSteady) source

theorem takes_nodeOrEdge : Takes deep nodeOrEdge := by
  refine .bind .advance fun _ => .bind (steady_node _) fun source => .bind .nextKind fun k => ?_
  by_cases h : k = some .solidLink
  · rw [if_pos h]
    exact .bind (.fail _) fun _ => .bind (steady_links _) fun _ => .pure _
  · rw [if_neg h]
    exact .bind (steady_links _) fun _ => .pure _

theorem steady_subgraphTitle (id : String) : Steady deep (subgraphTitle id) := by
  refine .bind .nextKind fun k => ?_
  split
  · exact .pure _
  · exact .pure _
  · exact .bind .advance fun _ => .pure _
  · refine .bind .advance fun _ => .bind (.take (NodeText.reads _)) fun (_, closed) => ?_
    cases closed with
    | true => exact .pure _
    | false => exact .fail _
  · exact .bind .skipLine fun _ => .pure _

theorem steady_direction : Steady deep direction := by
  refine .bind .nextKind fun k => ?_
  cases k.bind direction? with
  | none => exact .pure _
  | some d => exact .bind .advance fun _ => .pure _

theorem takes_subgraphHead : Takes deep subgraphHead := by
  refine .bind .advance fun _ => .bind (.expect _ _) fun id => .bind (steady_subgraphTitle _)
    fun title => .bind .skipBlankLines fun _ => .bind (.accept _) fun given => ?_
  cases given with
  | true => exact .bind .skipBlankLines fun _ => .bind steady_direction fun _ => .pure _
  | false => exact .pure _

/-- A subgraph is steady where the statements in it are, and overflows where there are none. -/
theorem takes_subgraph {inner : Option (Rule Event Unit)} (hnone : inner = none → deep)
    (hsome : ∀ statement ∈ inner, Steady deep statement) : Takes deep (subgraph inner) := by
  refine .bind takes_subgraphHead fun head => ?_
  cases inner with
  | none => exact .tooDeep (hnone rfl)
  | some statement =>
    exact .bind (.emit _) fun _ => .bind (.onOverflow (.block (hsome statement rfl) _) _) fun _ =>
      .bind (.emit _) fun _ => .bind (.expect _ _) fun _ => .pure _

theorem takes_nodeStyle : Takes deep nodeStyle :=
  .bind .advance fun _ => .bind (.expect _ _) fun _ => .bind .skipLine fun _ => .pure _

theorem takes_styleClass : Takes deep styleClass :=
  .bind .advance fun _ => .bind (.expect _ _) fun _ => .bind .skipLine fun _ => .emit _

theorem takes_furtherId (ids : List String) : Takes deep (furtherId ids) :=
  .bind .advance fun _ => .bind (.expect _ _) fun _ => .pure _

theorem takes_classAssignment : Takes deep classAssignment :=
  .bind .advance fun _ => .bind (.expect _ _) fun _ =>
    .bind (.iterate (fun ids => (takes_furtherId ids).toSteady) _) fun _ =>
      .bind (.expect _ _) fun _ => .bind (.emit _) fun _ => .bind .skipLine fun _ => .pure _

/-- The statement that begins with a token of this kind. -/
def statementFrom (inner : Option (Rule Event Unit)) : Option TokenKind → Rule Event Unit
  | none => pure ()
  | some .subgraph => subgraph inner
  | some .style => nodeStyle
  | some .classDef => styleClass
  | some .classWord => classAssignment
  | some .linkStyle => do let _ ← skipLine
  | some .identifier => nodeOrEdge
  | some _ => do let _ ← advance

theorem statementOver_eq (inner : Option (Rule Event Unit)) :
    statementOver inner = (do skipBlankLines; statementFrom inner (← nextKind)) := rfl

/-- A statement takes the token that it begins with, a subgraph where its inner rule is steady. -/
theorem takes_statementFrom {inner : Option (Rule Event Unit)} {k : TokenKind}
    (h : k = .subgraph → Takes deep (subgraph inner)) :
    TakesKind deep k (statementFrom inner (some k)) := by
  rw [statementFrom.eq_def]
  split
  · contradiction
  · exact (h (by simp_all)).ofKind _
  · exact takes_nodeStyle.ofKind _
  · exact takes_styleClass.ofKind _
  · exact takes_classAssignment.ofKind _
  · exact .bind (.skipLine (by simp_all)) fun _ => .pure _
  · exact takes_nodeOrEdge.ofKind _
  · exact (Takes.bind .advance fun _ => .pure _).ofKind _

theorem takes_statementOver {inner : Option (Rule Event Unit)} (hnone : inner = none → deep)
    (hsome : ∀ statement ∈ inner, Steady deep statement) : Takes deep (statementOver inner) := by
  rw [statementOver_eq]
  exact .pastBlank (.pure _) fun _ => takes_statementFrom fun _ => takes_subgraph hnone hsome

theorem takes_statement (depth : Nat) : Takes True (statement depth) := by
  induction depth with
  | zero => exact takes_statementOver (fun _ => trivial) nofun
  | succ depth ih =>
    refine takes_statementOver (fun _ => trivial) fun r hr => ?_
    cases hr
    exact ih.toSteady

theorem steady_header : Steady deep header := by
  refine .bind .skipBlankLines fun _ => .bind (.accept _) fun given => ?_
  cases given with
  | true =>
    refine .bind .skipBlankLines fun _ => .bind steady_direction fun d => ?_
    cases d with
    | some d => exact .emit _
    | none => exact .pure _
  | false => exact .bind (.unmet _) fun _ => .emit _

/-- What a parse of a flowchart is made of: moves of the cursor, and the rules of the grammar. -/
inductive Operation : (α : Type) → Rule Event α → Prop
  | move {α : Type} {r : Rule Event α} (h : Move α r) : Operation α r
  | nodeText (c : Closer) : Operation (String × Bool) (take (NodeText.read c))
  | labelText : Operation String (take readLabel)
  | node (id : Token) : Operation String (node id)
  | edgeLabel : Operation (Option String) edgeLabel
  | link (source : String) : Operation String (link source)
  | links (source : String) : Operation String (links source)
  | nodeOrEdge : Operation Unit nodeOrEdge
  | subgraphTitle (id : String) : Operation (Option String) (subgraphTitle id)
  | direction : Operation (Option Direction) direction
  | subgraphHead : Operation Subgraph subgraphHead
  | subgraph (depth : Nat) : Operation Unit (subgraph (some (statement depth)))
  | tooDeep : Operation Unit (subgraph none)
  | nodeStyle : Operation Unit nodeStyle
  | styleClass : Operation Unit styleClass
  | furtherId (ids : List String) : Operation (List String) (furtherId ids)
  | furtherIds (ids : List String) :
      Operation (List String) (iterate (·.kind == .comma) furtherId ids)
  | classAssignment : Operation Unit classAssignment
  | statement (depth : Nat) : Operation Unit (statement depth)
  | guarded (depth : Nat) : Operation Unit (guarded (Grammar.statement depth))
  | block (depth : Nat) (stop : Option TokenKind) :
      Operation Unit (block (Grammar.statement depth) stop)
  | header : Operation Unit header
  | document (depth : Nat) : Operation Unit (document depth)

theorem Operation.steady {α : Type} {r : Rule Event α} (h : Operation α r) : Steady True r := by
  cases h with
  | move h => exact h.steady
  | nodeText c => exact .take (NodeText.reads c)
  | labelText => exact .take reads_readLabel
  | node id => exact steady_node id
  | edgeLabel => exact steady_edgeLabel
  | link source => exact (takes_link source).toSteady
  | links source => exact steady_links source
  | nodeOrEdge => exact takes_nodeOrEdge.toSteady
  | subgraphTitle id => exact steady_subgraphTitle id
  | direction => exact steady_direction
  | subgraphHead => exact takes_subgraphHead.toSteady
  | subgraph depth =>
    refine (takes_subgraph (fun _ => trivial) fun r hr => ?_).toSteady
    cases hr
    exact (takes_statement depth).toSteady
  | tooDeep =>
    have hnone : Takes True (Grammar.subgraph none) := takes_subgraph (fun _ => trivial) nofun
    exact hnone.toSteady
  | nodeStyle => exact takes_nodeStyle.toSteady
  | styleClass => exact takes_styleClass.toSteady
  | furtherId ids => exact (takes_furtherId ids).toSteady
  | furtherIds ids => exact .iterate (fun ids => (takes_furtherId ids).toSteady) ids
  | classAssignment => exact takes_classAssignment.toSteady
  | statement depth => exact (takes_statement depth).toSteady
  | guarded depth => exact .guarded (takes_statement depth).toSteady
  | block depth stop => exact .block (takes_statement depth).toSteady stop
  | header => exact steady_header
  | document depth =>
    exact .bind steady_header fun _ => .block (takes_statement depth).toSteady none

theorem sure_direction : Sure direction := by
  refine .bind (fun _ _ => ⟨_, rfl⟩) fun k => ?_
  cases k.bind direction? with
  | none => exact fun _ _ => ⟨_, rfl⟩
  | some d => exact fun _ _ => ⟨_, rfl⟩

theorem sure_header : Sure header := by
  refine .bind (fun _ _ => ⟨_, rfl⟩) fun _ => .bind (.accept _) fun given => ?_
  cases given with
  | true =>
    refine .bind (fun _ _ => ⟨_, rfl⟩) fun _ => .bind sure_direction fun d => ?_
    cases d with
    | some d => exact fun _ _ => ⟨_, rfl⟩
    | none => exact fun _ _ => ⟨_, rfl⟩
  | false => exact fun _ _ => ⟨_, rfl⟩

end Grammar
end Mermaid.Flowchart
