import Mermaid.ClassDiagram.Grammar
import Mermaid.Proofs.Grammar.Safety

/-! The rules of the class diagram grammar take tokens off the front, and every statement takes the
token that it begins with. -/
namespace Mermaid.ClassDiagram
open Rule

namespace MemberLine

/-- What stands between lines is no word. -/
theorem isWord_of_separates {t : Token} (h : separates t) : t.isWord = false := by
  have hreserved : ∀ e ∈ TokenKind.reserved, e.2 ≠ .newline ∧ e.2 ≠ .comment := by decide
  have hkind : t.kind = .newline ∨ t.kind = .comment := by simpa [separates] using h
  have hlookup : TokenKind.reserved.lookup t.lexeme ≠ some t.kind := by
    intro h
    obtain ⟨l₁, l₂, hl, _⟩ := List.lookup_eq_some_iff.mp h
    have hentry := hreserved (t.lexeme, t.kind) (by simp [hl])
    exact hkind.elim hentry.1 hentry.2
  rcases hkind with hk | hk <;> simp_all [Token.isWord]

theorem reads_rest : Reads rest := by
  intro ts
  induction ts with
  | nil => exact List.suffix_refl _
  | cons t ts ih =>
    rw [rest]
    split
    · exact List.suffix_refl _
    · exact ih.trans (ts.suffix_cons t)

theorem pastParameters_suffix (opened : Int) (ts : List Token) : pastParameters opened ts <:+ ts := by
  induction ts generalizing opened with
  | nil => exact List.suffix_refl _
  | cons t ts ih =>
    rw [pastParameters]
    split
    · exact List.suffix_refl _
    · split
      · exact ts.suffix_cons t
      · exact (ih _).trans (ts.suffix_cons t)

theorem reads_stereotypeText : Reads stereotypeText := by
  intro ts
  have hspan := Reads.span (fun t => t.kind != .closeGuillemet && t.kind != .newline) ts
  rw [stereotypeText]
  cases hs : ts.span fun t => t.kind != .closeGuillemet && t.kind != .newline with
  | mk words left =>
    rw [hs] at hspan
    cases left with
    | nil => exact List.nil_suffix
    | cons t more =>
      simp only
      split
      · exact (more.suffix_cons t).trans hspan
      · exact hspan

theorem visibility_suffix {ts left : List Token} {v : Visibility}
    (h : visibility ts = some (v, left)) : left <:+ ts := by
  cases ts with
  | nil =>
    cases h
    exact List.suffix_refl _
  | cons t ts =>
    have hcons := ts.suffix_cons t
    rw [visibility] at h
    split at h
    · cases h
      exact hcons
    · cases h
      exact hcons
    · cases h
      exact hcons
    · split at h
      · cases h
        exact hcons
      · cases h
    · cases h
      exact List.suffix_refl _

/-- The visibility before a member, with its marker taken; nothing is taken where there is none. -/
def marker (ts : List Token) : Option Visibility × List Token :=
  match visibility ts with
  | some (v, left) => (some v, left)
  | none => (none, ts)

theorem reads_marker : Reads marker := by
  intro ts
  rw [marker]
  cases hv : visibility ts with
  | none => exact ts.suffix_refl
  | some p => exact visibility_suffix hv

theorem reads_brackets : Reads brackets := by
  intro ts
  match ts with
  | [] | [_] => exact List.suffix_refl _
  | t :: u :: ts =>
    rw [brackets]
    split
    · exact (ts.suffix_cons u).trans ((u :: ts).suffix_cons t)
    · exact List.suffix_refl _

theorem reads_leadingType : Reads leadingType := by
  intro ts
  cases ts with
  | nil => exact List.suffix_refl _
  | cons t ts =>
    have hbrackets := reads_brackets ts
    rw [leadingType]
    rcases hb : brackets ts with ⟨suffix, left⟩
    rw [hb] at hbrackets
    simp only
    split
    · exact List.IsSuffix.trans hbrackets (ts.suffix_cons t)
    · exact List.suffix_refl _

theorem reads_parameters : Reads parameters := by
  intro ts
  cases ts with
  | nil => exact List.suffix_refl _
  | cons t ts =>
    have hpast := (pastParameters_suffix 1 ts).trans (ts.suffix_cons t)
    rw [parameters]
    split
    · simp only
      split
      · exact (reads_rest _).trans hpast
      · exact hpast
    · exact List.suffix_refl _

theorem typeWords_suffix (ts : List Token) : (typeWords ts).2.2 <:+ ts := by
  induction ts with
  | nil => exact List.suffix_refl _
  | cons t ts ih =>
    rw [typeWords]
    split
    · exact List.suffix_refl _
    · split
      · exact List.suffix_refl _
      · exact ih.trans (ts.suffix_cons t)

theorem trailingType_suffix (ts : List Token) : (trailingType ts).2.2 <:+ ts := by
  cases ts with
  | nil => exact List.suffix_refl _
  | cons t ts =>
    rw [trailingType]
    split
    · exact (typeWords_suffix ts).trans (ts.suffix_cons t)
    · exact List.suffix_refl _

theorem reads_named (v : Visibility) (type : Option String) (name : Token) :
    Reads (named v type name) := by
  intro ts
  exact (reads_rest _).trans ((trailingType_suffix _).trans (reads_parameters ts))

theorem reads_read : Reads read := by
  intro ts
  cases ts with
  | nil => exact List.suffix_refl _
  | cons t more =>
    rw [read]
    split
    · exact (reads_stereotypeText more).trans (more.suffix_cons t)
    · cases hv : visibility (t :: more) with
      | none => exact List.suffix_refl _
      | some p =>
        obtain ⟨v, left⟩ := p
        have hleft := visibility_suffix hv
        have htype := (reads_leadingType left).trans hleft
        simp only
        cases hl : leadingType left with
        | mk type left =>
          rw [hl] at htype
          cases left with
          | nil => exact List.nil_suffix
          | cons name left =>
            simp only
            split
            · exact (reads_named v type name left).trans ((left.suffix_cons name).trans htype)
            · exact htype

end MemberLine

namespace Grammar
variable {deep : Prop}

theorem steady_restText : Steady deep restText := .bind .skipLine fun _ => .pure _

theorem takes_title : Takes deep title :=
  .bind .advance fun _ => .bind steady_restText fun _ => .emit _

theorem steady_member (owner : String) : Steady deep (member owner) := by
  refine .bind (.take MemberLine.reads_read) fun said => ?_
  cases said with
  | nothing => exact .pure _
  | stereotype text => exact .emit _
  | member m => exact .emit _

theorem steady_body (owner : String) : Steady deep (body owner) :=
  .bind .skipBlankLines fun _ => .iterate (fun _ => .bind (.look _) fun _ =>
    .bind (steady_member owner) fun _ => .bind (.progressPast _) fun _ => .skipBlankLines) ()

theorem takes_declaration : Takes deep declaration := by
  refine .bind .advance fun _ => .bind (.expect _ _) fun _ => .bind (.emit _) fun _ =>
    .bind .skipBlankLines fun _ => .bind (.accept _) fun opened => ?_
  cases opened with
  | true => exact .bind (steady_body _) fun _ => .bind (.expect _ _) fun _ => .pure _
  | false => exact .pure _

theorem takes_stereotype : Takes deep stereotype :=
  .bind .advance fun _ => .bind (.take MemberLine.reads_stereotypeText) fun _ =>
    .bind (.expect _ _) fun _ => .bind (.emit _) fun _ => .emit _

theorem steady_sourceCardinality : Steady deep sourceCardinality := by
  refine .bind (.look _) fun given => ?_
  cases given with
  | true => exact .bind .advance fun _ => .pure _
  | false => exact .pure _

theorem steady_targetCardinality : Steady deep targetCardinality := by
  refine .bind .nextKind fun k => ?_
  by_cases h : k = some .string
  · rw [if_pos h]
    exact .bind .advance fun _ => .pure _
  · rw [if_neg h]
    exact .pure _

theorem steady_relation (source : Token) (cardinality : Option String) (type : RelationType) :
    Steady deep (relation source cardinality type) := by
  refine .bind (.emit _) fun _ => .bind .advance fun _ =>
    .bind (.take fun _ => List.dropWhile_suffix _) fun _ => .bind steady_targetCardinality fun _ =>
      .bind (.expect _ _) fun _ => .bind (.emit _) fun _ => .bind (.accept _) fun given => ?_
  cases given with
  | true => exact .bind (.map _ steady_restText) fun _ => .emit _
  | false => exact .bind (.pure _) fun _ => .emit _

theorem takes_relationOrReference : Takes deep relationOrReference := by
  refine .bind .advance fun source => .bind steady_sourceCardinality fun cardinality =>
    .bind (.look _) fun given => ?_
  extract_lets last
  have hlast : ∀ u, Steady deep (last u) := by
    refine fun u => .bind .nextKind fun k => ?_
    cases k.bind relation? with
    | some type => exact steady_relation source cardinality type
    | none =>
      refine .bind (.accept _) fun withMember => .bind (.emit _) fun _ => ?_
      cases withMember with
      | true => exact steady_member _
      | false => exact .pure _
  cases given with
  | true => exact .bind .advance fun _ => hlast ()
  | false => exact hlast ()

theorem takes_statement : Takes deep statement := by
  refine .pastBlank (.pure _) fun k => ?_
  split
  · contradiction
  · exact takes_title.ofKind _
  · exact takes_declaration.ofKind _
  · exact takes_stereotype.ofKind _
  · exact takes_relationOrReference.ofKind _
  · exact (Takes.bind .advance fun _ => .pure _).ofKind _

theorem sure_header : Sure header := by
  refine .bind (fun _ _ => ⟨_, rfl⟩) fun _ => .bind (.accept _) fun given => ?_
  cases given with
  | true => exact fun _ _ => ⟨_, rfl⟩
  | false => exact fun _ _ => ⟨_, rfl⟩

theorem steady_header : Steady deep header := by
  refine .bind .skipBlankLines fun _ => .bind (.accept _) fun given => ?_
  cases given with
  | true => exact .pure _
  | false => exact .bind (.unmet _) fun _ => .emit _

/-- What a parse of a class diagram is made of: moves of the cursor, the readers of members, and the
rules of the grammar. -/
inductive Operation : (α : Type) → Rule Event α → Prop
  | move {α : Type} {r : Rule Event α} (h : Move α r) : Operation α r
  | memberLine : Operation MemberLine (take MemberLine.read)
  | marker : Operation (Option Visibility) (take MemberLine.marker)
  | leadingType : Operation (Option String) (take MemberLine.leadingType)
  | brackets : Operation String (take MemberLine.brackets)
  | parameters : Operation (Option (Option String)) (take MemberLine.parameters)
  | pastParameters (opened : Int) :
      Operation Unit (take fun ts => ((), MemberLine.pastParameters opened ts))
  | typeWords : Operation (List String × Bool) (take fun ts =>
      (((MemberLine.typeWords ts).1, (MemberLine.typeWords ts).2.1), (MemberLine.typeWords ts).2.2))
  | trailingType : Operation (Option String × Bool) (take fun ts =>
      (((MemberLine.trailingType ts).1, (MemberLine.trailingType ts).2.1),
        (MemberLine.trailingType ts).2.2))
  | memberRest : Operation (List Token) (take MemberLine.rest)
  | named (v : Visibility) (type : Option String) (name : Token) :
      Operation Member (take (MemberLine.named v type name))
  | stereotypeText : Operation String (take MemberLine.stereotypeText)
  | fragments : Operation Unit (take fun ts => ((), ts.dropWhile (isFragment ·.kind)))
  | restText : Operation String restText
  | title : Operation Unit title
  | member (owner : String) : Operation Unit (member owner)
  | body (owner : String) : Operation Unit (body owner)
  | declaration : Operation Unit declaration
  | stereotype : Operation Unit stereotype
  | sourceCardinality : Operation (Option String) sourceCardinality
  | targetCardinality : Operation (Option String) targetCardinality
  | relation (source : Token) (cardinality : Option String) (type : RelationType) :
      Operation Unit (relation source cardinality type)
  | relationOrReference : Operation Unit relationOrReference
  | statement : Operation Unit statement
  | guarded : Operation Unit (guarded Grammar.statement)
  | block (stop : Option TokenKind) : Operation Unit (block Grammar.statement stop)
  | header : Operation Unit header
  | document : Operation Unit document

theorem Operation.steady {α : Type} {r : Rule Event α} (h : Operation α r) : Steady deep r := by
  cases h with
  | move h => exact h.steady
  | memberLine => exact .take MemberLine.reads_read
  | marker => exact .take MemberLine.reads_marker
  | leadingType => exact .take MemberLine.reads_leadingType
  | brackets => exact .take MemberLine.reads_brackets
  | parameters => exact .take MemberLine.reads_parameters
  | pastParameters opened => exact .take (MemberLine.pastParameters_suffix opened)
  | typeWords => exact .take MemberLine.typeWords_suffix
  | trailingType => exact .take MemberLine.trailingType_suffix
  | memberRest => exact .take MemberLine.reads_rest
  | named v type name => exact .take (MemberLine.reads_named v type name)
  | stereotypeText => exact .take MemberLine.reads_stereotypeText
  | fragments => exact .take fun _ => List.dropWhile_suffix _
  | restText => exact steady_restText
  | title => exact takes_title.toSteady
  | member owner => exact steady_member owner
  | body owner => exact steady_body owner
  | declaration => exact takes_declaration.toSteady
  | stereotype => exact takes_stereotype.toSteady
  | sourceCardinality => exact steady_sourceCardinality
  | targetCardinality => exact steady_targetCardinality
  | relation source cardinality type => exact steady_relation source cardinality type
  | relationOrReference => exact takes_relationOrReference.toSteady
  | statement => exact takes_statement.toSteady
  | guarded => exact .guarded takes_statement.toSteady
  | block stop => exact .block takes_statement.toSteady stop
  | header => exact steady_header
  | document => exact .bind steady_header fun _ => .block takes_statement.toSteady none

end Grammar
end Mermaid.ClassDiagram
