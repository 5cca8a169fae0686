import Mermaid.Proofs.ClassDiagram.Progress
import Mermaid.Proofs.Grammar.Moving

/-! The class diagram grammar run on a stream and on the stream with its tokens moved within their
lines. Nothing in a diagram depends on columns. -/
namespace Mermaid.ClassDiagram
open Rule Token

instance : Movable Event where
  moved column
    | .fault d => .fault (d.moved column)
    | .recovered d => .recovered (d.moved column)
    | e => e

variable {column : Position → Int} {s : Stream}

@[simp] private theorem isWord_moved (t : Token) : (t.moved column).isWord = t.isWord := rfl

@[simp] private theorem wordNext_moved (ts : List Token) :
    wordNext (ts.map (·.moved column)) = wordNext ts := by
  cases ts <;> rfl

namespace MemberLine

private theorem ends_moved (t : Token) (ts : List Token) :
    ends (t.moved column :: ts.map (·.moved column)) = ends (t :: ts) := by
  simp only [ends, kind_moved, wordNext_moved]

theorem carries_rest : Carries column (List.map (·.moved column)) rest rest := by
  intro ts
  induction ts with
  | nil => rfl
  | cons t ts ih =>
    rw [List.map_cons, rest, rest, ends_moved, ih]
    split <;> rfl

theorem carries_stereotypeText : Carries column id stereotypeText stereotypeText := by
  intro ts
  have hspan : Carries column _ (List.span fun t => t.kind != .closeGuillemet && t.kind != .newline) _ :=
    .span fun _ => rfl
  rw [stereotypeText, stereotypeText, hspan ts]
  generalize ts.span (fun t => t.kind != .closeGuillemet && t.kind != .newline) = line
  obtain ⟨words, left⟩ := line
  cases left with
  | nil =>
    simp only [map_lexeme_moved, List.map_nil]
    rfl
  | cons t left =>
    simp only [map_lexeme_moved, List.map_cons, kind_moved]
    split <;> rfl

private theorem visibility_moved (ts : List Token) :
    visibility (ts.map (·.moved column)) =
      (visibility ts).map fun (v, left) => (v, left.map (·.moved column)) := by
  cases ts with
  | nil => rfl
  | cons t ts =>
    simp only [List.map_cons, visibility, kind_moved, wordNext_moved]
    split
    · rfl
    · rfl
    · rfl
    · split <;> rfl
    · rfl

theorem carries_brackets : Carries column id brackets brackets := by
  intro ts
  rcases ts with _ | ⟨t, _ | ⟨u, ts⟩⟩
  · rfl
  · rfl
  · rw [List.map_cons, List.map_cons, brackets, brackets, kind_moved, kind_moved]
    by_cases h : t.kind = .openSquare && u.kind = .closeSquare
    · rw [if_pos h, if_pos h]
      rfl
    · rw [if_neg h, if_neg h]
      rfl

theorem carries_leadingType : Carries column id leadingType leadingType := by
  intro ts
  cases ts with
  | nil => rfl
  | cons t ts =>
    simp only [List.map_cons, leadingType, carries_brackets ts, id, isWord_moved, wordNext_moved,
      lexeme_moved]
    by_cases h : (t.isWord && wordNext (brackets ts).2) = true
    · simp only [h, if_true]
    · simp only [h, if_false, Bool.false_eq_true]
      rfl

private theorem pastParameters_moved (opened : Int) (ts : List Token) :
    pastParameters opened (ts.map (·.moved column)) =
      (pastParameters opened ts).map (·.moved column) := by
  induction ts generalizing opened with
  | nil => rfl
  | cons t ts ih =>
    rw [List.map_cons, pastParameters, pastParameters, kind_moved, ih]
    by_cases hend : t.kind = .newline || t.kind = .closeCurly
    · rw [if_pos hend, if_pos hend]
      rfl
    rw [if_neg hend, if_neg hend]
    split <;> rfl

theorem carries_parameters : Carries column id parameters parameters := by
  intro ts
  cases ts with
  | nil => rfl
  | cons t ts =>
    by_cases hopen : t.kind = .openRound
    · have hrest : Carries column _ rest rest := carries_rest
      cases hword : wordNext (pastParameters 1 ts) with
      | true =>
        simp only [List.map_cons, parameters, kind_moved, hopen, pastParameters_moved, wordNext_moved,
          hword, hrest (pastParameters 1 ts), map_lexeme_moved, if_true]
        rfl
      | false => simp [parameters, hopen, pastParameters_moved, hword]
    · simp [parameters, hopen]

private theorem typeWords_moved (ts : List Token) :
    typeWords (ts.map (·.moved column)) =
      let (words, method, left) := typeWords ts
      (words, method, left.map (·.moved column)) := by
  induction ts with
  | nil => rfl
  | cons t ts ih =>
    rw [List.map_cons, typeWords, typeWords, ends_moved, ih]
    by_cases hend : ends (t :: ts) = true
    · simp [hend]
    by_cases hopen : t.kind = .openRound
    · simp [hend, hopen]
    · simp [hend, hopen]

private theorem trailingType_moved (ts : List Token) :
    trailingType (ts.map (·.moved column)) =
      let (type, method, left) := trailingType ts
      (type, method, left.map (·.moved column)) := by
  cases ts with
  | nil => rfl
  | cons t ts =>
    by_cases hcolon : t.kind = .colon
    · simp [trailingType, hcolon, typeWords_moved]
    · simp [trailingType, hcolon]

theorem carries_named (v : Visibility) (type : Option String) (name : Token) :
    Carries column id (named v type name) (named v type (name.moved column)) := by
  intro ts
  rw [named, named, carries_parameters]
  simp only [id, trailingType_moved, carries_rest (trailingType (parameters ts).2).2.2]
  rfl

theorem carries_read : Carries column id read read := by
  intro ts
  cases ts with
  | nil => rfl
  | cons t ts =>
    have hvisibility : visibility (t.moved column :: ts.map (·.moved column)) =
        (visibility (t :: ts)).map fun (v, left) => (v, left.map (·.moved column)) :=
      visibility_moved (t :: ts)
    simp only [List.map_cons, read, kind_moved, carries_stereotypeText ts, hvisibility]
    split
    · rfl
    · cases visibility (t :: ts) with
      | none => rfl
      | some found =>
        obtain ⟨v, left⟩ := found
        simp only [Option.map_some, carries_leadingType left, id]
        cases (leadingType left).2 with
        | nil => rfl
        | cons name more =>
          simp only [List.map_cons, isWord_moved, carries_named v _ name more]
          split <;> rfl

end MemberLine

namespace Grammar

private theorem plainWords_moved (line : List Token) :
    ((line.map (·.moved column)).filter (·.kind != .comment)).map (·.lexeme) =
      (line.filter (·.kind != .comment)).map (·.lexeme) := by
  rw [List.filter_map, map_lexeme_moved]
  rfl

theorem moves_restText : Moves s column id restText restText :=
  .bind .skipLine fun line => by
    simp only [plainWords_moved line]
    exact .value _

theorem moves_title : Moves s column id title title :=
  .bind .advance fun _ => .bindSame moves_restText fun _ => .emit rfl

theorem moves_member (owner : String) : Moves s column id (member owner) (member owner) := by
  refine .bindSame (.take MemberLine.reads_read MemberLine.carries_read) fun line => ?_
  cases line with
  | nothing => exact .value _
  | stereotype | member => exact .emit rfl

theorem moves_body (owner : String) : Moves s column id (body owner) (body owner) := by
  have hround : ∀ _ : Unit, Moves s column id
      (do let before ← look List.length; member owner; progressPast before; skipBlankLines)
      (do let before ← look List.length; member owner; progressPast before; skipBlankLines) := fun _ =>
    .bindSame .length fun _ => .bindSame (moves_member owner) fun _ =>
      .bindSame (.progressPast _) fun _ => .skipBlankLines
  exact .bindSame .skipBlankLines fun _ => .iterate (fun _ => by rfl) hround ()

theorem moves_declaration : Moves s column id declaration declaration := by
  refine .bind .advance fun _ => .bind (.expect _ _) fun name => .bindSame (.emit rfl) fun _ =>
    .bindSame .skipBlankLines fun _ => .bindSame (.accept _) fun given => ?_
  cases given with
  | true => exact .bindSame (moves_body _) fun _ => .bind (.expect _ _) fun _ => .value _
  | false => exact .value _

theorem moves_stereotype : Moves s column id stereotype stereotype :=
  .bind .advance fun _ => .bindSame (.take MemberLine.reads_stereotypeText MemberLine.carries_stereotypeText)
    fun _ => .bind (.expect _ _) fun _ => .bindSame (.emit rfl) fun _ => .emit rfl

private theorem beforeLink_moved (inClass : TokenKind → Bool) (ts : List Token) :
    beforeLink inClass (ts.map (·.moved column)) = beforeLink inClass ts := by
  rcases ts with _ | ⟨t, _ | ⟨u, ts⟩⟩ <;> rfl

theorem moves_sourceCardinality : Moves s column id sourceCardinality sourceCardinality := by
  refine .bindSame (.look (beforeLink_moved _)) fun given => ?_
  cases given with
  | true => exact .bind .advance fun _ => .value _
  | false => exact .value _

theorem moves_targetCardinality : Moves s column id targetCardinality targetCardinality := by
  refine .bindSame .nextKind fun k => ?_
  by_cases h : k = some .string
  · rw [if_pos h]
    exact .bind .advance fun _ => .value _
  · rw [if_neg h]
    exact .value _

theorem moves_relation (source : Token) (cardinality : Option String) (type : RelationType) :
    Moves s column id (relation source cardinality type)
      (relation (source.moved column) cardinality type) := by
  have hfragments : Carries column id (fun ts => ((), ts.dropWhile (isFragment ·.kind)))
      fun ts => ((), ts.dropWhile (isFragment ·.kind)) :=
    fun _ => Prod.ext rfl (List.dropWhile_map ..)
  refine .bindSame (.emit rfl) fun _ => .bind .advance fun _ =>
    .bindSame (.take (fun ts => List.dropWhile_suffix _) hfragments) fun _ =>
      .bindSame moves_targetCardinality fun _ => .bind (.expect _ _) fun _ => .bindSame (.emit rfl) fun _ =>
        .bindSame (.accept _) fun given => ?_
  cases given with
  | true => exact .bindSame (.bindSame moves_restText fun _ => .value _) fun _ => .emit rfl
  | false => exact .bindSame (.value _) fun _ => .emit rfl

theorem moves_relationOrReference :
    Moves s column id relationOrReference relationOrReference := by
  refine .bind .advance fun source => .bindSame moves_sourceCardinality fun cardinality => ?_
  extract_lets last last'
  have hlast : ∀ u, Moves s column id (last u) (last' u) := by
    refine fun _ => .bindSame .nextKind fun k => ?_
    cases k.bind relation? with
    | some type => exact moves_relation source cardinality type
    | none =>
      refine .bindSame (.accept _) fun withMember => .bindSame (.emit rfl) fun _ => ?_
      cases withMember with
      | true => exact moves_member _
      | false => exact .value _
  refine .bindSame (.look (beforeLink_moved _)) fun fragment => ?_
  cases fragment with
  | true => exact .bind .advance fun _ => hlast ()
  | false => exact hlast ()

theorem moves_statement : Moves s column id statement statement := by
  refine .bindSame .skipBlankLines fun _ => .bindSame .nextKind fun k => ?_
  split
  · exact .value _
  · exact moves_title
  · exact moves_declaration
  · exact moves_stereotype
  · exact moves_relationOrReference
  · exact .bind .advance fun _ => .value _

theorem moves_header : Moves s column id header header := by
  refine .bindSame .skipBlankLines fun _ => .bindSame (.accept _) fun given => ?_
  cases given with
  | true => exact .value _
  | false => exact .bind (.unmet _) fun _ => .emit rfl

/-- A document is read alike but for the places of faults. -/
theorem moves_document : Moves s column id document document :=
  .bindSame moves_header fun _ => .block (fun _ => rfl) moves_statement none

end Grammar
end Mermaid.ClassDiagram
