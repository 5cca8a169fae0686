import Mermaid.Proofs.Flowchart.Progress
import Mermaid.Proofs.Grammar.Commenting

/-! The flowchart grammar run with the comments of a stream and without them. Every rule takes a
comment for the end of its line, except that the title of a subgraph, where it is the whole line, has
the comment of that line among its words. -/
namespace Mermaid.Flowchart
open Rule Token

/-- The title that a line gives: its words behind the subgraph's id, if there are any. -/
def wholeLine (id : String) : List Token → Option String
  | [] => none
  | words => some (" ".intercalate (id :: words.map (·.lexeme)))

/-- The line of a subgraph's head, where its title is the whole line. -/
structure TitleLine (s : Stream) (keyword name : Token) (words : List Token) : Prop where
  inStream : ∃ rest, keyword :: name :: (words ++ rest) <:+ s.tokens
  keyword : keyword.kind = .subgraph
  name : name.kind = .identifier
  first : ∀ w ∈ words.head?, w.kind ≠ .string ∧ w.kind ≠ .openSquare
  inLine : ∀ w ∈ words, w.kind ≠ .newline

/-- The title of a subgraph read with the comments of the text and without them. -/
inductive Retitled (s : Stream) : Option String → Option String → Prop
  | same (title : Option String) : Retitled s title title
  | remarked {keyword name : Token} {words : List Token} (h : TitleLine s keyword name words)
      (hc : ∃ w ∈ words, w.kind = .comment) :
      Retitled s (wholeLine name.lexeme words) (wholeLine name.lexeme (uncommented words))

/-- Events that differ in titles of which `T` holds, and in the columns of faults. -/
inductive Event.Alike (T : Option String → Option String → Prop) : Event → Event → Prop
  | same (e : Event) : Alike T e e
  | enter {s : Subgraph} {title : Option String} (h : T s.title title) :
      Alike T (.enter s) (.enter { s with title })
  | fault {d d' : Diagnostic} (h : d.SameLine d') : Alike T (.fault d) (.fault d')
  | recovered {d d' : Diagnostic} (h : d.SameLine d') : Alike T (.recovered d) (.recovered d')

section readers
variable {s : Stream} {ts : List Token}

/-- A node's text ends at a comment, without its closer, as it does at the end of the line. -/
private theorem pieces_uncommented {c : Closer} (hc : c.kind ≠ .comment) (hts : s.Remains ts)
    (last : Option TokenKind) :
    (NodeText.pieces c last (uncommented ts)).2.1 = (NodeText.pieces c last ts).2.1 ∧
      (NodeText.pieces c last (uncommented ts)).2.2 = uncommented (NodeText.pieces c last ts).2.2 ∧
      ((NodeText.pieces c last ts).2.1 = true →
        (NodeText.pieces c last (uncommented ts)).1 = (NodeText.pieces c last ts).1) := by
  induction ts generalizing last with
  | nil => exact ⟨rfl, rfl, fun _ => rfl⟩
  | cons t ts ih =>
    have hmore := ih hts.tail
    by_cases ht : t.kind = .comment
    · have hnext := hts.head_of_comment ht
      have hend : ∀ us : List Token, (∀ u ∈ us.head?, u.kind = .newline) →
          ∀ last, NodeText.pieces c last us = ([], false, us) := by
        intro us hus last
        cases us with
        | nil => rfl
        | cons u us => rw [NodeText.pieces, if_pos (hus u rfl)]
      have hread : NodeText.pieces c last (t :: ts) =
          ([NodeText.gap last t.kind, t.lexeme], false, ts) := by
        simp [NodeText.pieces, hend ts hnext, ht, Ne.symm hc, NodeText.endsWith,
          TokenKind.closesShape]
      have hbreak := hts.head_uncommented (by rw [lineKind, if_pos ht])
      rw [uncommented_cons_comment ht] at hbreak ⊢
      rw [hread, hend _ hbreak]
      exact ⟨rfl, rfl, fun h => by cases h⟩
    · rw [uncommented_cons ht]
      cases NodeText.turn c last t with
      | lineEnd _ run =>
        rw [run, run, uncommented_cons ht]
        exact ⟨rfl, rfl, fun _ => rfl⟩
      | closer _ _ run | longer _ _ _ run =>
        rw [run, run]
        exact ⟨rfl, rfl, fun _ => rfl⟩
      | pipe _ _ run =>
        rw [run, run]
        exact hmore last
      | word _ _ _ _ run =>
        rw [run, run]
        obtain ⟨hclosed, hrest, htexts⟩ := hmore (some t.kind)
        exact ⟨hclosed, hrest, fun h => by simp [htexts h]⟩

/-- Texts read up to their closers are the same. -/
def SameText (p p' : String × Bool) : Prop := p'.2 = p.2 ∧ (p.2 = true → p'.1 = p.1)

variable {E : Event → Event → Prop}

theorem alike_nodeText {c : Closer} (hc : c.kind ≠ .comment) :
    Rule.Alike s E SameText (take (NodeText.read c)) (take (NodeText.read c)) := by
  refine .take (NodeText.reads c) fun ts hts => ?_
  obtain ⟨hclosed, hrest, htexts⟩ := pieces_uncommented hc hts none
  exact ⟨⟨hclosed, fun h => by simp only [NodeText.read, htexts h]⟩, hrest⟩

theorem shape?_closer {k : TokenKind} {shape : NodeShape} {c : Closer}
    (h : shape? k = some (shape, c)) : c.kind ≠ .comment := by
  have hcloses := (NodeText.closer_of_shape? h).1
  intro hkind
  simp [hkind, TokenKind.closesShape] at hcloses

/-- A label ends at a comment, without its pipe, as it does at the end of the line. -/
theorem alike_readLabel {m : Expectation} (f : String → Option String) :
    Rule.Alike s E Eq (do let label ← take readLabel; let _ ← expect .pipe m; return f label)
      (do let label ← take readLabel; let _ ← expect .pipe m; return f label) := by
  intro k ts hts _
  have hread := uncommented_takeWhile (p := inLabel) (fun t ht => by simp [inLabel, ht]) ts
  have hsuffix := List.dropWhile_suffix inLabel (l := ts)
  have hrest := hts.after hsuffix
  simp only [bind_run, take_run, readLabel_eq, Reply.follow_done, Reply.after_nil]
  rw [← hread.1, ← hread.2]
  by_cases hc : ∃ w ∈ ts.takeWhile inLabel, w.kind = .comment
  · have hend := hts.head_dropWhile_of_comment (fun t ht => by simp [inLabel, ht]) hc
    have hne : ∀ us : List Token, (∀ u ∈ us.head?, u.kind = .newline) →
        us.head?.map (·.kind) ≠ some .pipe := by
      intro us hus
      cases us with
      | nil => simp
      | cons u us => simp [hus u rfl]
    have hline : lineKind (ts.dropWhile inLabel) = .newline := by
      cases hd : ts.dropWhile inLabel with
      | nil => rfl
      | cons u us => simp [lineKind, hend u (by rw [hd]; rfl)]
    rw [expect_of_ne (hne _ hend), expect_of_ne (hne _ (hrest.head_uncommented hline))]
    exact ⟨.nil, .failed m, rfl, hsuffix⟩
  · rw [uncommented_eq_self hc]
    have hpipe : ∀ label, Rule.Alike s E Eq (do let _ ← expect .pipe m; return f label)
        (do let _ ← expect .pipe m; return f label) := fun _ =>
      .bindEq (.expect (by decide) m) fun _ => .pure rfl
    exact (hpipe _ _ _ hrest rfl).widen hsuffix

end readers

namespace Grammar
variable {s : Stream} {T : Option String → Option String → Prop}

theorem alike_node (id : Token) : Alike s (Event.Alike T) Eq (node id) (node id) := by
  have hbare : Alike s (Event.Alike T) Eq
      (do emit (.mention id.lexeme id.position.line); return id.lexeme)
      (do emit (.mention id.lexeme id.position.line); return id.lexeme) :=
    .bindEq (.emit (.same _)) fun _ => .pure rfl
  refine .nextKindBind (fun k hk => ?_) fun o ho o' ho' => ?_
  · cases hs : (some k).bind shape? with
    | none => exact hbare k
    | some shape =>
      refine .bindEq (.advance hk) fun _ => .bind (alike_nodeText (shape?_closer hs)) ?_
      rintro ⟨text, closed⟩ ⟨text', closed'⟩ ⟨hclosed, htext⟩
      cases hclosed
      cases closed with
      | true =>
        cases htext rfl
        exact .bindEq (.emit (.same _)) fun _ => .pure rfl
      | false => exact .bindEq (.fail _) fun _ => .pure rfl
  · have hnone : ∀ o ∈ endKinds, o.bind shape? = none := by decide
    rw [hnone o ho, hnone o' ho']
    exact hbare .newline

theorem alike_edgeLabel : Alike s (Event.Alike T) Eq edgeLabel edgeLabel := by
  refine .bindEq (.accept (by decide)) fun given => ?_
  cases given with
  | true => exact alike_readLabel fun label => if label = "" then none else some label
  | false => exact .pure rfl

theorem alike_link (source : String) {k : TokenKind} (hk : k ≠ .newline) :
    AlikeAt s (Event.Alike T) Eq k (link source) (link source) := by
  refine .bindEq (.advance hk) fun t => ?_
  cases arrow? t.kind with
  | none => exact .pure rfl
  | some arrow =>
    exact .bindEq alike_edgeLabel fun _ => .bindEq (.expect (by decide) _) fun _ =>
      .bindEq (alike_node _) fun _ => .bindEq (.emit (.same _)) fun _ => .pure rfl

theorem alike_links (source : String) : Alike s (Event.Alike T) Eq (links source) (links source) := by
  have htakes : ∀ source, Takes True (link source) := takes_link
  refine .iterate htakes (fun source _ hk => alike_link source hk) (fun t ht => ?_) source
  cases hs : separates t with
  | false => rfl
  | true =>
    simp only [separates, Bool.or_eq_true, beq_iff_eq] at hs
    rcases hs with hs | hs <;> simp [hs, arrow?] at ht

theorem alike_nodeOrEdge {k : TokenKind} (hk : k ≠ .newline) :
    AlikeAt s (Event.Alike T) Eq k nodeOrEdge nodeOrEdge := by
  refine .bindEq (.advance hk) fun _ => .bindEq (alike_node _) fun source => ?_
  have hlinks : Alike s (Event.Alike T) Eq (do let _ ← links source) (do let _ ← links source) :=
    .bindEq (alike_links source) fun _ => .pure rfl
  refine .nextKindBind (fun k _ => ?_) fun o ho o' ho' => ?_
  · by_cases h : some k = some .solidLink
    · rw [if_pos h]
      exact AlikeAt.bindEq (Alike.fail _ _) fun _ => hlinks
    · rw [if_neg h]
      exact hlinks k
  · have hnone : ∀ o ∈ endKinds, o ≠ some .solidLink := by decide
    rw [if_neg (hnone o ho), if_neg (hnone o' ho')]
    exact hlinks .newline

/-- The title that begins with a token of this kind. -/
private def titleFrom (id : String) : Option TokenKind → Rule Event (Option String)
  | none | some .newline => return none
  | some .string => return some (← advance).lexeme
  | some .openSquare => do
    let _ ← advance
    let (text, closed) ← take (NodeText.read .square)
    if closed then return some text else fail (.shapeEnd Closer.square.text)
  | some _ => return some (" ".intercalate (id :: (← skipLine).map (·.lexeme)))

private theorem subgraphTitle_from (id : String) (s : Stream) (ts : List Token) :
    subgraphTitle id s ts = titleFrom id (ts.head?.map (·.kind)) s ts := rfl

/-- A title that is neither a string nor a text in brackets is the whole line. -/
theorem subgraphTitle_wholeLine {id : String} {s : Stream} {ts : List Token}
    (h : ∀ t ∈ ts.head?, t.kind ≠ .string ∧ t.kind ≠ .openSquare) :
    subgraphTitle id s ts = ⟨[], .done (wholeLine id (ts.takeWhile (·.kind != .newline))),
      ts.dropWhile (·.kind != .newline)⟩ := by
  cases ts with
  | nil => rfl
  | cons t ts =>
    obtain ⟨hstring, hsquare⟩ := h t rfl
    by_cases ht : t.kind = .newline
    · simp [subgraphTitle_from, ht, titleFrom, wholeLine]
    · have hline : titleFrom id (some t.kind) = (do
          return some (" ".intercalate (id :: (← skipLine).map (·.lexeme)))) := by
        rw [titleFrom.eq_def]
        split <;> simp_all
      rw [subgraphTitle_from, List.head?_cons, Option.map_some, hline]
      simp [bind_run, skipLine, restOfLine, List.span_eq_takeWhile_dropWhile, ht, wholeLine]

/-- Only where it is the whole line can the title have a comment among its words. -/
theorem alike_subgraphTitle {keyword name : Token} {ts : List Token} (hts : s.Remains ts)
    (hhead : keyword :: name :: ts <:+ s.tokens) (hkeyword : keyword.kind = .subgraph)
    (hname : name.kind = .identifier) :
    (subgraphTitle name.lexeme s ts).Alike (Event.Alike T) (Retitled s) ts
      (subgraphTitle name.lexeme s.uncommented (uncommented ts)) := by
  by_cases hfirst : ∀ t ∈ ts.head?, t.kind ≠ .string ∧ t.kind ≠ .openSquare
  · have hless : ∀ t ∈ (uncommented ts).head?, t.kind ≠ .string ∧ t.kind ≠ .openSquare := by
      by_cases hline : lineKind ts = .newline
      · exact fun t ht => by simp [hts.head_uncommented hline t ht]
      · obtain ⟨t, us, rfl, -, -, hus⟩ := exists_cons_of_lineKind hline rfl
        rw [hus]
        exact hfirst
    have hline := uncommented_takeWhile (p := (·.kind != .newline)) (fun t ht => by simp [ht]) ts
    rw [subgraphTitle_wholeLine hfirst, subgraphTitle_wholeLine hless, ← hline.1, ← hline.2]
    refine ⟨.nil, .done ?_, rfl, List.dropWhile_suffix _⟩
    by_cases hc : ∃ w ∈ ts.takeWhile (·.kind != .newline), w.kind = .comment
    · refine .remarked ⟨⟨ts.dropWhile (·.kind != .newline), ?_⟩, hkeyword, hname, fun w hw => ?_,
        fun w hw => ?_⟩ hc
      · rw [List.takeWhile_append_dropWhile]
        exact hhead
      · cases ts with
        | nil => cases hw
        | cons t ts =>
          rw [List.takeWhile_cons] at hw
          split at hw
          · exact hfirst w hw
          · cases hw
      · simpa using List.mem_takeWhile_imp hw
    · rw [uncommented_eq_self hc]
      exact .same _
  · obtain ⟨t, us, rfl, ht⟩ : ∃ t us, ts = t :: us ∧ (t.kind = .string ∨ t.kind = .openSquare) := by
      cases ts with
      | nil => exact absurd (fun t ht => by cases ht) hfirst
      | cons t us => exact ⟨t, us, rfl, by simpa [or_iff_not_imp_left] using hfirst⟩
    have hc : t.kind ≠ .comment := by rcases ht with ht | ht <;> simp [ht]
    rw [uncommented_cons hc]
    rw [subgraphTitle_from, subgraphTitle_from, List.head?_cons, List.head?_cons, Option.map_some]
    rcases ht with ht | ht
    · rw [ht]
      exact ⟨.nil, .done (.same _), rfl, us.suffix_cons t⟩
    · rw [ht]
      have htext : Alike s (Event.Alike T) (Retitled s)
          (do
            let (text, closed) ← take (NodeText.read .square)
            if closed then return some text else fail (.shapeEnd Closer.square.text))
          (do
            let (text, closed) ← take (NodeText.read .square)
            if closed then return some text else fail (.shapeEnd Closer.square.text)) := by
        refine .bind (alike_nodeText (by decide)) ?_
        rintro ⟨text, closed⟩ ⟨text', closed'⟩ ⟨hclosed, htext⟩
        cases hclosed
        cases closed with
        | true =>
          cases htext rfl
          exact .pure (.same _)
        | false => exact .fail _
      exact (htext _ us hts.tail rfl).widen (us.suffix_cons t)

theorem alike_direction : Alike s (Event.Alike T) Eq direction direction := by
  refine .nextKindBind (fun k hk => ?_) fun o ho o' ho' => ?_
  · cases (some k).bind direction? with
    | none => exact Alike.pure rfl k
    | some d => exact .bindEq (.advance hk) fun _ => .pure rfl
  · have hnone : ∀ o ∈ endKinds, o.bind direction? = none := by decide
    rw [hnone o ho, hnone o' ho']
    exact Alike.pure rfl .newline

variable (hT : ∀ title title', Retitled s title title' → T title title')

/-- What is read behind the title of a subgraph. -/
private theorem alike_behindTitle {id : String} {title title' : Option String} (h : T title title') :
    Alike s (Event.Alike T) (fun head head' => Event.Alike T (.enter head) (.enter head'))
      (do
        skipBlankLines
        if ← accept .direction then
          skipBlankLines
          return { id, title, direction := ← direction }
        else return ({ id, title } : Subgraph))
      (do
        skipBlankLines
        if ← accept .direction then
          skipBlankLines
          return { id, title := title', direction := ← direction }
        else return ({ id, title := title' } : Subgraph)) := by
  refine .bindEq .skipBlankLines fun _ => .bindEq (.accept (by decide)) fun given => ?_
  cases given with
  | true =>
    exact .bindEq .skipBlankLines fun _ => .bindEq alike_direction fun d =>
      .pure (Event.Alike.enter (s := { id, title, direction := d }) h)
  | false => exact .pure (Event.Alike.enter (s := { id, title }) h)

include hT in
theorem alike_subgraphHead : AlikeAt s (Event.Alike T)
    (fun head head' => Event.Alike T (.enter head) (.enter head')) .subgraph
    subgraphHead subgraphHead := by
  intro ts hts hk
  obtain ⟨keyword, us, rfl, hkeyword, -, hless⟩ := exists_cons_of_lineKind (by decide) hk
  have hus := hts.tail
  rw [hless]
  simp only [subgraphHead, bind_run, advance_cons, Reply.follow_done, Reply.after_nil]
  refine .widen ?_ (us.suffix_cons keyword)
  refine (Alike.expect (by decide) _ _ us hus rfl).follow fun name _ hname heq => ?_
  subst heq
  obtain ⟨hkind, hcons⟩ := expect_eq_done hname
  generalize (expect .identifier .subgraphName s us : Reply Event Token).rest = vs at hcons ⊢
  subst hcons
  have hsteady : Steady True (subgraphTitle name.lexeme) := steady_subgraphTitle _
  refine (alike_subgraphTitle hus.tail hts.suffix hkeyword hkind).follow fun title title' _ h => ?_
  exact alike_behindTitle (hT _ _ h) _ _ (hus.tail.after (hsteady.rest s vs)) rfl

theorem alike_nodeStyle {k : TokenKind} (hk : k ≠ .newline) :
    AlikeAt s (Event.Alike T) Eq k nodeStyle nodeStyle :=
  .bindEq (.advance hk) fun _ => .bindEq (.expect (by decide) _) fun _ =>
    .bind .skipLine fun _ _ _ => .pure rfl

theorem alike_styleClass {k : TokenKind} (hk : k ≠ .newline) :
    AlikeAt s (Event.Alike T) Eq k styleClass styleClass :=
  .bindEq (.advance hk) fun _ => .bindEq (.expect (by decide) _) fun _ =>
    .bind .skipLine fun line line' h => by
      rw [h, joinSource_uncommented]
      exact .emit (.same _)

theorem alike_classAssignment {k : TokenKind} (hk : k ≠ .newline) :
    AlikeAt s (Event.Alike T) Eq k classAssignment classAssignment := by
  have htakes : ∀ ids, Takes True (furtherId ids) := takes_furtherId
  refine .bindEq (.advance hk) fun _ => .bindEq (.expect (by decide) _) fun _ => .bindEq ?_ fun _ =>
    .bindEq (.expect (by decide) _) fun _ => .bindEq (.emit (.same _)) fun _ =>
      .bind .skipLine fun _ _ _ => .pure rfl
  refine .iterate htakes (fun ids k hk => ?_) (fun t ht => ?_) _
  · exact .bindEq (.advance hk) fun _ => .bindEq (.expect (by decide) _) fun _ => .pure rfl
  · simp_all [separates]

section statements
variable (hT : ∀ title title', Retitled s title title' → T title title')
include hT

theorem alike_subgraph {inner : Option (Rule Event Unit)}
    (htakes : ∀ statement ∈ inner, Takes True statement)
    (h : ∀ statement ∈ inner, Alike s (Event.Alike T) Eq statement statement) :
    AlikeAt s (Event.Alike T) Eq .subgraph (subgraph inner) (subgraph inner) := by
  refine .bind (alike_subgraphHead hT) fun head head' hhead => ?_
  cases inner with
  | none => exact .tooDeep
  | some statement =>
    exact .bindEq (.emit hhead) fun _ =>
      .bindEq (.onOverflow (.block rfl (fun _ _ => .recovered) (htakes _ rfl) (fun k _ => h _ rfl k) _)
        (.same _)) fun _ => .bindEq (.emit (.same _)) fun _ => .bindEq (.expect (by decide) _) fun _ => .pure rfl

theorem alike_statementOver {inner : Option (Rule Event Unit)}
    (htakes : ∀ statement ∈ inner, Takes True statement)
    (h : ∀ statement ∈ inner, Alike s (Event.Alike T) Eq statement statement) :
    Alike s (Event.Alike T) Eq (statementOver inner) (statementOver inner) := by
  rw [statementOver_eq]
  refine .pastBlank (.pure rfl) fun k hk => ?_
  rw [statementFrom.eq_def]
  split
  · contradiction
  · rename_i hsubgraph
    cases hsubgraph
    exact alike_subgraph hT htakes h
  · exact alike_nodeStyle hk
  · exact alike_styleClass hk
  · exact alike_classAssignment hk
  · exact Alike.bind .skipLine (fun _ _ _ => .pure rfl) k
  · exact alike_nodeOrEdge hk
  · exact .bindEq (.advance hk) fun _ => .pure rfl

theorem alike_statement (depth : Nat) :
    Alike s (Event.Alike T) Eq (statement depth) (statement depth) := by
  induction depth with
  | zero => exact alike_statementOver hT nofun nofun
  | succ depth ih =>
    refine alike_statementOver hT (fun r hr => ?_) fun r hr => ?_
    · cases hr
      exact takes_statement depth
    · cases hr
      exact ih

omit hT in
theorem alike_header : Alike s (Event.Alike T) Eq header header := by
  refine .bindEq .skipBlankLines fun _ => .bindEq (.accept (by decide)) fun given => ?_
  cases given with
  | true =>
    refine .bindEq .skipBlankLines fun _ => .bindEq alike_direction fun d => ?_
    cases d with
    | some d => exact .emit (.same _)
    | none => exact .pure rfl
  | false => exact .bind (.unmet _) fun _ _ h => .emit (.fault h)

/-- A document writes events that differ in titles and columns only. -/
theorem alike_document (depth : Nat) :
    Alike s (Event.Alike T) Eq (document depth) (document depth) :=
  .bindEq alike_header fun _ => .block rfl (fun _ _ => .recovered) (takes_statement depth)
    (fun k _ => alike_statement hT depth k) none

end statements
end Grammar
end Mermaid.Flowchart
