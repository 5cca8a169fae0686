import Mermaid.Proofs.Flowchart.BareLink
import Mermaid.Proofs.Flowchart.Document
import Mermaid.Proofs.Flowchart.Gap
import Mermaid.Proofs.Flowchart.Overflow

/-! Subgraphs whose first line is faulty. The line is reported and passed over, and opens nothing, but the
end of the subgraph is still there: it closes the subgraph around it. -/
namespace Mermaid.Flowchart
open Rule

/-- Pieces behind an opening delimiter that nothing closes. -/
def unenclosed (tight : Bool) : List Piece → Line
  | [] => []
  | p :: ps => ⟨!tight, p⟩ :: spread ps

/-- The first line of a subgraph that lacks the id, or that does not close its title. Where the id is
missing no statement begins in the title. -/
inductive FaultyLine
  | nameless (title : Option Title)
      (quiet : ∀ tight, ∀ p ∈ titleLine tight title, Recovers.restarts Event p.piece.kind = false)
  | unclosed (id : Name) (c : Caption)

namespace FaultyLine

def expectation : FaultyLine → Expectation
  | nameless _ _ => .subgraphName
  | unclosed _ _ => .shapeEnd Closer.square.text

section spacing
variable (spacing : Spacing)

def line : FaultyLine → Line
  | nameless title _ => ⟨false, .word subgraphWord⟩ :: titleLine spacing.titles title
  | unclosed id c => ⟨false, .word subgraphWord⟩ :: ⟨true, .word id.toWord⟩ ::
      ⟨true, .sign (opener .rectangle)⟩ :: unenclosed spacing.titles c.pieces

/-- The column behind what could be read: a missing id would stand behind the first word, or the space
behind it, and the missing end of a title behind the line. -/
def column : FaultyLine → Int
  | nameless none _ => 9
  | nameless (some _) _ => 10
  | unclosed id c => 1 + ((unclosed id c).line spacing).chars.length

/-- What is reported of such a line that is line `n`. -/
def diagnostic (l : FaultyLine) (n : Int) : Diagnostic := ⟨l.expectation.message, ⟨n, l.column spacing⟩⟩

theorem fits_line (l : FaultyLine) : (l.line spacing).Fits '\n' := by
  cases l with
  | nameless title quiet =>
    cases title with
    | none => exact ⟨Piece.stops_newline rfl, trivial⟩
    | some title =>
      cases title with
      | quoted q => exact ⟨Piece.stops_space _, trivial, trivial⟩
      | bracketed c => exact ⟨Piece.stops_space _, Line.fits_enclosed Caption.isText (closer_endsWord _)
          (opener_stops _) (Piece.sign_stops_newline _) true spacing.titles⟩
  | unclosed id c =>
    refine ⟨Piece.stops_space _, Piece.stops_space _, ?_⟩
    cases hc : c.pieces with
    | nil => exact ⟨Piece.sign_stops_newline _, trivial⟩
    | cons p ps =>
      have htext : ∀ q ∈ p :: ps, q.isText := hc ▸ c.isText
      obtain ⟨hp, hps⟩ := List.forall_mem_cons.mp htext
      have hspread : Line.Fits '\n' (⟨!spacing.titles, p⟩ :: spread ps) := by
        refine ⟨?_, Line.fits_spread fun q hq => Piece.stops_newline (hps q hq)⟩
        cases ps with
        | nil => exact Piece.stops_newline hp
        | cons q ps => exact p.stops_space
      refine ⟨?_, hspread⟩
      rw [unenclosed, Line.first_cons]
      cases spacing.titles with
      | true => exact Piece.sign_stops_text _ hp
      | false => exact Piece.stops_space _

end spacing
end FaultyLine

variable {s : Stream}

/-- A text is read up to the end of the line that does not close it. -/
theorem NodeText.read_unclosed {c : Closer} {ts : List Token} {close : Token}
    (hts : ∀ t ∈ ts, t.kind ∈ Piece.textKinds) (hc : c.kind.closesShape) (hclose : close.kind = .newline)
    (rest : List Token) : ∃ text, read c (ts ++ close :: rest) = ((text, false), close :: rest) := by
  have hpieces : ∀ last, ∃ texts, pieces c last (ts ++ close :: rest) = (texts, false, close :: rest) := by
    induction ts with
    | nil => exact fun last => ⟨[], by simp [pieces, hclose]⟩
    | cons t ts ih =>
      obtain ⟨ht, hts⟩ := List.forall_mem_cons.mp hts
      obtain ⟨hn, hp, hs, -, -⟩ := text_kinds _ ht
      have hk : t.kind ≠ c.kind := fun h => by simp [← h, hs] at hc
      intro last
      obtain ⟨texts, hmore⟩ := ih hts (some t.kind)
      exact ⟨gap last t.kind :: t.lexeme :: texts, by simp [pieces, hn, hp, hk, endsWith, hs, hmore]⟩
  obtain ⟨texts, htexts⟩ := hpieces none
  exact ⟨Text.stripped (String.join texts), by rw [read, htexts]⟩

namespace Grammar

theorem kind_ne_newline_tokens (n k : Int) (l : Line) : ∀ t ∈ Line.tokens n k l, t.kind ≠ .newline :=
  Token.forall_kind (P := (· ≠ .newline)) (Line.row_tokens n k l).tells fun p hp => by
    obtain ⟨q, -, rfl⟩ := List.mem_map.mp hp
    exact q.piece.kind_ne_newline

theorem kinds_unenclosed (tight : Bool) {ps : List Piece} (hps : ∀ p ∈ ps, p.isText) (n k : Int) :
    ∀ t ∈ Line.tokens n k (unenclosed tight ps), t.kind ∈ Piece.textKinds := by
  refine Token.forall_kind (Line.row_tokens n k _).tells fun p hp => ?_
  have hmap : (unenclosed tight ps).map (·.piece) = ps := by
    cases ps <;> simp [unenclosed, spread, Function.comp_def]
  rw [hmap] at hp
  exact Piece.kind_mem_textKinds (hps p hp)

theorem subgraphHead_nameless {t : Token} {ts : List Token}
    (h : ts.head?.map (·.kind) ≠ some .identifier) :
    subgraphHead s (t :: ts) = ⟨[], .failed .subgraphName, ts⟩ := by
  simp only [subgraphHead, bind_run, advance_cons, Reply.follow_done, expect_of_ne h,
    Reply.follow_failed, Reply.after_nil]

theorem subgraphHead_unclosed {t id opener close : Token} {ts : List Token} (hid : id.kind = .identifier)
    (hopener : opener.kind = .openSquare) (hts : ∀ t ∈ ts, t.kind ∈ Piece.textKinds)
    (hclose : close.kind = .newline) (rest : List Token) :
    subgraphHead s (t :: id :: opener :: (ts ++ close :: rest)) =
      ⟨[], .failed (.shapeEnd Closer.square.text), close :: rest⟩ := by
  obtain ⟨text, htext⟩ := NodeText.read_unclosed (c := .square) hts rfl hclose rest
  simp only [subgraphHead, subgraphTitle, bind_run, advance_cons, Reply.follow_done, expect_cons hid,
    nextKind_run, List.head?_cons, Option.map_some, hopener, take_run, htext, Bool.false_eq_true, if_false,
    fail_run, Reply.follow_failed, Reply.after_nil]

end Grammar

/-- A line that fails as the head of a subgraph is passed over, if no statement begins in what it
leaves. -/
theorem Step.headless_line {k : Nat} {t close : Token} {us vs more : List Token} {m : Expectation}
    (ht : t.kind = .subgraph) (hline : ∀ u ∈ us, u.kind ≠ .newline) (hclose : close.kind = .newline)
    (hvs : vs <:+ us) (hquiet : ∀ v ∈ vs, Recovers.restarts Event v.kind = false)
    (hh : Grammar.subgraphHead s (t :: (us ++ close :: more)) =
      ⟨[], .failed m, vs ++ close :: more⟩)
    (hs : t :: (us ++ close :: more) <:+ s.tokens) :
    Step s k (t :: (us ++ close :: more)) [.recovered (m.unmetAt (vs.headD close))] k more := by
  have hlength : vs.length < (t :: us).length := Nat.lt_succ_of_le hvs.length_le
  obtain ⟨last, hlast, hprevious⟩ := previous?_line (hvs.trans (us.suffix_cons t)) hlength
  have hlast' : last.kind ≠ .newline := by
    rcases List.mem_cons.mp hlast with rfl | hlast
    · rw [ht]
      decide
    · exact hline last hlast
  have hnewline : ∀ v ∈ vs, (v.kind != .newline) = true := fun v hv => by
    simpa using hline v (hvs.subset hv)
  have hlineOf : Grammar.lineOf (vs ++ close :: more) = vs := by
    rw [Grammar.lineOf, List.takeWhile_append_of_pos hnewline]
    simp [hclose]
  have hbehind : Grammar.behindLine (vs ++ close :: more) = more := by
    rw [Grammar.behindLine, List.dropWhile_append_of_pos hnewline]
    simp [hclose]
  have hresumption : resumption (Recovers.restarts Event) (s.previous? (vs ++ close :: more))
      (vs ++ close :: more) = more := by
    rw [hprevious s (close :: more) hs, Grammar.resumption_behindLine rfl hlast' (by rwa [hlineOf]), hbehind]
  have hcurrent : s.current (vs ++ close :: more) = vs.headD close := by cases vs <;> rfl
  have hstep := Step.headless (k := k) ht hh
  rwa [hcurrent, hresumption] at hstep

/-- A faulty line is reported, and the subgraph that it should begin is not opened. -/
theorem Step.faulty {k : Nat} (l : FaultyLine) (spacing : Spacing) (n : Int) {lines : List Line}
    (hs : tokensOf n (l.line spacing :: lines) <:+ s.tokens) :
    Step s k (tokensOf n (l.line spacing :: lines)) [.recovered (l.diagnostic spacing n)] k
      (tokensOf (n + 1) lines) := by
  have hsubgraph : (Piece.word subgraphWord).kind = .subgraph :=
    Piece.kind_spelled Grammar.ofWord_subgraph
  cases l with
  | nameless title quiet =>
    have hquiet : ∀ v ∈ Line.tokens n 9 (titleLine spacing.titles title),
        Recovers.restarts Event v.kind = false := by
      refine Token.forall_kind (P := fun k => Recovers.restarts Event k = false)
        (Line.row_tokens n _ _).tells fun p hp => ?_
      obtain ⟨q, hq, rfl⟩ := List.mem_map.mp hp
      exact quiet _ q hq
    have hline := Grammar.kind_ne_newline_tokens n 9 (titleLine spacing.titles title)
    have hnext : ∀ close : Token, close.kind = .newline →
        (Line.tokens n 9 (titleLine spacing.titles title) ++ close :: tokensOf (n + 1) lines).head?.map
          (·.kind) ≠ some .identifier := by
      intro close hclose
      rcases title with _ | c | q
      · simp [titleLine, Line.tokens, hclose]
      · exact fun h => by cases h
      · exact fun h => by cases h
    have hstep := Step.headless_line (k := k) hsubgraph hline rfl (List.suffix_refl _) hquiet
      (Grammar.subgraphHead_nameless (hnext _ rfl)) hs
    rcases title with _ | c | q
    · exact hstep
    · exact hstep
    · exact hstep
  | unclosed id c =>
    have hline : ∀ u ∈ (Line.tokens n 1 ((FaultyLine.unclosed id c).line spacing)).tail, u.kind ≠ .newline :=
      fun u hu => Grammar.kind_ne_newline_tokens n 1 _ u (List.mem_of_mem_tail hu)
    let close : Token := ⟨.newline, "\n", ⟨n, (FaultyLine.unclosed id c).column spacing⟩⟩
    have hh : Grammar.subgraphHead s (tokensOf n ((FaultyLine.unclosed id c).line spacing :: lines)) =
        ⟨[], .failed (.shapeEnd Closer.square.text), close :: tokensOf (n + 1) lines⟩ :=
      Grammar.subgraphHead_unclosed id.free rfl (Grammar.kinds_unenclosed spacing.titles c.isText n _)
        rfl _
    exact Step.headless_line hsubgraph hline rfl List.nil_suffix (List.forall_mem_nil _) hh hs

/-- Kinds of token that begin no statement, and stand where a subgraph has lost its head: an end, and the
words of a direction. -/
def passedKinds : List TokenKind :=
  [.endSubgraph, .direction, .topDown, .topBottom, .bottomTop, .leftRight, .rightLeft]

section nested
variable {k : Nat} (spacing : Spacing)

/-- A token that begins no statement is passed over. -/
theorem Step.passed {t : Token} {ts : List Token} (hkind : t.kind ∈ passedKinds)
    (hend : t.kind = .endSubgraph → k = 0) : Step s k (t :: ts) [] k ts := by
  have hkinds : ∀ kind ∈ passedKinds, kind ≠ .newline ∧ kind ≠ .comment ∧ kind ≠ .subgraph := by decide
  obtain ⟨hnewline, hcomment, hsubgraph⟩ := hkinds _ hkind
  have hblank : separates t = false := by simp [separates, hnewline, hcomment]
  have hfrom : ∀ kind ∈ passedKinds,
      Grammar.statementFrom none (some kind) = (do let _ ← advance : Rule Event Unit) := by
    simp [passedKinds, Grammar.statementFrom]
  have hrun : Grammar.statement 0 s (t :: ts) = ⟨[], .done (), ts⟩ := by
    refine (Grammar.statementOver_run hblank none ts).trans ?_
    rw [hfrom _ hkind]
    rfl
  exact .statement hblank hsubgraph hend (guarded_of_done hrun)

/-- The line of a direction begins no statement. -/
theorem nested_direction (direction : Option DirectionWord) (n : Int) (lines : List Line) :
    Nested s k (tokensOf n ((direction.map directionLine).toList ++ lines)) [] k
      (tokensOf (n + if direction.isSome then 1 else 0) lines) := by
  cases direction with
  | none => simpa using Nested.refl k _
  | some d =>
    have hword : (Piece.word d.word).kind ∈ passedKinds ∧ (Piece.word d.word).kind ≠ .endSubgraph := by
      rw [Piece.kind]
      cases d <;> rw [DirectionWord.word, Word.text_spelled] <;> decide
    have hkind : (Piece.word (.spelled "direction")).kind = .direction :=
      Piece.kind_spelled Grammar.ofWord_direction
    have hdirection : (Piece.word (.spelled "direction")).kind ∈ passedKinds := by
      rw [hkind]
      decide
    have hfirst : (Piece.word (.spelled "direction")).kind ≠ .endSubgraph := by
      rw [hkind]
      decide
    exact .step (.passed hdirection fun h => absurd h hfirst)
      (.step (.passed hword.1 fun h => absurd h hword.2) (.of_step (.blank rfl)))

theorem nested_statement (st : Statement) (n : Int) (lines : List Line) :
    Nested s k (tokensOf n (st.line spacing :: lines)) (st.events n) k (tokensOf (n + 1) lines) := by
  obtain ⟨close, hlines, hclose⟩ := Line.exists_tokensOf_cons n (st.line spacing) lines
  obtain ⟨t, k', left, ht, hk⟩ := Grammar.exists_tokens_statement st spacing n 1
  have hrun := Grammar.statement_run (s := s) st hclose none spacing n 1 (tokensOf (n + 1) lines)
  have hkinds : Grammar.firstKind st ≠ .newline ∧ Grammar.firstKind st ≠ .comment ∧
      Grammar.firstKind st ≠ .subgraph := by
    cases st <;> exact ⟨nofun, nofun, nofun⟩
  rw [← hk] at hkinds
  rw [hlines, ht, List.cons_append]
  rw [ht, List.cons_append] at hrun
  have hstep : Step s k _ (st.events n) k (close :: tokensOf (n + 1) lines) :=
    .statement (by simp [separates, hkinds]) hkinds.2.2
      (fun hend => absurd (hk.symm.trans hend) (Grammar.firstKind_ne st)) (guarded_of_done hrun)
  simpa using Nested.step hstep (.of_step (.blank (by simp [separates, hclose])))

/-- A subgraph is read where what is in it is. -/
theorem nested_subgraph (h : Heading) (n : Int) {inner lines : List Line} {es : List Event}
    (hinner : Grammar.Starts (tokensOf (n + h.size) inner)) {m : Int}
    (hbody : Nested s (k + 1) (tokensOf (n + h.size) inner) es (k + 1) (tokensOf m (endLine :: lines))) :
    Nested s k (tokensOf n (h.lines spacing ++ inner)) (.enter (h.subgraph [] []) :: (es ++ [.leave])) k
      (tokensOf (m + 1) lines) := by
  obtain ⟨t, ts, ht, hkind⟩ := Grammar.exists_tokens_heading h spacing n
  obtain ⟨left, hhead, hleft⟩ := Grammar.subgraphHead_run (s := s) h hinner spacing n
  obtain ⟨last, close, hend, hlast, hclose⟩ := Grammar.exists_tokens_end m lines
  have hclosed : Nested s (k + 1) (tokensOf m (endLine :: lines)) [.leave] k (tokensOf (m + 1) lines) := by
    rw [hend]
    exact .step (.leave hlast) (.of_step (.blank (by simp [separates, hclose])))
  have hinside : Nested s (k + 1) left es (k + 1) (tokensOf m (endLine :: lines)) :=
    .pastBlank (hleft ▸ hbody)
  rw [tokensOf_append, Grammar.length_lines]
  rw [ht] at hhead ⊢
  exact .step (.enter hkind hhead) (hinside.trans hclosed)

theorem starts_append (b : Block) (n : Int) {lines : List Line}
    (h : Grammar.Starts (tokensOf (n + b.size) lines)) :
    Grammar.Starts (tokensOf n (b.lines spacing ++ lines)) := by
  rw [tokensOf_append, Grammar.length_blockLines]
  rcases Grammar.starts_block spacing b n (.inr h) with hnil | hstarts
  · obtain ⟨t, ts, ht, -⟩ := h
    simp [ht] at hnil
  · exact hstarts

theorem starts_end (n : Int) (lines : List Line) : Grammar.Starts (tokensOf n (endLine :: lines)) := by
  obtain ⟨last, close, hend, hlast, -⟩ := Grammar.exists_tokens_end n lines
  exact ⟨last, _, hend, by simp [hlast, Grammar.startKinds]⟩

/-- An end that closes nothing is passed over. -/
theorem nested_end (n : Int) (lines : List Line) :
    Nested s 0 (tokensOf n (endLine :: lines)) [] 0 (tokensOf (n + 1) lines) := by
  obtain ⟨last, close, hend, hlast, hclose⟩ := Grammar.exists_tokens_end n lines
  rw [hend]
  exact .step (.passed (by simp [hlast, passedKinds]) fun _ => rfl)
    (.of_step (.blank (by simp [separates, hclose])))

theorem nested_block (b : Block) (n : Int) (lines : List Line) :
    Nested s k (tokensOf n (b.lines spacing ++ lines)) (b.events n) k (tokensOf (n + b.size) lines) := by
  induction b generalizing k n lines with
  | nil => simpa [Block.size, Block.lines, Block.events] using Nested.refl k (tokensOf n lines)
  | line st rest ih =>
    have hline : n + ((1 + rest.size : Nat) : Int) = n + 1 + rest.size := by omega
    rw [Block.size, hline]
    exact (nested_statement spacing st n _).trans (ih (n + 1) _)
  | subgraph h body rest ihb ihr =>
    have hline : n + ((h.size + (body.size + (1 + rest.size)) : Nat) : Int) =
        n + h.size + body.size + 1 + rest.size := by omega
    have hstarts := starts_append spacing body (n + h.size) (starts_end _ (rest.lines spacing ++ lines))
    have hinner := nested_subgraph spacing h n hstarts (ihb (k := k + 1) (n + h.size) _)
    rw [Block.size, hline]
    simpa [Block.lines, Block.events] using hinner.trans (ihr (n + h.size + body.size + 1) lines)

theorem starts_gap (l : FaultyLine) (g : Gap) (n : Int) (lines : List Line) :
    Grammar.Starts (tokensOf n (g.lines spacing (l.line spacing) ++ lines)) := by
  cases g with
  | here before direction body =>
    have hfirst : ∀ m more, Grammar.Starts (tokensOf m (l.line spacing :: more)) := by
      have hkind : (Piece.word (.spelled "subgraph")).kind ∈ Grammar.startKinds := by
        rw [Piece.kind_spelled Grammar.ofWord_subgraph]
        decide
      intro m more
      cases l <;> exact ⟨_, _, rfl, hkind⟩
    rw [Gap.lines, List.append_assoc]
    exact starts_append spacing before n (hfirst _ _)
  | inside before h inner behind =>
    rw [Gap.lines, List.append_assoc, List.append_assoc]
    refine starts_append spacing before n ?_
    obtain ⟨t, ts, ht, hkind⟩ := Grammar.exists_tokens_heading h spacing (n + before.size)
    rw [tokensOf_append, ht]
    exact ⟨t, _, rfl, by simp [hkind, Grammar.startKinds]⟩

/-- Each end closes the innermost subgraph that has its first line. -/
theorem nested_gap (l : FaultyLine) (g : Gap) (n : Int) {lines : List Line}
    (hs : tokensOf n (g.lines spacing (l.line spacing) ++ lines) <:+ s.tokens) :
    Nested s k (tokensOf n (g.lines spacing (l.line spacing) ++ lines))
      (g.events (l.diagnostic spacing) n) k (tokensOf (n + g.size) lines) := by
  induction g generalizing k n lines with
  | here before direction body =>
    let behind := body.lines spacing ++ lines
    let more := l.line spacing :: ((direction.map directionLine).toList ++ behind)
    have hlines : (Gap.here before direction body).lines spacing (l.line spacing) ++ lines =
        before.lines spacing ++ more := by
      simp [Gap.lines, more, behind]
    have hline : n + ((before.size + (Gap.headSize direction + body.size) : Nat) : Int) =
        n + before.size + Gap.headSize direction + body.size := by omega
    have hhead : n + before.size + Gap.headSize direction =
        n + before.size + 1 + if direction.isSome then 1 else 0 := by
      rw [Gap.headSize]
      split <;> omega
    rw [hlines] at hs ⊢
    have hbefore := nested_block (s := s) (k := k) spacing before n more
    have hfault := Step.faulty (k := k) l spacing (n + before.size) (hbefore.rest.trans hs)
    have hbody := nested_direction (s := s) (k := k) direction (n + before.size + 1) behind
    rw [← hhead] at hbody
    rw [Gap.size, hline]
    exact hbefore.trans (.step hfault (hbody.trans (nested_block spacing body _ lines)))
  | inside before h inner behind ih =>
    let more := inner.lines spacing (l.line spacing) ++ endLine :: (behind.lines spacing ++ lines)
    have hlines : (Gap.inside before h inner behind).lines spacing (l.line spacing) ++ lines =
        before.lines spacing ++ (h.lines spacing ++ more) := by
      simp [Gap.lines, more]
    have hline : n + ((before.size + (h.size + (inner.size + (1 + behind.size))) : Nat) : Int) =
        n + before.size + h.size + inner.size + 1 + behind.size := by omega
    rw [hlines] at hs ⊢
    have hbefore := nested_block (s := s) (k := k) spacing before n (h.lines spacing ++ more)
    have hmore : tokensOf (n + before.size + h.size) more <:+ s.tokens := by
      have hinside := hbefore.rest.trans hs
      rw [tokensOf_append, Grammar.length_lines] at hinside
      exact (List.suffix_append _ _).trans hinside
    have hinner := nested_subgraph spacing h (n + before.size) (starts_gap spacing l inner _ _)
      (ih (k := k + 1) _ hmore)
    have hbehind := nested_block (s := s) (k := k) spacing behind
      (n + before.size + h.size + inner.size + 1) lines
    rw [Gap.size, hline]
    simpa [Gap.events] using hbefore.trans (hinner.trans hbehind)

end nested

section document
variable (spacing : Spacing) (d : DirectionWord) (l : FaultyLine) (g : Gap) (behind : Block)

theorem ofText_gap : (Stream.ofText (g.text spacing d (l.line spacing) behind)).tokens =
    tokensOf 1 (headerLine d :: (g.lines spacing (l.line spacing) ++ endLine :: behind.lines spacing)) := by
  apply Stream.ofText_textOf
  rw [List.forall_mem_cons, List.forall_mem_append, List.forall_mem_cons]
  exact ⟨⟨Piece.stops_space _, Piece.stops_newline rfl, trivial⟩,
    g.fits_lines spacing (l.fits_line spacing), ⟨Piece.stops_newline rfl, trivial⟩,
    behind.fits_lines spacing⟩

/-- Behind the header the text is read to its end with no subgraph open. -/
theorem Grammar.document_gap {depth : Nat} (hg : g.height ≤ depth) (hbehind : behind.height ≤ depth) :
    let s := Stream.ofText (g.text spacing d (l.line spacing) behind)
    document depth s s.tokens = ⟨.orient d.direction :: (g.events (l.diagnostic spacing) 2 ++
      behind.events (2 + g.size + 1)), .done (), []⟩ := by
  intro s
  let fault := l.diagnostic spacing
  have htokens : s.tokens = _ := ofText_gap spacing d l g behind
  obtain ⟨close, hclose, hheader⟩ :=
    header_tokensOf (s := s) d (g.lines spacing (l.line spacing) ++ endLine :: behind.lines spacing)
  rw [← htokens] at hheader
  have hrest : tokensOf 2 (g.lines spacing (l.line spacing) ++ endLine :: behind.lines spacing) <:+
      s.tokens := by
    have hsteady : Steady True header := steady_header
    have hsuffix := hsteady.rest s s.tokens
    rw [hheader] at hsuffix
    exact (List.suffix_cons close _).trans hsuffix
  have hblank : separates close = true := by simp [separates, hclose]
  have hgap := nested_gap (k := 0) spacing l g 2 hrest
  have hend := nested_end (s := s) (2 + g.size) (behind.lines spacing)
  have hmore := nested_block (s := s) (k := 0) spacing behind (2 + g.size + 1) []
  rw [List.append_nil] at hmore
  have hread := hgap.trans (hend.trans hmore)
  have hnested := Nested.step (.blank hblank) hread
  have hshallow : Shallow depth false (g.events fault 2 ++ behind.events (2 + g.size + 1)) :=
    (g.shallow_events fault 2 hg).append (behind.shallow_events _ hbehind)
  have hbounded : ∀ fs, fs <+: g.events fault 2 ++ behind.events (2 + g.size + 1) →
      (Draft.start.applyAll ([.orient d.direction] ++ fs)).opened.length ≤ depth := by
    intro fs hfs
    have hopened : (Draft.start.apply (.orient d.direction)).opened.length = 0 := rfl
    have hbound := hshallow.bounded fs hfs (Draft.start.apply (.orient d.direction))
    rwa [hopened, Nat.zero_add] at hbound
  simpa [closing] using document_of_nested hheader hnested hbounded

/-- A faulty first line of a subgraph is the one report of the text. The subgraph is not opened, so what
stands in it belongs to the subgraph around it, which its end closes; what follows that end belongs to the
one around that, and so on. Where each node belongs is all that is lost: the rest of the chart is that of
the text with an id and a title in the line, whatever they are. -/
theorem parse_faulty {limit : Limit} (hg : g.height ≤ limit.depth) (hbehind : behind.height ≤ limit.depth) :
    let chart := g.chart (l.diagnostic spacing) d behind
    parse (g.text spacing d (l.line spacing) behind) limit = chart ∧
    chart.diagnostics = [l.diagnostic spacing (2 + g.place)] ∧
    ∀ id title,
      render spacing d (g.fill id title behind) =
        g.text spacing d ((⟨id, title, none⟩ : Heading).line spacing) behind ∧
      chart = { chartOf d (g.fill id title behind) with
        subgraphs := chart.subgraphs
        diagnostics := chart.diagnostics } := by
  intro chart
  let fault := l.diagnostic spacing
  let start : Scope := { chart := { Flowchart.empty with direction := d.direction } }
  let drawn := behind.draw (2 + g.size + 1) (g.draw fault 2 start)
  refine ⟨?_, ?_, fun id title => ⟨?_, ?_⟩⟩
  · have hdraw : (start.draft .top).applyAll (g.events fault 2 ++ behind.events (2 + g.size + 1)) =
        drawn.draft .top := by
      rw [Draft.applyAll_append, g.applyAll_events, behind.applyAll_events]
    rw [parse, ofStreamWithin, Grammar.document_gap spacing d l g behind hg hbehind, ofReply_of_done rfl]
    exact congrArg Draft.chart hdraw
  · exact (behind.draw_diagnostics _ _).trans (g.draw_diagnostics fault 2 start)
  · rw [render, g.lines_fill]
    rfl
  · have hsame : drawn.drawn = ((g.fill id title behind).draw 2 start).drawn :=
      g.drawn_draw fault id title behind rfl
    calc chart = { drawn.drawn with
          subgraphs := drawn.children
          diagnostics := drawn.chart.diagnostics } := rfl
      _ = { ((g.fill id title behind).draw 2 start).drawn with
          subgraphs := drawn.children
          diagnostics := drawn.chart.diagnostics } := by rw [hsame]
      _ = _ := rfl

end document

/-- A subgraph without an id in another one, where a node follows it. -/
def namelessGap : Gap :=
  .inside .nil ⟨⟨.spelled "P", by decide⟩, none, none⟩ (.here .nil none .nil)
    (.line (.chain ⟨⟨.spelled "Q", by decide⟩, none⟩ []) .nil)

def namelessText : String := "flowchart TD\nsubgraph P\nsubgraph\nend\nQ\nend\n"

theorem parse_faulty_namelessText :
    let nameless : FaultyLine := .nameless none (by simp [titleLine])
    let chart := namelessGap.chart (nameless.diagnostic {}) .td .nil
    let limit : Limit := { depth := 1 }
    namelessGap.height ≤ limit.depth ∧ Block.nil.height ≤ limit.depth ∧
    namelessGap.text {} .td (nameless.line {}) .nil = namelessText ∧
    parse namelessText limit = chart ∧ chart.diagnostics = [⟨"Expected subgraph identifier", ⟨3, 9⟩⟩] := by
  intro nameless chart limit
  have hg : namelessGap.height ≤ limit.depth := by decide
  have hbehind : Block.nil.height ≤ limit.depth := by decide
  have htext : namelessGap.text {} .td (nameless.line {}) .nil = namelessText := by decide +kernel
  obtain ⟨hparse, hdiagnostics, -⟩ := parse_faulty {} .td nameless namelessGap .nil hg hbehind
  rw [htext] at hparse
  exact ⟨hg, hbehind, htext, hparse, hdiagnostics⟩

/-- The node stands between the two ends, and is in no subgraph. -/
theorem parse_namelessText : parse namelessText =
    { nodes := ⟨[("Q", .bare "Q" 5)]⟩
      subgraphs := [{ id := "P" }]
      diagnostics := [⟨"Expected subgraph identifier", ⟨3, 9⟩⟩] } := by
  decide +kernel

end Mermaid.Flowchart
