import Mermaid.Proofs.Flowchart.Reading

/-! Subgraphs, blocks and whole flowcharts: what is written on well-formed lines is read to its end
and drawn as its statements say. -/
namespace Mermaid.Flowchart
open Rule

variable {s : Stream}

namespace Grammar

theorem ofWord_subgraph : TokenKind.ofWord "subgraph" = .subgraph := by decide

private theorem ofWord_end : TokenKind.ofWord "end" = .endSubgraph := by decide

theorem ofWord_direction : TokenKind.ofWord "direction" = .direction := by decide

private theorem ofWord_flowchart : TokenKind.ofWord "flowchart" = .flowchart := by decide

theorem direction?_word (d : DirectionWord) :
    direction? (TokenKind.ofWord d.word.text) = some d.direction := by
  cases d <;> rw [DirectionWord.word, Word.text_spelled] <;> decide

private theorem direction_run {t : Token} {d : DirectionWord} (h : t.Tells (.word d.word))
    (rest : List Token) : direction s (t :: rest) = ⟨[], .done (some d.direction), rest⟩ := by
  have hd : direction? t.kind = some d.direction := h.1 ▸ direction?_word d
  simp only [direction, bind_run, nextKind_run, Reply.follow_done, List.head?_cons,
    Option.map_some, Option.bind_some, hd, advance_cons, pure_run, Reply.after_nil]

private theorem subgraphTitle_run (title : Option Title) {close : Token}
    (hclose : close.kind = .newline) (tight : Bool) (id : String) (n k : Int)
    (rest : List Token) :
    subgraphTitle id s (Line.tokens n k (titleLine tight title) ++ close :: rest) =
      ⟨[], .done (title.map (·.text)), close :: rest⟩ := by
  match title with
  | none =>
    simp only [subgraphTitle, titleLine, Line.tokens, List.nil_append, bind_run, nextKind_run,
      Reply.follow_done, List.head?_cons, Option.map_some, hclose, pure_run, Reply.after_nil,
      Option.map_none]
  | some (.quoted q) =>
    simp only [subgraphTitle, titleLine, Line.tokens, List.cons_append, List.nil_append, bind_run,
      nextKind_run, Reply.follow_done, List.head?_cons, Option.map_some, Piece.kind, advance_cons,
      pure_run, Reply.after_nil]
    rfl
  | some (.bracketed c) =>
    have hopen : (opener .rectangle).kind = .openSquare := rfl
    have hread := NodeText.read_caption (c := .square) (y := closer .rectangle) rfl rfl c tight n
      (k + (Placed.chars ⟨true, .sign (opener .rectangle)⟩).length) (close :: rest)
    simp only [subgraphTitle, titleLine, Line.tokens, List.cons_append, bind_run, nextKind_run,
      Reply.follow_done, List.head?_cons, Option.map_some, Piece.kind, hopen, advance_cons,
      take_run, hread, if_true, pure_run, Reply.after_nil]
    rfl

private theorem Starts.ne_direction {ts : List Token} (h : Starts ts) :
    ts.head?.map (·.kind) ≠ some .direction := by
  obtain ⟨t, rest, rfl, hk⟩ := h
  have := (startKinds_ne _ hk).2.2
  simpa using this

/-- The head of a subgraph is read up to the line break behind it. -/
theorem subgraphHead_run (h : Heading) {rest : List Token} (hrest : Starts rest)
    (spacing : Spacing) (n : Int) : ∃ left,
    subgraphHead s (tokensOf n (h.lines spacing) ++ rest) =
      ⟨[], .done (h.subgraph [] []), left⟩ ∧ left.dropWhile separates = rest := by
  obtain ⟨t, k₁, ht, _, _⟩ := Line.exists_tokens_cons n 1 ⟨false, .word (.spelled "subgraph")⟩
    (⟨true, .word h.id.toWord⟩ :: titleLine spacing.titles h.title)
  obtain ⟨id, k₂, hid, htell, _⟩ := Line.exists_tokens_cons n k₁ ⟨true, .word h.id.toWord⟩
    (titleLine spacing.titles h.title)
  have hkind : id.kind = .identifier := htell.1.trans h.id.free
  have hlexeme : id.lexeme = h.id.text := htell.2
  have hline : ∀ more, Line.tokens n 1 (h.line spacing) ++ more =
      t :: id :: (Line.tokens n k₂ (titleLine spacing.titles h.title) ++ more) := by
    intro more
    rw [Heading.line, ht, hid]
    rfl
  obtain ⟨close, hlines, hclose⟩ := Line.exists_tokensOf_cons n (h.line spacing)
    (h.direction.map directionLine).toList
  have hhead : ∀ more : List Token, subgraphHead s (t :: id ::
      (Line.tokens n k₂ (titleLine spacing.titles h.title) ++ close :: more)) =
      ((accept .direction : Rule Event Bool) s (more.dropWhile separates)).follow
        fun given ts => (if given then do
            skipBlankLines
            return { id := h.id.text, title := h.title.map (·.text), direction := ← direction }
          else return { id := h.id.text, title := h.title.map (·.text) } :
            Rule Event Subgraph) s ts := by
    intro more
    simp only [subgraphHead, bind_run, advance_cons, Reply.follow_done, expect_cons hkind,
      subgraphTitle_run h.title hclose, skipBlankLines_run, dropWhile_close hclose, hlexeme,
      Reply.after_nil]
  rw [Heading.lines, hlines, List.append_assoc, hline, List.cons_append, hhead]
  cases hd : h.direction with
  | none =>
    refine ⟨rest, ?_, hrest.dropWhile⟩
    simp only [Option.map_none, Option.toList_none, tokensOf, List.nil_append, hrest.dropWhile,
      accept_of_ne hrest.ne_direction, Reply.follow_done, Bool.false_eq_true, if_false, pure_run,
      Reply.after_nil, Heading.subgraph, hd]
  | some d =>
    obtain ⟨w, k₃, hw, hdirection, _⟩ := Line.exists_tokens_cons (n + 1) 1
      ⟨false, .word (.spelled "direction")⟩ [⟨true, .word d.word⟩]
    obtain ⟨u, k₄, hu, hword, _⟩ := Line.exists_tokens_cons (n + 1) k₃ ⟨true, .word d.word⟩ []
    obtain ⟨break', hlast, hbreak⟩ := Line.exists_tokensOf_cons (n + 1) (directionLine d) []
    have hkind' : w.kind = .direction := hdirection.1.trans (Piece.kind_spelled ofWord_direction)
    have hnw : separates w = false := by simp [separates, hkind']
    have hnu : separates u = false := by
      have hn := (Piece.word d.word).kind_ne_newline
      have hc := (Piece.word d.word).kind_ne_comment
      simp [separates, hword.1, hn, hc]
    refine ⟨break' :: rest, ?_, ?_⟩
    · rw [Option.map_some, Option.toList_some, hlast, directionLine, hw, hu]
      simp only [Line.tokens, tokensOf, List.cons_append, List.nil_append, List.dropWhile_cons, hnw, hnu,
        Bool.false_eq_true, if_false,
        accept_cons hkind', Reply.follow_done, if_true, bind_run, skipBlankLines_run,
        direction_run hword, pure_run, Reply.after_nil, Heading.subgraph, hd, Option.map_some]
    · rw [dropWhile_close hbreak, hrest.dropWhile]

theorem length_lines (spacing : Spacing) (h : Heading) : (h.lines spacing).length = h.size := by
  cases hd : h.direction <;> simp [Heading.lines, Heading.size, hd]

theorem length_blockLines (spacing : Spacing) (b : Block) : (b.lines spacing).length = b.size := by
  induction b with
  | nil => rfl
  | line st rest ih => rw [Block.lines, List.length_cons, ih, Block.size, Nat.add_comm]
  | subgraph h body rest ihb ihr =>
    rw [Block.lines, List.length_append, List.length_append, List.length_cons, length_lines, ihb,
      ihr, Block.size]
    omega

/-- What may follow the lines of a block: the end of the text, or the token that the block stops
at. -/
def Closes (stop : Option TokenKind) (rest : List Token) : Prop :=
  (stop = none ∧ rest = []) ∨
    (stop = some .endSubgraph ∧ ∃ t ts, rest = t :: ts ∧ t.kind = .endSubgraph)

private theorem Closes.iterate {stop : Option TokenKind} {rest : List Token}
    (h : Closes stop rest) (step : Unit → Rule Event Unit) :
    iterate (fun t => some t.kind != stop) step () s rest = ⟨[], .done (), rest⟩ := by
  rcases h with ⟨rfl, rfl⟩ | ⟨rfl, t, ts, rfl, ht⟩
  · exact iterate_nil ()
  · exact iterate_stop (by simp [ht]) () ts

private theorem Closes.ready {stop : Option TokenKind} {rest : List Token}
    (h : Closes stop rest) {t : Token} (ht : t.kind ≠ .endSubgraph) : (some t.kind != stop) = true := by
  rcases h with ⟨rfl, _⟩ | ⟨rfl, _⟩
  · rfl
  · simpa using ht

/-- The tokens of a block and what follows it stand where a statement can. -/
theorem starts_block (spacing : Spacing) (b : Block) (n : Int) {rest : List Token}
    (hrest : rest = [] ∨ Starts rest) :
    tokensOf n (b.lines spacing) ++ rest = [] ∨ Starts (tokensOf n (b.lines spacing) ++ rest) := by
  cases b with
  | nil => exact hrest
  | line st more =>
    obtain ⟨t, k', left, ht, hk⟩ := exists_tokens_statement st spacing n 1
    rw [Block.lines, tokensOf, ht]
    exact .inr ⟨t, _, rfl, hk ▸ firstKind_mem st⟩
  | subgraph h body more =>
    obtain ⟨t, k₁, ht, hword, _⟩ := Line.exists_tokens_cons n 1 ⟨false, .word (.spelled "subgraph")⟩
      (⟨true, .word h.id.toWord⟩ :: titleLine spacing.titles h.title)
    have hk : t.kind = .subgraph := hword.1.trans (Piece.kind_spelled ofWord_subgraph)
    rw [Block.lines, Heading.lines, List.cons_append, tokensOf, Heading.line, ht]
    exact .inr ⟨t, _, rfl, by simp [hk, startKinds]⟩

private theorem Closes.starts {stop : Option TokenKind} {rest : List Token}
    (h : Closes stop rest) : rest = [] ∨ Starts rest := by
  rcases h with ⟨_, rfl⟩ | ⟨_, t, ts, rfl, ht⟩
  · exact .inl rfl
  · exact .inr ⟨t, ts, rfl, by simp [ht, startKinds]⟩

private theorem dropWhile_starts {ts : List Token} (h : ts = [] ∨ Starts ts) :
    ts.dropWhile separates = ts := by
  rcases h with rfl | h
  · rfl
  · exact h.dropWhile

private theorem statement_eq (depth : Nat) : ∃ inner, statement depth = statementOver inner := by
  cases depth with
  | zero => exact ⟨none, rfl⟩
  | succ depth => exact ⟨some (statement depth), rfl⟩

theorem exists_tokens_heading (h : Heading) (spacing : Spacing) (n : Int) :
    ∃ t ts, tokensOf n (h.lines spacing) = t :: ts ∧ t.kind = .subgraph := by
  obtain ⟨t, k₁, ht, hword, _⟩ := Line.exists_tokens_cons n 1 ⟨false, .word (.spelled "subgraph")⟩
    (⟨true, .word h.id.toWord⟩ :: titleLine spacing.titles h.title)
  rw [Heading.lines, tokensOf, Heading.line, ht]
  exact ⟨t, _, rfl, hword.1.trans (Piece.kind_spelled ofWord_subgraph)⟩

/-- A line that ends a subgraph is its word and its break. -/
theorem exists_tokens_end (n : Int) (lines : List Line) : ∃ last close,
    tokensOf n (endLine :: lines) = last :: close :: tokensOf (n + 1) lines ∧
      last.kind = .endSubgraph ∧ close.kind = .newline := by
  obtain ⟨close, hlines, hclose⟩ := Line.exists_tokensOf_cons n endLine lines
  obtain ⟨last, k, hend, hword, _⟩ := Line.exists_tokens_cons n 1 ⟨false, .word (.spelled "end")⟩ []
  refine ⟨last, close, ?_, hword.1.trans (Piece.kind_spelled ofWord_end), hclose⟩
  rw [hlines, endLine, hend]
  rfl

/-- A subgraph is read where its body is. -/
private theorem subgraph_run (h : Heading) {inner : Rule Event Unit} {body more : List Token}
    {last close : Token} {es : List Event} (hlast : last.kind = .endSubgraph)
    (hstarts : Starts (body ++ last :: close :: more))
    (hbody : iterate (fun t => some t.kind != some .endSubgraph) (fun _ => round inner) () s
      (body ++ last :: close :: more) = ⟨es, .done (), last :: close :: more⟩)
    (spacing : Spacing) (n : Int) :
    statementOver (some inner) s
      (tokensOf n (h.lines spacing) ++ (body ++ last :: close :: more)) =
      ⟨.enter (h.subgraph [] []) :: (es ++ [.leave]), .done (), close :: more⟩ := by
  obtain ⟨t, ts, ht, hkind⟩ := exists_tokens_heading h spacing n
  obtain ⟨left, hhead, hleft⟩ := subgraphHead_run (s := s) h hstarts spacing n
  have hfirst : Starts (tokensOf n (h.lines spacing) ++ (body ++ last :: close :: more)) := by
    rw [ht]
    exact ⟨t, _, rfl, by simp [hkind, startKinds]⟩
  have hnext : (tokensOf n (h.lines spacing) ++ (body ++ last :: close :: more)).head?.map (·.kind) =
      some .subgraph := by
    rw [ht, List.cons_append, List.head?_cons, Option.map_some, hkind]
  have hblock : block inner (some .endSubgraph) s left = ⟨es, .done (), last :: close :: more⟩ := by
    rw [block_run, hleft, hbody]
  have hinner : onOverflow (block inner (some .endSubgraph)) Event.abandon s left =
      ⟨es, .done (), last :: close :: more⟩ := by
    rw [onOverflow_of_ne (by simp [hblock]), hblock]
  simp only [statementOver, bind_run, skipBlankLines_run, hfirst.dropWhile, Reply.follow_done,
    nextKind_run, hnext, subgraph, hhead, emit_run, hinner, expect_cons hlast,
    pure_run, Reply.after_mk, List.nil_append, List.append_nil, List.cons_append]

theorem firstKind_ne (st : Statement) : firstKind st ≠ .endSubgraph := by
  cases st <;> simp [firstKind]

/-- The statements of a block are read one after the other, up to what closes the block. -/
theorem iterate_block (spacing : Spacing) (b : Block) {depth : Nat} (hb : b.height ≤ depth)
    {stop : Option TokenKind} {rest : List Token} (hrest : Closes stop rest) (n : Int) :
    iterate (fun t => some t.kind != stop) (fun _ => round (statement depth)) () s
      (tokensOf n (b.lines spacing) ++ rest) = ⟨b.events n, .done (), rest⟩ := by
  induction b generalizing depth stop rest n with
  | nil => exact hrest.iterate _
  | line st more ih =>
    obtain ⟨inner, hinner⟩ := statement_eq depth
    obtain ⟨close, hlines, hclose⟩ := Line.exists_tokensOf_cons n (st.line spacing) (more.lines spacing)
    obtain ⟨t, k', left, ht, hk⟩ := exists_tokens_statement st spacing n 1
    have hrun := statement_run (s := s) st hclose inner spacing n 1
      (tokensOf (n + 1) (more.lines spacing) ++ rest)
    have hready : (some t.kind != stop) = true := hrest.ready (hk ▸ firstKind_ne st)
    rw [ht, List.cons_append, ← hinner] at hrun
    have hround := round_done hrun (by simp)
    rw [dropWhile_close hclose, dropWhile_starts (starts_block spacing more _ hrest.starts)] at hround
    rw [Block.lines, hlines, ht, List.append_assoc, List.cons_append, List.cons_append,
      iterate_cons hready hround (by simp; omega), ih hb hrest, Reply.after_mk, Block.events]
  | subgraph h body more ihb ihr =>
    rw [Block.height, Nat.max_le] at hb
    obtain ⟨inner, rfl⟩ : ∃ inner, depth = inner + 1 := ⟨depth - 1, by omega⟩
    obtain ⟨last, close, hlines, hlast, hclose⟩ :=
      exists_tokens_end (n + h.size + body.size) (more.lines spacing)
    obtain ⟨t, ts, ht, hkind⟩ := exists_tokens_heading h spacing n
    let left := tokensOf (n + h.size + body.size + 1) (more.lines spacing) ++ rest
    have hcloses : Closes (some .endSubgraph) (last :: close :: left) :=
      .inr ⟨rfl, last, _, rfl, hlast⟩
    have hstarts : Starts (tokensOf (n + h.size) (body.lines spacing) ++ last :: close :: left) := by
      rcases starts_block spacing body (n + h.size) hcloses.starts with hnil | hs
      · simp at hnil
      · exact hs
    have hrun := subgraph_run h hlast hstarts (ihb (Nat.le_of_succ_le_succ hb.1) hcloses _) spacing n
    rw [ht, List.cons_append] at hrun
    change statement (inner + 1) s _ = _ at hrun
    have hround := round_done hrun (by simp; omega)
    rw [dropWhile_close hclose, dropWhile_starts (starts_block spacing more _ hrest.starts)] at hround
    have htokens : tokensOf n ((Block.subgraph h body more).lines spacing) ++ rest =
        t :: (ts ++ (tokensOf (n + h.size) (body.lines spacing) ++ last :: close :: left)) := by
      rw [Block.lines, tokensOf_append, tokensOf_append, length_lines, length_blockLines, hlines,
        ht]
      simp [left]
    rw [htokens, iterate_cons (hrest.ready (by simp [hkind])) hround (by simp [left]; omega),
      ihr hb.2 hrest, Reply.after_mk, Block.events]
    simp

/-- The header is read up to the line break behind it. -/
theorem header_tokensOf (d : DirectionWord) (lines : List Line) : ∃ close, close.kind = .newline ∧
    header s (tokensOf 1 (headerLine d :: lines)) =
      ⟨[.orient d.direction], .done (), close :: tokensOf 2 lines⟩ := by
  obtain ⟨close, hlines, hclose⟩ := Line.exists_tokensOf_cons 1 (headerLine d) lines
  obtain ⟨t, k, ht, hword, _⟩ := Line.exists_tokens_cons 1 1 ⟨false, .word (.spelled "flowchart")⟩
    [⟨true, .word d.word⟩]
  obtain ⟨u, k', hu, hword', _⟩ := Line.exists_tokens_cons 1 k ⟨true, .word d.word⟩ []
  have hkind : t.kind = .flowchart := hword.1.trans (Piece.kind_spelled ofWord_flowchart)
  have hblank : separates t = false := by simp [separates, hkind]
  have hblank' : separates u = false := by
    have hn := (Piece.word d.word).kind_ne_newline
    have hc := (Piece.word d.word).kind_ne_comment
    simp [separates, hword'.1, hn, hc]
  refine ⟨close, hclose, ?_⟩
  rw [hlines, headerLine, ht, hu]
  simp only [header, Line.tokens, List.cons_append, List.nil_append, bind_run,
    skipBlankLines_run, List.dropWhile_cons, hblank, hblank', Bool.false_eq_true, if_false,
    Reply.follow_done, accept_cons hkind, if_true, direction_run hword', emit_run, Reply.after_mk]
  rfl

/-- The document of a flowchart is read to the end of the text. -/
theorem document_run (spacing : Spacing) (d : DirectionWord) (b : Block) {depth : Nat}
    (hb : b.height ≤ depth) :
    document depth s (tokensOf 1 (headerLine d :: b.lines spacing)) =
      ⟨.orient d.direction :: b.events 2, .done (), []⟩ := by
  obtain ⟨close, hclose, hheader⟩ := header_tokensOf (s := s) d (b.lines spacing)
  have hcloses : Closes none [] := .inl ⟨rfl, rfl⟩
  have hstarts := starts_block spacing b 2 hcloses.starts
  have hblock := iterate_block (s := s) spacing b hb hcloses 2
  rw [List.append_nil] at hstarts hblock
  rw [document, bind_run, hheader, Reply.follow_done, block_run, dropWhile_close hclose,
    dropWhile_starts hstarts, hblock, Reply.after_mk, List.singleton_append]

end Grammar

/-- A well-formed flowchart whose subgraphs are nested within the limit is read as the chart that it
means, without diagnostics. -/
theorem parse_render (spacing : Spacing) (d : DirectionWord) (b : Block) {limit : Limit}
    (hb : b.height ≤ limit.depth) :
    parse (render spacing d b) limit = chartOf d b ∧ (parse (render spacing d b) limit).diagnostics = [] := by
  have hparse : parse (render spacing d b) limit = chartOf d b := by
    have hdraw := b.applyAll_events 2 { chart := { Flowchart.empty with direction := d.direction } }
      .top
    rw [parse, ofStreamWithin, ofText_render, Grammar.document_run spacing d b hb, ofReply_of_done rfl]
    exact congrArg Draft.chart hdraw
  have hdiagnostics : (chartOf d b).diagnostics = [] := b.draw_diagnostics 2 _
  exact ⟨hparse, (congrArg (·.diagnostics) hparse).trans hdiagnostics⟩

/-- A subgraph with a title and a direction, a labelled arrow of length two, and a style class. -/
def sampleBlock : Block :=
  let name (s : String) (h : s.toList ≠ [] ∧ s.toList.all Text.isWord)
      (hf : TokenKind.ofWord (Word.spelled s h).text = .identifier) : Name := ⟨.spelled s h, hf⟩
  let a := name "A" (by decide) (by decide)
  let b := name "B" (by decide) (by decide)
  let hot := name "hot" (by decide) (by decide)
  .subgraph
    ⟨name "S" (by decide) (by decide), some (.bracketed (.words [.spelled "two", .spelled "steps"])),
      some .tb⟩
    (.line (.chain ⟨a, some (.rhombus, .quoted ⟨" go? ".toList, by simp⟩)⟩
      [(⟨.solidArrow, 1, some [.spelled "yes"]⟩, ⟨b, none⟩)]) .nil)
    (.line (.styleClass hot) (.line (.assign a [b] hot) .nil))

theorem parse_render_sampleBlock : sampleBlock.height ≤ 1 ∧
    parse ("flowchart LR\nsubgraph S [two steps]\ndirection TB\n" ++
      "A\x7b\" go? \"\x7d ---> |yes| B\nend\nclassDef hot\nclass A,B hot\n") { depth := 1 } =
      { direction := .leftRight
        nodes := ⟨[("A", ⟨"A", "go?", .rhombus, 4, ["hot"]⟩),
          ("B", ⟨"B", "B", .rectangle, 4, ["hot"]⟩)]⟩
        edges := [⟨"A", "B", .solid, .normal, some "yes", 2⟩]
        subgraphs := [⟨"S", some "two steps", some .topDown, true, ["A", "B"], []⟩]
        styles := [⟨"hot", ""⟩] } := by
  let limit : Limit := { depth := 1 }
  have hheight : sampleBlock.height ≤ limit.depth := by decide
  have htext : render {} .lr sampleBlock = "flowchart LR\nsubgraph S [two steps]\ndirection TB\n" ++
      "A\x7b\" go? \"\x7d ---> |yes| B\nend\nclassDef hot\nclass A,B hot\n" := by
    decide +kernel
  obtain ⟨hparse, _⟩ := parse_render {} .lr sampleBlock hheight
  rw [htext] at hparse
  refine ⟨hheight, hparse.trans ?_⟩
  decide +kernel

end Mermaid.Flowchart
