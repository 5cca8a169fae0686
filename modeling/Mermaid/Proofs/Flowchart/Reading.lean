import Mermaid.Flowchart.Grammar
import Mermaid.Proofs.Flowchart.Meaning
import Mermaid.Proofs.Grammar.Running

/-! The grammar of flowcharts on the tokens of well-formed lines: every statement is read to its
end and writes the events that draw it. -/
namespace Mermaid.Flowchart
open Rule

variable {s : Stream}

namespace NodeText

theorem text_kinds : ∀ k ∈ Piece.textKinds, k ≠ .newline ∧ k ≠ .pipe ∧
    k.closesShape = false ∧ hugsLeft k = false ∧ hugsRight k = false := by
  decide

private theorem pieces_close {c : Closer} {close : Token} (last : Option TokenKind)
    (hc : c.kind.closesShape) (hclose : close.kind = c.kind) (rest : List Token) :
    pieces c last (close :: rest) = ([], true, rest) := by
  have hn : close.kind ≠ .newline := by
    intro h
    rw [← hclose, h] at hc
    cases hc
  rw [pieces, if_neg hn, if_pos hclose]

/-- The pieces read from words behind another one are the words with a space before each. -/
private theorem pieces_words {c : Closer} {ts : List Token} {last : TokenKind} {close : Token}
    (hts : ∀ t ∈ ts, t.kind ∈ Piece.textKinds) (hlast : last ∈ Piece.textKinds)
    (hc : c.kind.closesShape) (hclose : close.kind = c.kind) (rest : List Token) :
    ∃ texts, pieces c (some last) (ts ++ close :: rest) = (texts, true, rest) ∧
      String.join texts = String.join (ts.map (" " ++ ·.lexeme)) := by
  induction ts generalizing last with
  | nil => exact ⟨[], pieces_close _ hc hclose rest, rfl⟩
  | cons t ts ih =>
    rw [List.forall_mem_cons] at hts
    obtain ⟨hn, hp, hs, hl, _⟩ := text_kinds _ hts.1
    have hk : t.kind ≠ c.kind := fun h => by simp [← h, hs] at hc
    have hr := (text_kinds _ hlast).2.2.2.2
    obtain ⟨texts, hpieces, hjoin⟩ := ih hts.2 hts.1
    refine ⟨" " :: t.lexeme :: texts, ?_, ?_⟩
    · simp [pieces, hn, hp, hk, endsWith, hs, hpieces, gap, hl, hr]
    · simp [hjoin, String.append_assoc]

private theorem intercalate_eq_join (w : String) (ws : List String) :
    " ".intercalate (w :: ws) = w ++ String.join (ws.map (" " ++ ·)) := by
  induction ws generalizing w with
  | nil => simp
  | cons v ws ih => rw [String.intercalate_cons_cons, ih]; simp [String.append_assoc]

/-- A text of words is read up to its closing delimiter. -/
theorem read_words {c : Closer} {ts : List Token} {close : Token}
    (hts : ∀ t ∈ ts, t.kind ∈ Piece.textKinds) (hc : c.kind.closesShape)
    (hclose : close.kind = c.kind) (rest : List Token) :
    read c (ts ++ close :: rest) =
      ((Text.joinWords (ts.map (·.lexeme)), true), rest) := by
  cases ts with
  | nil =>
    rw [read, List.nil_append, pieces_close none hc hclose]
    rfl
  | cons t ts =>
    rw [List.forall_mem_cons] at hts
    obtain ⟨hn, hp, hs, hl, _⟩ := text_kinds _ hts.1
    have hk : t.kind ≠ c.kind := fun h => by simp [← h, hs] at hc
    obtain ⟨texts, hpieces, hjoin⟩ := pieces_words hts.2 hts.1 hc hclose rest
    have hall : pieces c none (t :: (ts ++ close :: rest)) =
        ("" :: t.lexeme :: texts, true, rest) := by
      simp [pieces, hn, hp, hk, endsWith, hs, hpieces, gap]
    rw [read, List.cons_append, hall, Text.joinWords, List.map_cons, intercalate_eq_join]
    simp [hjoin, Function.comp_def]

/-- The text of a node or a title is read up to its closing delimiter. -/
theorem read_caption {c : Closer} {y : Sign} (hc : c.kind.closesShape) (hy : y.kind = c.kind)
    (caption : Caption) (tight : Bool) (n k : Int) (rest : List Token) :
    read c (Line.tokens n k (enclosed tight caption.pieces y) ++ rest) =
      ((caption.text, true), rest) := by
  obtain ⟨ts, close, htokens, hts, hclose⟩ := Line.tokens_enclosed n k tight caption.pieces y
  have hkinds := Token.forall_kind hts fun p hp => Piece.kind_mem_textKinds (Caption.isText p hp)
  have htext : Text.joinWords (caption.pieces.map (·.lexeme)) = caption.text := by
    cases caption with
    | words ws =>
      rw [Caption.pieces, List.map_map]
      exact joinWords_words ws
    | quoted q => rw [Caption.pieces, List.map_singleton, Text.joinWords,
        String.intercalate_singleton]; rfl
  rw [htokens, List.append_assoc, List.singleton_append,
    read_words hkinds hc (hclose.1.trans hy), Token.map_lexeme hts, htext]

end NodeText

namespace Grammar

private theorem shape?_opener (shape : NodeShape) : shape? (opener shape).kind =
    some (shape, ⟨(closer shape).kind, (closer shape).text⟩) := by
  cases shape <;> rfl

private theorem closesShape_closer (shape : NodeShape) : (closer shape).kind.closesShape := by
  cases shape <;> rfl

/-- A node is read where no opening delimiter follows it by accident. -/
theorem node_run {t : NodeTerm} {id : Token} {rest : List Token} (hid : id.lexeme = t.id.text)
    (hrest : (rest.head?.map (·.kind)).bind shape? = none) (k : Int) :
    node id s (Line.tokens id.position.line k (bodyLine t.body) ++ rest) =
      ⟨[t.event id.position.line], .done t.id.text, rest⟩ := by
  cases hb : t.body with
  | none =>
    simp only [node, bodyLine, Line.tokens, List.nil_append, bind_run, nextKind_run,
      Reply.follow_done, hrest, emit_run, Reply.after_mk, pure_run, NodeTerm.event, hb, hid,
      List.append_nil]
  | some body =>
    obtain ⟨shape, caption⟩ := body
    simp only [node, bodyLine, Line.tokens, List.cons_append, bind_run, nextKind_run,
      Reply.follow_done, List.head?_cons, Option.map_some, Option.bind_some, Piece.kind,
      shape?_opener, advance_cons, take_run,
      NodeText.read_caption (closesShape_closer shape) (c := ⟨(closer shape).kind, (closer shape).text⟩) rfl,
      if_true, emit_run, Reply.after_mk,
      pure_run, NodeTerm.event, hb, hid, List.append_nil, List.nil_append]

private theorem label_kinds : ∀ k ∈ Piece.textKinds, k ≠ .pipe ∧ k ≠ .newline := by decide

private theorem readLabel_words {ts : List Token} {close : Token}
    (hts : ∀ t ∈ ts, t.kind ∈ Piece.textKinds) (hclose : close.kind = .pipe) (rest : List Token) :
    readLabel (ts ++ close :: rest) = (Text.joinWords (ts.map (·.lexeme)), close :: rest) := by
  have hin : ∀ t ∈ ts, (t.kind != .pipe && t.kind != .newline) = true := by
    intro t ht
    obtain ⟨hp, hn⟩ := label_kinds _ (hts t ht)
    simp [hp, hn]
  rw [readLabel, span_append hin (by simp [hclose])]

private theorem labelText_ne (w : Word) (ws : List Word) : wordsText (w :: ws) ≠ "" := by
  intro h
  have hu : Text.Unpadded (wordsText (w :: ws)).toList := by
    apply Text.Unpadded.intercalate (by simp)
    simp only [List.mem_map, forall_exists_index, and_imp, forall_apply_eq_imp_iff₂]
    exact fun w _ => w.unpadded
  exact hu.ne_nil (by rw [h]; rfl)

private theorem edgeLabel_run {rest : List Token} (hrest : rest.head?.map (·.kind) ≠ some .pipe)
    (label : Option (List Word)) (tight : Bool) (n k : Int) :
    edgeLabel s (Line.tokens n k (labelLine tight label) ++ rest) =
      ⟨[], .done (labelText label), rest⟩ := by
  cases label with
  | none =>
    simp only [edgeLabel, labelLine, Line.tokens, List.nil_append, bind_run, accept_of_ne hrest,
      Reply.follow_done, Bool.false_eq_true, if_false, pure_run, Reply.after_nil, labelText]
  | some ws =>
    obtain ⟨ts, close, htokens, hts, hclose⟩ := Line.tokens_enclosed n
      (k + (Placed.chars ⟨true, .sign pipe⟩).length) tight (ws.map .word) pipe
    have hkinds := Token.forall_kind hts (P := (· ∈ Piece.textKinds)) fun p hp => by
      obtain ⟨w, _, rfl⟩ := List.mem_map.mp hp
      exact Piece.kind_mem_textKinds rfl
    have htext : Text.joinWords (ts.map (·.lexeme)) = wordsText ws := by
      rw [Token.map_lexeme hts, List.map_map]
      exact joinWords_words ws
    have hpipe : close.kind = .pipe := hclose.1
    have hlabel : (if wordsText ws = "" then none else some (wordsText ws)) =
        labelText (some ws) := by
      cases ws with
      | nil => rfl
      | cons w ws => exact if_neg (labelText_ne w ws)
    simp only [edgeLabel, labelLine, Line.tokens, htokens, List.append_assoc, List.cons_append,
      List.nil_append, bind_run, accept_cons, Piece.kind, kind_pipe, Reply.follow_done, if_true,
      take_run, readLabel_words hkinds hpipe, expect_cons hpipe, pure_run, Reply.after_nil, htext,
      hlabel]

private theorem arrow?_kind (f : LinkForm) (extra : Nat) : ∃ a, arrow? f.kind = some a ∧
    a.style = f.style ∧ a.head = f.head ∧ a.minLength (String.ofList (f.chars extra)) = extra + 1 := by
  cases f
  all_goals
    refine ⟨_, rfl, rfl, rfl, ?_⟩
    simp [Arrow.minLength, LinkForm.chars]
    try omega

/-- A target is read together with the arrow to it. -/
private theorem link_run {l : Link} {t : NodeTerm} {arrow id : Token} {rest : List Token}
    (harrow : arrow.Tells (.link l.text)) (hid : id.Tells (.word t.id.toWord))
    (hrest : (rest.head?.map (·.kind)).bind shape? = none) (tight : Bool) (source : String)
    (k k' : Int) :
    link source s (arrow :: (Line.tokens id.position.line k (labelLine tight l.label) ++
      id :: (Line.tokens id.position.line k' (bodyLine t.body) ++ rest))) =
      ⟨[t.event id.position.line, .link (l.edge source t.id.text)], .done t.id.text, rest⟩ := by
  obtain ⟨a, ha, hstyle, hhead, hlength⟩ := arrow?_kind l.form l.extra
  have hkind : arrow? arrow.kind = some a := harrow.1 ▸ ha
  have hlexeme : arrow.lexeme = String.ofList (l.form.chars l.extra) := harrow.2
  have hidentifier : id.kind = .identifier := hid.1.trans t.id.free
  have hpipe : (id :: (Line.tokens id.position.line k' (bodyLine t.body) ++ rest)).head?.map
      (·.kind) ≠ some .pipe := by
    simp [hidentifier]
  simp only [link, bind_run, advance_cons, Reply.follow_done, hkind, edgeLabel_run hpipe,
    expect_cons hidentifier, node_run hid.2 hrest, emit_run, pure_run, Reply.after_mk,
    List.append_nil, List.nil_append, hlexeme, hstyle, hhead, hlength, Link.edge,
    List.singleton_append]

private theorem shape?_link (f : LinkForm) : shape? f.kind = none := by cases f <;> rfl

private theorem head_targets (targets : List (Link × NodeTerm)) {close : Token}
    (hclose : close.kind = .newline) (tight : Bool) (n k : Int) (rest : List Token) :
    ((Line.tokens n k (targetsLine tight targets) ++ close :: rest).head?.map (·.kind)).bind
      shape? = none ∧
    (Line.tokens n k (targetsLine tight targets) ++ close :: rest).head?.map (·.kind) ≠
      some .solidLink := by
  cases targets with
  | nil => simp [targetsLine, Line.tokens, hclose, shape?]
  | cons target targets =>
    obtain ⟨l, t⟩ := target
    have hne : l.form.kind ≠ .solidLink := by cases l.form <;> decide
    simpa [targetsLine, Link.line, Line.tokens, Piece.kind, Link.text, shape?_link] using hne

/-- The links of a chain are read to the end of the line. -/
private theorem links_run (targets : List (Link × NodeTerm)) {close : Token}
    (hclose : close.kind = .newline) (tight : Bool) (source : String) (n k : Int)
    (rest : List Token) : ∃ last,
    links source s (Line.tokens n k (targetsLine tight targets) ++ close :: rest) =
      ⟨targetEvents n source targets, .done last, close :: rest⟩ := by
  induction targets generalizing source k with
  | nil =>
    have hready : (arrow? close.kind).isSome = false := by simp [hclose, arrow?]
    exact ⟨source, iterate_stop hready source rest⟩
  | cons target targets ih =>
    obtain ⟨l, t⟩ := target
    obtain ⟨arrow, k₁, harrow, htell, _⟩ := Line.exists_tokens_cons n k ⟨true, .link l.text⟩
      (labelLine tight l.label ++ (t.line true ++ targetsLine tight targets))
    obtain ⟨k₂, hlabel⟩ := Line.exists_tokens_append n k₁ (labelLine tight l.label)
      (t.line true ++ targetsLine tight targets)
    obtain ⟨id, k₃, hid, htell', rfl⟩ := Line.exists_tokens_cons n k₂ ⟨true, .word t.id.toWord⟩
      (bodyLine t.body ++ targetsLine tight targets)
    obtain ⟨k₄, hbody⟩ := Line.exists_tokens_append id.position.line k₃ (bodyLine t.body)
      (targetsLine tight targets)
    obtain ⟨last, hlast⟩ := ih t.id.text k₄
    have hline : targetsLine tight ((l, t) :: targets) = ⟨true, .link l.text⟩ ::
        (labelLine tight l.label ++ (t.line true ++ targetsLine tight targets)) := by
      simp [targetsLine, Link.line]
    have hterm : t.line true ++ targetsLine tight targets = ⟨true, .word t.id.toWord⟩ ::
        (bodyLine t.body ++ targetsLine tight targets) := rfl
    rw [hline, harrow, hlabel, hterm, hid, hbody]
    have hready : (arrow? arrow.kind).isSome := by
      rw [htell.1]
      cases l with
      | mk form extra label => cases form <;> rfl
    have hlink := link_run (s := s) htell htell'
      (head_targets targets hclose tight id.position.line k₄ rest).1 tight source k₁ k₃
    refine ⟨last, ?_⟩
    rw [links]
    simp only [List.append_assoc, List.cons_append]
    rw [iterate_cons hready hlink, ← links, hlast, Reply.after_mk]
    · rfl
    · simp only [List.length_append, List.length_cons]
      omega

private theorem nodeOrEdge_run (source : NodeTerm) (targets : List (Link × NodeTerm))
    {close : Token} (hclose : close.kind = .newline) (spacing : Spacing) (n k : Int)
    (rest : List Token) :
    nodeOrEdge s
      (Line.tokens n k ((Statement.chain source targets).line spacing) ++ close :: rest) =
      ⟨(Statement.chain source targets).events n, .done (), close :: rest⟩ := by
  obtain ⟨id, k₁, hid, htell, rfl⟩ := Line.exists_tokens_cons n k ⟨false, .word source.id.toWord⟩
    (bodyLine source.body ++ targetsLine spacing.labels targets)
  obtain ⟨k₂, hbody⟩ := Line.exists_tokens_append id.position.line k₁ (bodyLine source.body)
    (targetsLine spacing.labels targets)
  obtain ⟨hshape, hlink⟩ := head_targets targets hclose spacing.labels id.position.line k₂ rest
  obtain ⟨last, hlast⟩ := links_run (s := s) targets hclose spacing.labels source.id.text id.position.line
    k₂ rest
  have hline : (Statement.chain source targets).line spacing = ⟨false, .word source.id.toWord⟩ ::
      (bodyLine source.body ++ targetsLine spacing.labels targets) := rfl
  rw [hline, hid, hbody, List.cons_append, List.append_assoc]
  simp only [nodeOrEdge, bind_run, advance_cons, Reply.follow_done, node_run htell.2 hshape,
    nextKind_run, hlink, if_false, hlast, Reply.after_mk, pure_run, List.append_nil,
    List.nil_append, List.singleton_append, Statement.events]

private theorem styleClass_run (name : Name) {close : Token} (hclose : close.kind = .newline)
    (spacing : Spacing) (n k : Int) (rest : List Token) :
    styleClass s (Line.tokens n k ((Statement.styleClass name).line spacing) ++ close :: rest) =
      ⟨(Statement.styleClass name).events n, .done (), close :: rest⟩ := by
  have hline : restOfLine (close :: rest) = ([], close :: rest) :=
    restOfLine_close (List.forall_mem_nil _) hclose rest
  simp only [Statement.line, Line.tokens, List.cons_append, List.nil_append, styleClass, bind_run,
    advance_cons, Reply.follow_done, Piece.kind, Piece.lexeme, expect_cons, name.free, skipLine,
    take_run, hline, emit_run, Reply.after_mk]
  rfl

private theorem further_run (ids : List Name) {next : Token} (hnext : next.kind = .identifier)
    (tight : Bool) (read : List String) (n k : Int) (rest : List Token) :
    iterate (·.kind == .comma) furtherId read s
      (Line.tokens n k (furtherLine tight ids) ++ next :: rest) =
      ⟨[], .done (read ++ ids.map (·.text)), next :: rest⟩ := by
  induction ids generalizing read k with
  | nil =>
    have hready : (next.kind == TokenKind.comma) = false := by simp [hnext]
    rw [List.map_nil, List.append_nil]
    exact iterate_stop hready read rest
  | cons id ids ih =>
    obtain ⟨c, k₁, hc, hcomma, _⟩ := Line.exists_tokens_cons n k ⟨!tight, .sign .comma⟩
      (⟨!tight, .word id.toWord⟩ :: furtherLine tight ids)
    obtain ⟨t, k₂, ht, hword, _⟩ := Line.exists_tokens_cons n k₁ ⟨!tight, .word id.toWord⟩
      (furtherLine tight ids)
    have hline : furtherLine tight (id :: ids) = ⟨!tight, .sign .comma⟩ ::
        ⟨!tight, .word id.toWord⟩ :: furtherLine tight ids := rfl
    have hidentifier : t.kind = .identifier := hword.1.trans id.free
    have hlexeme : t.lexeme = id.text := hword.2
    have hready : (c.kind == .comma) = true := by
      rw [hcomma.1]
      rfl
    have hstep : furtherId read s (c :: t :: (Line.tokens n k₂ (furtherLine tight ids) ++
        next :: rest)) =
        ⟨[], .done (read ++ [id.text]), Line.tokens n k₂ (furtherLine tight ids) ++ next :: rest⟩ := by
      simp only [furtherId, bind_run, advance_cons, Reply.follow_done, expect_cons hidentifier,
        pure_run, Reply.after_nil, hlexeme]
    rw [hline, hc, ht, List.cons_append, List.cons_append, iterate_cons hready hstep (by simp), ih,
      Reply.after_nil, List.map_cons, List.append_assoc, List.singleton_append]

private theorem classAssignment_run (first : Name) (more : List Name) (className : Name)
    {close : Token} (hclose : close.kind = .newline) (spacing : Spacing) (n k : Int)
    (rest : List Token) :
    classAssignment s
      (Line.tokens n k ((Statement.assign first more className).line spacing) ++ close :: rest) =
      ⟨(Statement.assign first more className).events n, .done (), close :: rest⟩ := by
  obtain ⟨w, k₁, hw, _, hn⟩ := Line.exists_tokens_cons n k ⟨false, .word .classWord⟩
    (⟨true, .word first.toWord⟩ :: (furtherLine spacing.lists more ++ [⟨true, .word className.toWord⟩]))
  obtain ⟨id, k₂, hid, hfirst, _⟩ := Line.exists_tokens_cons n k₁ ⟨true, .word first.toWord⟩
    (furtherLine spacing.lists more ++ [⟨true, .word className.toWord⟩])
  obtain ⟨k₃, hmore⟩ := Line.exists_tokens_append n k₂ (furtherLine spacing.lists more)
    [⟨true, .word className.toWord⟩]
  obtain ⟨name, k₄, hname, hlast, _⟩ := Line.exists_tokens_cons n k₃
    ⟨true, .word className.toWord⟩ []
  have hkind : id.kind = .identifier := hfirst.1.trans first.free
  have hlexeme : id.lexeme = first.text := hfirst.2
  have hkind' : name.kind = .identifier := hlast.1.trans className.free
  have hlexeme' : name.lexeme = className.text := hlast.2
  have hline : restOfLine (close :: rest) = ([], close :: rest) :=
    restOfLine_close (List.forall_mem_nil _) hclose rest
  rw [Statement.line, hw, hid, hmore, hname, List.cons_append, List.cons_append, List.append_assoc,
    List.cons_append]
  simp only [classAssignment, bind_run, advance_cons, Reply.follow_done, expect_cons hkind,
    further_run more hkind', expect_cons hkind', emit_run, skipLine, take_run, Line.tokens,
    List.nil_append, hline, pure_run, Reply.after_mk, List.append_nil, hn,
    hlexeme, hlexeme', Statement.events, List.map_cons, List.singleton_append]

/-- The kinds of token with which a statement of the source begins, and the one that ends a
subgraph. -/
def startKinds : List TokenKind := [.identifier, .classDef, .classWord, .subgraph, .endSubgraph]

/-- Tokens that begin with a statement or with the end of a subgraph. -/
def Starts (ts : List Token) : Prop := ∃ t rest, ts = t :: rest ∧ t.kind ∈ startKinds

theorem startKinds_ne : ∀ k ∈ startKinds, k ≠ .newline ∧ k ≠ .comment ∧ k ≠ .direction := by
  decide

theorem Starts.dropWhile {ts : List Token} (h : Starts ts) : ts.dropWhile separates = ts := by
  obtain ⟨t, rest, rfl, hk⟩ := h
  obtain ⟨hn, hc, _⟩ := startKinds_ne _ hk
  simp [separates, hn, hc]

/-- The kind of token that a statement begins with. -/
def firstKind : Statement → TokenKind
  | .chain _ _ => .identifier
  | .styleClass _ => .classDef
  | .assign _ _ _ => .classWord

theorem firstKind_mem (st : Statement) : firstKind st ∈ startKinds := by
  cases st <;> simp [firstKind, startKinds]

private theorem ofWord_classDef : TokenKind.ofWord "classDef" = .classDef := by decide

theorem exists_tokens_statement (st : Statement) (spacing : Spacing) (n k : Int) :
    ∃ t k' more, Line.tokens n k (st.line spacing) = t :: Line.tokens n k' more ∧
      t.kind = firstKind st := by
  cases st with
  | chain source targets => exact ⟨_, _, _, rfl, source.id.free⟩
  | styleClass name =>
    obtain ⟨t, k', ht, htell, _⟩ := Line.exists_tokens_cons n k
      ⟨false, .word (.spelled "classDef")⟩ [⟨true, .word name.toWord⟩]
    exact ⟨t, k', _, ht, htell.1.trans (Piece.kind_spelled ofWord_classDef)⟩
  | assign first more className =>
    obtain ⟨t, k', ht, htell, _⟩ := Line.exists_tokens_cons n k
      ⟨false, .word .classWord⟩
      (⟨true, .word first.toWord⟩ :: (furtherLine spacing.lists more ++ [⟨true, .word className.toWord⟩]))
    exact ⟨t, k', _, ht, htell.1.trans Word.ofWord_classWord⟩

/-- A statement is read up to the end of its line. -/
theorem statement_run (st : Statement) {close : Token} (hclose : close.kind = .newline)
    (inner : Option (Rule Event Unit)) (spacing : Spacing) (n k : Int) (rest : List Token) :
    statementOver inner s (Line.tokens n k (st.line spacing) ++ close :: rest) =
      ⟨st.events n, .done (), close :: rest⟩ := by
  obtain ⟨t, k', more, htokens, hkind⟩ := exists_tokens_statement st spacing n k
  have hstarts : Starts (Line.tokens n k (st.line spacing) ++ close :: rest) := by
    rw [htokens]
    exact ⟨t, _, rfl, hkind ▸ firstKind_mem st⟩
  have hhead : (Line.tokens n k (st.line spacing) ++ close :: rest).head?.map (·.kind) =
      some (firstKind st) := by
    rw [htokens, List.cons_append, List.head?_cons, Option.map_some, hkind]
  simp only [statementOver, bind_run, skipBlankLines_run, hstarts.dropWhile, Reply.follow_done,
    nextKind_run, hhead, Reply.after_nil]
  cases st with
  | chain source targets => exact nodeOrEdge_run source targets hclose spacing n k rest
  | styleClass name => exact styleClass_run name hclose spacing n k rest
  | assign first more className =>
    exact classAssignment_run first more className hclose spacing n k rest

end Grammar
end Mermaid.Flowchart
