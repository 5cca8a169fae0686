import Mermaid.ClassDiagram.Grammar
import Mermaid.Proofs.ClassDiagram.MemberReading

/-! The grammar of class diagrams on the tokens of well-formed lines: every statement is read to its
end and writes the events that it stands for. -/
namespace Mermaid.ClassDiagram
open Rule Token

variable {s : Stream} {n : Int} {ts rest : List Token} {close : Token}

namespace Grammar

section body

/-- A member is read up to the end of its line. -/
theorem member_run {t : MemberText} (h : Row n ts t.pieces) (hclose : close.kind = .newline)
    (owner : String) (more : List Token) :
    member owner s (ts ++ close :: more) = ⟨[t.event owner], .done (), close :: more⟩ := by
  rw [member, bind_run, take_run, Reply.follow_done, MemberLine.read_run h hclose more]
  cases t <;> rfl

/-- One round of the body of a class. -/
def bodyRound (owner : String) : Rule Event Unit := do
  let before ← look List.length
  member owner
  progressPast before
  skipBlankLines

theorem body_run (owner : String) (ts : List Token) : body owner s ts =
    iterate (fun t => t.kind != .closeCurly && t.kind != .classWord) (fun _ => bodyRound owner) () s
      (ts.dropWhile separates) := rfl

/-- The token that a line of a class begins with. -/
theorem exists_first (line : BodyLine) (h : Row n ts line.text.pieces) : ∃ t us,
    ts = t :: us ∧ separates t = false ∧ (t.kind != .closeCurly && t.kind != .classWord) = true := by
  obtain ⟨text, hfree⟩ := line
  have hword : ∀ (t : Token) (w : Word), t.Tells (.word w) → TokenKind.ofWord w.text ≠ .classWord →
      separates t = false ∧ (t.kind != .closeCurly && t.kind != .classWord) = true := by
    intro t w ht hw
    have hne := wordKinds_ne _ (kind_mem_wordKinds ht)
    have hk : t.kind ≠ .classWord := ht.1 ▸ hw
    simp only [List.mem_cons, List.not_mem_nil, not_or] at hne
    simp [separates, hne, hk]
  have hsign : ∀ (t : Token) (x : Sign), t.Tells (.sign x) →
      x.kind ∈ [TokenKind.plus, .minus, .hash, .tilde, .openGuillemet] →
      separates t = false ∧ (t.kind != .closeCurly && t.kind != .classWord) = true := by
    intro t x ht hx
    have hk : t.kind = x.kind := ht.1
    simp only [List.mem_cons, List.not_mem_nil, or_false] at hx
    rcases hx with hx | hx | hx | hx | hx <;> simp [separates, hk, hx]
  cases text with
  | stereotype ws =>
    obtain ⟨t, us, rfl, ht, _, _⟩ := h.exists_cons
    exact ⟨t, us, rfl, hsign t _ ht (by decide)⟩
  | member m =>
    obtain ⟨marker, type, name, tail⟩ := m
    cases marker with
    | some mark =>
      obtain ⟨t, us, rfl, ht, _, _⟩ := h.exists_cons
      exact ⟨t, us, rfl, hsign t _ ht (by cases mark <;> decide)⟩
    | none =>
      cases type with
      | none =>
        obtain ⟨t, us, rfl, ht, _, _⟩ := h.exists_cons
        exact ⟨t, us, rfl, hword t name ht (by simpa [MemberText.declares] using hfree)⟩
      | some type =>
        obtain ⟨t, us, rfl, ht, _, _⟩ := h.exists_cons
        exact ⟨t, us, rfl, hword t type.word ht (by simpa [MemberText.declares] using hfree)⟩

theorem bodyRound_run {t : MemberText} (h : Row n ts t.pieces) (hne : ts ≠ [])
    (hclose : close.kind = .newline) (owner : String) (more : List Token) :
    bodyRound owner s (ts ++ close :: more) =
      ⟨[t.event owner], .done (), more.dropWhile separates⟩ := by
  have hprogress : (progressPast (ts ++ close :: more).length : Rule Event Unit) s
      (close :: more) = ⟨[], .done (), close :: more⟩ := by
    have hlength : (close :: more).length ≠ (ts ++ close :: more).length := by
      have := List.length_pos_iff.mpr hne
      simp only [List.length_append]
      omega
    rw [progressPast, if_neg hlength]
  simp only [bodyRound, bind_run, look_run, Reply.follow_done, member_run h hclose, hprogress,
    skipBlankLines_run, dropWhile_close hclose, Reply.after_mk, List.append_nil, List.nil_append]

/-- The lines of a class are read one after the other, up to the closing brace. -/
private theorem iterate_body (spacing : Spacing) (owner : String) (body : List BodyLine)
    {last : Token} (hlast : last.kind = .closeCurly) (n : Int) (more : List Token) :
    iterate (fun t => t.kind != .closeCurly && t.kind != .classWord) (fun _ => bodyRound owner) () s
      ((tokensOf n (body.map (·.text.line spacing false)) ++ last :: more).dropWhile separates) =
      ⟨body.map (·.text.event owner), .done (), last :: more⟩ := by
  induction body generalizing n with
  | nil =>
    have hblank : separates last = false := by simp [separates, hlast]
    have hready : (last.kind != .closeCurly && last.kind != .classWord) = false := by simp [hlast]
    rw [List.map_nil, tokensOf, List.nil_append, List.dropWhile_cons, hblank]
    exact iterate_stop hready () more
  | cons line body ih =>
    obtain ⟨close, htokens, hclose⟩ := Line.exists_tokensOf_cons n (line.text.line spacing false)
      (body.map (·.text.line spacing false))
    have hrow := Line.row_tokens n 1 (line.text.line spacing false)
    rw [pieces_text] at hrow
    obtain ⟨t, us, ht, hblank, hready⟩ := exists_first line hrow
    have hround := bodyRound_run (s := s) hrow (by simp [ht]) hclose owner
      (tokensOf (n + 1) (body.map (·.text.line spacing false)) ++ last :: more)
    rw [ht, List.cons_append] at hround
    have hlength := (List.dropWhile_sublist separates (l := tokensOf (n + 1)
      (body.map (·.text.line spacing false)) ++ last :: more)).length_le
    rw [List.map_cons, htokens, ht, List.append_assoc, List.cons_append, List.cons_append,
      List.dropWhile_cons, hblank]
    simp only [Bool.false_eq_true, if_false]
    rw [iterate_cons hready hround (by simp only [List.length_append, List.length_cons] at *; omega),
      ih, Reply.after_mk, List.map_cons, List.singleton_append]

end body

/-- The kinds of token with which a statement of the source begins. -/
def startKinds : List TokenKind := [.title, .classWord, .identifier, .openGuillemet]

/-- Tokens that are none, or begin with a statement. -/
def Opens (ts : List Token) : Prop := ∀ t ∈ ts.head?, t.kind ∈ startKinds

private theorem startKinds_ne : ∀ k ∈ startKinds,
    k ≠ .newline ∧ k ≠ .comment ∧ k ≠ .openCurly := by
  decide

theorem Opens.dropWhile (h : Opens ts) : ts.dropWhile separates = ts := by
  apply dropWhile_separates
  intro t ht
  obtain ⟨hn, hc, _⟩ := startKinds_ne _ (h t ht)
  simp [separates, hn, hc]

private theorem Opens.ne_openCurly (h : Opens ts) : ts.head?.map (·.kind) ≠ some .openCurly := by
  cases ts with
  | nil => simp
  | cons t ts => simpa using (startKinds_ne _ (h t rfl)).2.2

section statements

private theorem restText_run {ws : List Word} (h : Row n ts (ws.map .word))
    (hclose : close.kind = .newline) (more : List Token) :
    restText s (ts ++ close :: more) = ⟨[], .done (wordsText ws), close :: more⟩ := by
  have hkinds := fun t ht => wordKinds_ne _ (row_wordKinds h t ht)
  have hline := restOfLine_close (fun t ht => List.ne_of_not_mem_cons (hkinds t ht)) hclose more
  have hfilter : ts.filter (·.kind != .comment) = ts := by
    rw [List.filter_eq_self]
    intro t ht
    have := hkinds t ht
    simp only [List.mem_cons, not_or] at this
    simp [this]
  simp only [restText, skipLine, bind_run, take_run, hline, Reply.follow_done, hfilter, pure_run,
    Reply.after_nil, h.lexemes, joinWords_words]

private theorem title_run {w : Word} {ws : List Word} (h : Row n ts (.word w :: ws.map .word))
    (hclose : close.kind = .newline) (more : List Token) :
    title s (ts ++ close :: more) = ⟨[.title (wordsText ws)], .done (), close :: more⟩ := by
  obtain ⟨t, us, rfl, _, _, hus⟩ := h.exists_cons
  simp only [title, List.cons_append, bind_run, advance_cons, Reply.follow_done,
    restText_run hus hclose, emit_run, Reply.after_nil]

private theorem declare_run {w : Word} {name : Name} (h : Row n ts [.word w, .word name.toWord])
    (hclose : close.kind = .newline) {more : List Token} (hmore : Opens more) :
    declaration s (ts ++ close :: more) = ⟨[.declare name.text n], .done (), more⟩ := by
  obtain ⟨t, us, rfl, _, _, hus⟩ := h.exists_cons
  obtain ⟨u, vs, rfl, hu, rfl, hvs⟩ := hus.exists_cons
  obtain rfl := Row.nil_iff.mp hvs
  have hkind : u.kind = .identifier := hu.1.trans name.free
  have hlexeme : u.lexeme = name.text := hu.2
  simp only [declaration, List.cons_append, List.nil_append, bind_run, advance_cons,
    Reply.follow_done, expect_cons hkind, emit_run, skipBlankLines_run, dropWhile_close hclose,
    hmore.dropWhile, accept_of_ne hmore.ne_openCurly, Bool.false_eq_true, if_false, pure_run,
    Reply.after_mk, List.append_nil, hlexeme]

/-- A class with a body is read from its opening brace on. -/
theorem opened_run {w : Word} {name : Name}
    (h : Row n ts [.word w, .word name.toWord, .sign .openCurly]) (more : List Token) :
    declaration s (ts ++ more) = ((body name.text s more).follow fun _ rest =>
      (expect .closeCurly .classEnd s rest : Reply Event Token).follow fun _ rest =>
        ⟨[], .done (), rest⟩).after [.declare name.text n] := by
  obtain ⟨t, us, rfl, _, _, hus⟩ := h.exists_cons
  obtain ⟨u, vs, rfl, hu, rfl, hvs⟩ := hus.exists_cons
  obtain ⟨v, ws, rfl, hv, _, hws⟩ := hvs.exists_cons
  obtain rfl := Row.nil_iff.mp hws
  have hkind : u.kind = .identifier := hu.1.trans name.free
  have hlexeme : u.lexeme = name.text := hu.2
  have hopen : v.kind = .openCurly := hv.1
  have hblank : separates v = false := by simp [separates, hopen]
  simp only [declaration, List.cons_append, List.nil_append, bind_run, advance_cons,
    Reply.follow_done, expect_cons hkind, emit_run, skipBlankLines_run, List.dropWhile_cons, hblank,
    Bool.false_eq_true, if_false, accept_cons hopen, if_true, pure_run, Reply.after_nil, hlexeme]

/-- A class with a body is read up to the line break behind its closing brace. -/
private theorem define_run (spacing : Spacing) {w : Word} {name : Name} {m : Int}
    (h : Row n ts [.word w, .word name.toWord, .sign .openCurly]) (hclose : close.kind = .newline)
    (lines : List BodyLine) {last : Token} (hlast : last.kind = .closeCurly) (more : List Token) :
    declaration s (ts ++ close ::
        (tokensOf m (lines.map (·.text.line spacing false)) ++ last :: more)) =
      ⟨.declare name.text n :: lines.map (·.text.event name.text), .done (), more⟩ := by
  rw [opened_run h, body_run, dropWhile_close hclose, iterate_body spacing name.text lines hlast m more,
    Reply.follow_done, expect_cons hlast, Reply.follow_done, Reply.after_nil, Reply.after_mk,
    Reply.after_mk, List.append_nil, List.singleton_append]

private theorem annotate_run {ws : List Word} {name : Name}
    (h : Row n ts (stereotypePieces ws ++ [.word name.toWord])) (more : List Token) :
    stereotype s (ts ++ more) =
      ⟨(Statement.annotate ws name).events n, .done (), more⟩ := by
  obtain ⟨us, vs, rfl, hus, hvs⟩ := h.exists_append
  obtain ⟨o, xs, rfl, _, _, hxs⟩ := hus.exists_cons
  obtain ⟨words, ys, rfl, hwords, hys⟩ := hxs.exists_append
  obtain ⟨c, zs, rfl, hc, _, hzs⟩ := hys.exists_cons
  obtain rfl := Row.nil_iff.mp hzs
  obtain ⟨u, us, rfl, hu, rfl, hus⟩ := hvs.exists_cons
  obtain rfl := Row.nil_iff.mp hus
  have hkind : u.kind = .identifier := hu.1.trans name.free
  have hlexeme : u.lexeme = name.text := hu.2
  have htext := MemberLine.stereotypeText_run hwords hc.1 (u :: more)
  simp only [stereotype, List.cons_append, List.append_assoc, List.nil_append, bind_run,
    advance_cons, Reply.follow_done, take_run, htext, expect_cons hkind, emit_run, Reply.after_mk, hlexeme,
    Statement.events]

/-- The token of a relation is no piece of a link and no string. -/
theorem ne_of_relation? {k : TokenKind} (h : (relation? k).isSome) : isFragment k = false ∧ k ≠ .string := by
  cases k <;> simp_all [relation?, isFragment]

private theorem links_relation : ∀ e ∈ Lexicon.links, relation? e.2 = some (relationOf e.2) := by
  simp [Lexicon.links, relation?, relationOf]

private theorem relation?_link (l : LinkText) : relation? l.kind = some (relationOf l.kind) := by
  obtain ⟨p, hp, _⟩ := l.spelled
  exact links_relation _ hp

def cardinalityPieces (q : Option Quotation) : List Piece := q.toList.map .quotation

def labelPieces : Option (List Word) → List Piece
  | none => []
  | some ws => .sign colon :: ws.map .word

theorem beforeLink_of_not {inClass : TokenKind → Bool} {u : Token} (h : inClass u.kind = false)
    (more : List Token) : beforeLink inClass (u :: more) = false := by
  cases more <;> simp [beforeLink, h]

private theorem sourceCardinality_none {u : Token} (hu : u.kind ≠ .string) (more : List Token) :
    sourceCardinality s (u :: more) = ⟨[], .done none, u :: more⟩ := by
  have hview : beforeLink (· == .string) (u :: more) = false := beforeLink_of_not (by simpa using hu) more
  simp only [sourceCardinality, bind_run, look_run, Reply.follow_done, hview, Bool.false_eq_true, if_false,
    pure_run, Reply.after_nil]

private theorem sourceCardinality_run {q : Option Quotation} (h : Row n ts (cardinalityPieces q))
    {link : Token} (hlink : (relation? link.kind).isSome) (more : List Token) :
    sourceCardinality s (ts ++ link :: more) = ⟨[], .done (q.map (·.text)), link :: more⟩ := by
  cases q with
  | none =>
    obtain rfl := Row.nil_iff.mp h
    exact sourceCardinality_none (ne_of_relation? hlink).2 more
  | some q =>
    obtain ⟨t, us, rfl, ht, _, hus⟩ := h.exists_cons
    obtain rfl := Row.nil_iff.mp hus
    have hstring : t.kind = .string := ht.1
    have hlexeme : t.lexeme = q.text := ht.2
    have hview : beforeLink (· == .string) (t :: link :: more) = true := by
      simp [beforeLink, hstring, hlink]
    simp only [sourceCardinality, List.cons_append, List.nil_append, bind_run, look_run,
      Reply.follow_done, hview, if_true, advance_cons, pure_run, Reply.after_nil, hlexeme,
      Option.map_some]

private theorem targetCardinality_run {q : Option Quotation} (h : Row n ts (cardinalityPieces q))
    {u : Token} (hu : u.kind = .identifier) (more : List Token) :
    (ts ++ u :: more).dropWhile (isFragment ·.kind) = ts ++ u :: more ∧
      targetCardinality s (ts ++ u :: more) = ⟨[], .done (q.map (·.text)), u :: more⟩ := by
  cases q with
  | none =>
    obtain rfl := Row.nil_iff.mp h
    have hne : u.kind ≠ .string := by simp [hu]
    refine ⟨by simp [hu, isFragment], ?_⟩
    simp [targetCardinality, bind_run, hne]
  | some q =>
    obtain ⟨t, us, rfl, ht, _, hus⟩ := h.exists_cons
    obtain rfl := Row.nil_iff.mp hus
    have hstring : t.kind = .string := ht.1
    have hlexeme : t.lexeme = q.text := ht.2
    refine ⟨by simp [hstring, isFragment], ?_⟩
    simp [targetCardinality, bind_run, hstring, hlexeme]

/-- The label of a relation is read, and what uses it goes on at the end of the line. -/
private theorem label_run {label : Option (List Word)} (h : Row n ts (labelPieces label))
    (hclose : close.kind = .newline) (more : List Token) (next : Option String → Rule Event Unit) :
    ((accept .colon : Rule Event Bool) s (ts ++ close :: more)).follow (fun given rest =>
      (if given then some <$> restText >>= next else pure none >>= next : Rule Event Unit) s rest) =
      next (label.map wordsText) s (close :: more) := by
  cases label with
  | none =>
    obtain rfl := Row.nil_iff.mp h
    have hne : (close :: more).head?.map (·.kind) ≠ some .colon := by simp [hclose]
    simp only [List.nil_append, accept_of_ne hne, Reply.follow_done, Bool.false_eq_true, if_false,
      bind_run, pure_run, Reply.after_nil, Option.map_none]
  | some ws =>
    obtain ⟨c, us, rfl, hc, _, hus⟩ := h.exists_cons
    have hcolon : c.kind = .colon := hc.1
    simp only [List.cons_append, accept_cons hcolon, Reply.follow_done, if_true, bind_run, map_run,
      restText_run hus hclose, Reply.after_nil, Option.map_some]

/-- A relation is read from its link on, past what is left of a longer link behind it. -/
private theorem relation_run (source link : Token) {u : Token} {b : Name} {q q' : Option Quotation}
    {label : Option (List Word)} {trail ps ls : List Token} (htrail : ∀ f ∈ trail, isFragment f.kind)
    (hps : Row n ps (cardinalityPieces q')) (hu : u.Tells (.word b.toWord))
    (hls : Row n ls (labelPieces label)) (hclose : close.kind = .newline) (type : RelationType)
    (more : List Token) :
    relation source (q.map (·.text)) type s (link :: (trail ++ (ps ++ u :: (ls ++ close :: more)))) =
      ⟨[.mention source.lexeme source.position.line, .mention b.text u.position.line, .relate {
        source := source.lexeme, target := b.text, type, label := label.map wordsText
        sourceCardinality := q.map (·.text), targetCardinality := q'.map (·.text) }],
        .done (), close :: more⟩ := by
  have hidentifier : u.kind = .identifier := hu.1.trans b.free
  have htarget : u.lexeme = b.text := hu.2
  obtain ⟨hdrop, hcardinality⟩ := targetCardinality_run (s := s) hps hidentifier (ls ++ close :: more)
  have hpieces : (trail ++ (ps ++ u :: (ls ++ close :: more))).dropWhile (isFragment ·.kind) =
      ps ++ u :: (ls ++ close :: more) := by
    rw [List.dropWhile_append_of_pos (by simpa using htrail), hdrop]
  simp only [relation, bind_run, emit_run, Reply.follow_done, advance_cons, take_run, hpieces,
    hcardinality, expect_cons hidentifier, label_run hls hclose more]
  simp [htarget]

/-- A relation with what is left of a longer link beside its link. In front of the link that is one
token at most, and none behind a cardinality. -/
theorem linked_run {t link u : Token} {a b : Name} {q q' : Option Quotation}
    {label : Option (List Word)} {type : RelationType} {qs lead trail ps ls : List Token}
    (ht : t.Tells (.word a.toWord)) (hqs : Row n qs (cardinalityPieces q))
    (hlead : lead = [] ∨ ∃ f, lead = [f] ∧ isFragment f.kind ∧ q = none)
    (hlink : relation? link.kind = some type) (htrail : ∀ f ∈ trail, isFragment f.kind)
    (hps : Row n ps (cardinalityPieces q')) (hu : u.Tells (.word b.toWord))
    (hls : Row n ls (labelPieces label)) (hclose : close.kind = .newline) (more : List Token) :
    relationOrReference s
        (t :: (qs ++ (lead ++ link :: (trail ++ (ps ++ u :: (ls ++ close :: more)))))) =
      ⟨[.mention a.text t.position.line, .mention b.text u.position.line, .relate {
        source := a.text, target := b.text, type, label := label.map wordsText
        sourceCardinality := q.map (·.text), targetCardinality := q'.map (·.text) }],
        .done (), close :: more⟩ := by
  have hsource : t.lexeme = a.text := ht.2
  have hsome : (relation? link.kind).isSome := by rw [hlink]; rfl
  have htype : (some link.kind).bind relation? = some type := hlink
  obtain ⟨hfragment, -⟩ := ne_of_relation? hsome
  have hrelation := relation_run (s := s) t link (q := q) htrail hps hu hls hclose type more
  rw [hsource] at hrelation
  rcases hlead with rfl | ⟨f, rfl, hf, rfl⟩
  · have hview : ∀ left, beforeLink isFragment (link :: left) = false := beforeLink_of_not hfragment
    simp only [relationOrReference, bind_run, advance_cons, Reply.follow_done, List.nil_append,
      sourceCardinality_run hqs hsome, look_run, hview, Bool.false_eq_true, if_false, nextKind_run,
      List.head?_cons, Option.map_some, htype, hrelation, Reply.after_nil]
  · obtain rfl := Row.nil_iff.mp hqs
    have hstring : f.kind ≠ .string := by
      intro hk
      rw [hk] at hf
      cases hf
    have hview : ∀ left, beforeLink isFragment (f :: link :: left) = true := by
      simp [beforeLink, hf, hsome]
    simp only [relationOrReference, bind_run, advance_cons, Reply.follow_done, List.nil_append,
      List.singleton_append, sourceCardinality_none hstring, look_run, hview, if_true, nextKind_run,
      List.head?_cons, Option.map_some, htype, Reply.after_nil]
    exact hrelation

private def RelationTerm.pieces (r : RelationTerm) : List Piece :=
  .word r.source.toWord :: (cardinalityPieces r.sourceCardinality ++
    .link r.link :: (cardinalityPieces r.targetCardinality ++
      .word r.target.toWord :: labelPieces r.label))

theorem pieces_cardinalityLine (q : Option Quotation) :
    (cardinalityLine q).map (·.piece) = cardinalityPieces q := by
  cases q <;> rfl

private theorem pieces_relation (r : RelationTerm) :
    r.line.map (·.piece) = RelationTerm.pieces r := by
  have hlabel : (labelLine r.label).map (·.piece) = labelPieces r.label := by
    cases r.label with
    | none => rfl
    | some ws => simp [labelLine, labelPieces, pieces_wordsLine]
  simp [RelationTerm.line, RelationTerm.pieces, pieces_cardinalityLine, hlabel]

private theorem relate_run {r : RelationTerm} (h : Row n ts (RelationTerm.pieces r))
    (hclose : close.kind = .newline) (more : List Token) :
    relationOrReference s (ts ++ close :: more) =
      ⟨(Statement.relate r).events n, .done (), close :: more⟩ := by
  obtain ⟨t, us, rfl, ht, hline, hus⟩ := h.exists_cons
  obtain ⟨qs, vs, rfl, hqs, hvs⟩ := hus.exists_append
  obtain ⟨link, ws, rfl, hlink, _, hws⟩ := hvs.exists_cons
  obtain ⟨ps, xs, rfl, hps, hxs⟩ := hws.exists_append
  obtain ⟨u, label, rfl, hu, rfl, hlabel⟩ := hxs.exists_cons
  have hkind : link.kind = r.link.kind := hlink.1
  have htype : relation? link.kind = some (relationOf r.link.kind) := by
    rw [hkind, relation?_link]
  have hrun := linked_run (s := s) ht hqs (.inl rfl) htype (List.forall_mem_nil _) hps hu hlabel hclose more
  simp only [List.cons_append, List.append_assoc]
  rw [hline] at hrun
  exact hrun

/-- A class by its name, where neither a cardinality nor a link follows. -/
theorem reference_run {name : Name} {t u : Token} {more : List Token} (ht : t.Tells (.word name.toWord))
    (hstring : beforeLink (· == .string) (u :: more) = false)
    (hfragment : beforeLink isFragment (u :: more) = false) (hrelation : relation? u.kind = none) :
    relationOrReference s (t :: u :: more) =
      ((accept .colon : Rule Event Bool) s (u :: more)).follow fun withMember rest =>
        ((if withMember then member name.text else pure () : Rule Event Unit) s rest).after
          [.mention name.text t.position.line] := by
  have hlexeme : t.lexeme = name.text := ht.2
  have hnone : (some u.kind).bind relation? = none := hrelation
  simp only [relationOrReference, sourceCardinality, bind_run, advance_cons, Reply.follow_done,
    look_run, hstring, hfragment, Bool.false_eq_true, if_false, pure_run, Reply.after_nil, nextKind_run,
    List.head?_cons, Option.map_some, hnone, emit_run, hlexeme]

theorem mention_run {name : Name} (h : Row n ts [.word name.toWord]) (hclose : close.kind = .newline)
    (more : List Token) : relationOrReference s (ts ++ close :: more) =
      ⟨(Statement.mention name).events n, .done (), close :: more⟩ := by
  obtain ⟨t, us, rfl, ht, rfl, hus⟩ := h.exists_cons
  obtain rfl := Row.nil_iff.mp hus
  have hne : (close :: more).head?.map (·.kind) ≠ some .colon := by simp [hclose]
  rw [List.cons_append, List.nil_append, reference_run ht (beforeLink_of_not (by simp [hclose]) _)
    (beforeLink_of_not (by rw [hclose]; rfl) _) (by rw [hclose]; rfl), accept_of_ne hne]
  rfl

private theorem describe_run {name : Name} {text : MemberText}
    (h : Row n ts (.word name.toWord :: .sign colon :: text.pieces))
    (hclose : close.kind = .newline) (more : List Token) :
    relationOrReference s (ts ++ close :: more) =
      ⟨(Statement.describe name text).events n, .done (), close :: more⟩ := by
  obtain ⟨t, us, rfl, ht, rfl, hus⟩ := h.exists_cons
  obtain ⟨c, vs, rfl, hc, _, hvs⟩ := hus.exists_cons
  have hcolon : c.kind = .colon := hc.1
  rw [List.cons_append, List.cons_append, reference_run ht (beforeLink_of_not (by simp [hcolon]) _)
    (beforeLink_of_not (by rw [hcolon]; rfl) _) (by rw [hcolon]; rfl), accept_cons hcolon,
    Reply.follow_done, if_pos rfl, member_run hvs hclose]
  rfl

private theorem ofWord_title : TokenKind.ofWord "title" = .title := by decide

/-- The kind of token that a statement begins with. -/
def firstKind : Statement → TokenKind
  | .title _ => .title
  | .declare _ | .define _ _ => .classWord
  | .describe _ _ | .mention _ | .relate _ => .identifier
  | .annotate _ _ => .openGuillemet

theorem exists_tokens_statement (spacing : Spacing) (st : Statement) (n : Int) :
    ∃ t u us, tokensOf n (st.lines spacing) = t :: u :: us ∧ t.kind = firstKind st := by
  have htwo : ∀ (l : Line) (lines : List Line), l ≠ [] → ∃ t u us,
      tokensOf n (l :: lines) = t :: u :: us ∧ ∀ p ∈ l.head?, t.Tells p.piece := by
    intro l lines hl
    cases l with
    | nil => exact absurd rfl hl
    | cons p l =>
      obtain ⟨t, k, ht, htell, _⟩ := Line.exists_tokens_cons n 1 p l
      obtain ⟨close, hlines, _⟩ := Line.exists_tokensOf_cons n (p :: l) lines
      rw [hlines, ht]
      cases hl : Line.tokens n k l with
      | nil => exact ⟨t, close, _, rfl, by simpa using htell⟩
      | cons u us => exact ⟨t, u, _, rfl, by simpa using htell⟩
  have hfirst : ∀ (l : Line) (lines : List Line) (p : Placed) (more : Line), l = p :: more →
      p.piece.kind = firstKind st → ∃ t u us,
        tokensOf n (l :: lines) = t :: u :: us ∧ t.kind = firstKind st := by
    rintro _ lines p more rfl hk
    obtain ⟨t, u, us, hts, htell⟩ := htwo (p :: more) lines (List.cons_ne_nil _ _)
    exact ⟨t, u, us, hts, (htell p rfl).1.trans hk⟩
  cases st with
  | title ws => exact hfirst _ _ _ _ rfl (Piece.kind_spelled ofWord_title)
  | declare name => exact hfirst _ _ _ _ rfl Word.ofWord_classWord
  | define name body => exact hfirst _ _ _ _ rfl Word.ofWord_classWord
  | describe name text => exact hfirst _ _ _ _ rfl name.free
  | annotate ws name => exact hfirst _ _ _ _ rfl rfl
  | mention name => exact hfirst _ _ _ _ rfl name.free
  | relate r => exact hfirst _ _ _ _ rfl r.source.free

private theorem firstKind_mem (st : Statement) : firstKind st ∈ startKinds := by
  cases st <;> simp [firstKind, startKinds]

private theorem opens_statement (spacing : Spacing) (st : Statement) (n : Int) (rest : List Token) :
    Opens (tokensOf n (st.lines spacing) ++ rest) := by
  obtain ⟨t, u, us, ht, hk⟩ := exists_tokens_statement spacing st n
  rw [ht, Opens]
  simpa [hk] using firstKind_mem st

theorem opens_statements (spacing : Spacing) (ss : List Statement) (n : Int) :
    Opens (tokensOf n (ss.flatMap (·.lines spacing))) := by
  cases ss with
  | nil => simp [Opens, tokensOf]
  | cons st ss =>
    rw [List.flatMap_cons, tokensOf_append]
    exact opens_statement spacing st n _

private theorem singleLine (n : Int) (l : Line) (rest : List Token) : ∃ close,
    tokensOf n [l] ++ rest = Line.tokens n 1 l ++ close :: rest ∧ close.kind = .newline := by
  obtain ⟨close, hlines, hclose⟩ := Line.exists_tokensOf_cons n l []
  exact ⟨close, by rw [hlines, tokensOf, List.append_assoc, List.singleton_append], hclose⟩

/-- A statement is read up to the end of its last line, or past it. -/
theorem statement_run (spacing : Spacing) (st : Statement) (n : Int) (hrest : Opens rest) : ∃ left,
    statement s (tokensOf n (st.lines spacing) ++ rest) = ⟨st.events n, .done (), left⟩ ∧
      left.dropWhile separates = rest ∧ left.length ≤ rest.length + 1 := by
  obtain ⟨t, u, us, ht, hk⟩ := exists_tokens_statement spacing st n
  have hhead : (tokensOf n (st.lines spacing) ++ rest).head?.map (·.kind) = some (firstKind st) := by
    simp [ht, hk]
  have hends : ∀ {close : Token}, close.kind = .newline →
      (close :: rest).dropWhile separates = rest ∧ (close :: rest).length ≤ rest.length + 1 :=
    fun hclose => ⟨(dropWhile_close hclose rest).trans hrest.dropWhile, le_rfl⟩
  simp only [statement, bind_run, skipBlankLines_run, (opens_statement spacing st n rest).dropWhile,
    Reply.follow_done, nextKind_run, hhead, Reply.after_nil]
  cases st with
  | title ws =>
    obtain ⟨close, htokens, hclose⟩ := singleLine n (⟨false, .word (.spelled "title")⟩ :: wordsLine ws) rest
    have hrow := Line.row_tokens n 1 (⟨false, .word (.spelled "title")⟩ :: wordsLine ws)
    rw [List.map_cons, pieces_wordsLine] at hrow
    rw [Statement.lines, htokens]
    exact ⟨_, title_run hrow hclose rest, hends hclose⟩
  | declare name =>
    obtain ⟨close, htokens, hclose⟩ := singleLine n (declareLine name) rest
    rw [Statement.lines, htokens]
    exact ⟨rest, declare_run (Line.row_tokens n 1 (declareLine name)) hclose hrest, hrest.dropWhile,
      Nat.le_succ _⟩
  | define name body =>
    obtain ⟨close, hlines, hclose⟩ := Line.exists_tokensOf_cons n
      (declareLine name ++ [⟨true, .sign .openCurly⟩])
      (body.map (·.text.line spacing false) ++ [[⟨false, .sign .closeCurly⟩]])
    obtain ⟨last, k, hlast, htell, _⟩ := Line.exists_tokens_cons
      (n + 1 + (body.map (·.text.line spacing false)).length) 1 ⟨false, .sign .closeCurly⟩ []
    obtain ⟨close', hbrace, hclose'⟩ := singleLine
      (n + 1 + (body.map (·.text.line spacing false)).length) [⟨false, .sign .closeCurly⟩] rest
    have hrow := Line.row_tokens n 1 (declareLine name ++ [⟨true, .sign .openCurly⟩])
    have hrun := define_run (s := s) spacing hrow hclose body htell.1 (close' :: rest) (m := n + 1)
    refine ⟨close' :: rest, ?_, hends hclose'⟩
    rw [Statement.lines, hlines, tokensOf_append, List.append_assoc, List.cons_append,
      List.append_assoc, hbrace, hlast]
    exact hrun
  | describe name text =>
    obtain ⟨close, htokens, hclose⟩ := singleLine n
      (⟨false, .word name.toWord⟩ :: ⟨true, .sign colon⟩ :: text.line spacing true) rest
    have hrow := Line.row_tokens n 1
      (⟨false, .word name.toWord⟩ :: ⟨true, .sign colon⟩ :: text.line spacing true)
    rw [List.map_cons, List.map_cons, pieces_text] at hrow
    rw [Statement.lines, htokens]
    exact ⟨_, describe_run hrow hclose rest, hends hclose⟩
  | annotate ws name =>
    obtain ⟨close, htokens, hclose⟩ := singleLine n
      (stereotypeLine spacing false ws ++ [⟨true, .word name.toWord⟩]) rest
    have hrow := Line.row_tokens n 1 (stereotypeLine spacing false ws ++ [⟨true, .word name.toWord⟩])
    rw [List.map_append, pieces_stereotypeLine] at hrow
    rw [Statement.lines, htokens]
    exact ⟨_, annotate_run hrow (close :: rest), hends hclose⟩
  | mention name =>
    obtain ⟨close, htokens, hclose⟩ := singleLine n [⟨false, .word name.toWord⟩] rest
    rw [Statement.lines, htokens]
    exact ⟨_, mention_run (Line.row_tokens n 1 [⟨false, .word name.toWord⟩]) hclose rest, hends hclose⟩
  | relate r =>
    obtain ⟨close, htokens, hclose⟩ := singleLine n r.line rest
    have hrow := Line.row_tokens n 1 r.line
    rw [pieces_relation] at hrow
    rw [Statement.lines, htokens]
    exact ⟨_, relate_run hrow hclose rest, hends hclose⟩

end statements

end Grammar
end Mermaid.ClassDiagram
