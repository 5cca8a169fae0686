import Mermaid.Proofs.ClassDiagram.Lines
import Mermaid.Proofs.ClassDiagram.Reading
import Mermaid.Proofs.Token.Part

/-! Relations with what is left of longer links beside their link. Cardinalities do not change how they
are read, unless a cardinality stands in front of such a piece: it is looked for right before the link
only, and then the relation is lost. -/
namespace Mermaid.ClassDiagram
open Rule Grammar Lexicon

/-- The text of a link, with what is left of longer links beside it: one piece before the link or none,
and any number of pieces behind it. -/
structure Glyph where
  text : String
  lead : Option TokenKind
  link : TokenKind
  trail : List TokenKind
  type : RelationType
  unbroken : Unbroken text.toList
  attached : ∀ c ∈ text.toList.getLast?, Slice.isGap c = false
  reads : (scan (" " ++ text ++ "\n")).map (·.kind) = lead.toList ++ link :: trail ++ [.newline, .eof]
  leads : ∀ k ∈ lead, isFragment k
  links : relation? link = some type
  trails : ∀ k ∈ trail, isFragment k

namespace Glyph

/-- A cardinality on a line. -/
def quoted (q : Option Quotation) : String := (q.map fun q => " \"" ++ q.text ++ "\"").getD ""

/-- The line on which the glyph relates two classes, with cardinalities or without. -/
def line (g : Glyph) (a b : Name) (c d : Option Quotation) : String :=
  a.text ++ quoted c ++ " " ++ g.text ++ quoted d ++ " " ++ b.text

/-- The relation that the line draws. -/
def relation (g : Glyph) (a b : Name) (c d : Option Quotation) : Relation where
  source := a.text
  target := b.text
  type := g.type
  sourceCardinality := c.map (·.text)
  targetCardinality := d.map (·.text)

/-- Whether the relation is lost: there is a piece between the cardinality and the link. -/
def misread (g : Glyph) (c : Option Quotation) : Bool := c.isSome && g.lead.isSome

section tokens
variable (g : Glyph) (a b : Name) (c d : Option Quotation)

private theorem exists_part : ∃ x : Part, x.chars = ' ' :: g.text.toList := by
  have htext : (" " ++ g.text ++ "\n").toList = ' ' :: g.text.toList ++ ['\n'] := by simp
  refine Part.exists_part ?_ ?_ ?_
  · exact List.forall_mem_cons.mpr ⟨by decide, g.unbroken⟩
  · have hne : g.text ≠ "" := by
      intro hnil
      have hreads := g.reads
      rw [hnil] at hreads
      have hlength := congrArg List.length hreads
      have hshort : ((scan (" " ++ "" ++ "\n")).map (·.kind)).length = 2 := by decide
      rw [hshort] at hlength
      simp at hlength
      omega
    obtain ⟨d, l, hl⟩ := List.exists_cons_of_ne_nil (mt String.toList_eq_nil_iff.mp hne)
    rw [hl, List.getLast?_cons_cons, ← hl]
    exact g.attached
  · have hkinds : ∀ k ∈ (scan (" " ++ g.text ++ "\n")).map (·.kind), k ≠ .comment ∧ k ≠ .string := by
      have hfragment : ∀ k, isFragment k → k ≠ .comment ∧ k ≠ .string := by
        intro k hk
        cases k <;> simp_all [isFragment]
      have hrelation : ∀ k type, relation? k = some type → k ≠ .comment ∧ k ≠ .string := by
        intro k type hk
        cases k <;> simp_all [relation?]
      rw [g.reads]
      intro k hk
      simp only [List.mem_append, List.mem_cons, Option.mem_toList, List.not_mem_nil, or_false] at hk
      rcases hk with (hk | rfl | hk) | rfl | rfl
      · exact hfragment k (g.leads k hk)
      · exact hrelation _ _ g.links
      · exact hfragment k (g.trails k hk)
      · decide
      · decide
    intro s hs said hsaid
    rw [← htext] at hs
    exact hkinds _ (Slice.kind_mem_scan hs hsaid)

private def before : Line := ⟨false, .word a.toWord⟩ :: cardinalityLine c

private def behind : Line := cardinalityLine d ++ [⟨true, .word b.toWord⟩]

private theorem fits_before : (before a c).Fits ' ' := by
  obtain ⟨hfits, hfirst⟩ := fits_cardinalityLine c
  exact ⟨by rw [hfirst]; exact Piece.stops_space _, hfits⟩

private theorem fits_behind : (behind b d).Fits '\n' ∧ (behind b d).first '\n' = ' ' := by
  obtain ⟨hfits, hfirst⟩ := fits_cardinalityLine d
  refine ⟨(Line.fits_append _ _ _).mpr ⟨hfits, Piece.stops_newline rfl, trivial⟩, ?_⟩
  rw [behind, Line.first_append]
  exact hfirst

private theorem toList_line : (g.line a b c d).toList =
    (before a c).chars ++ (' ' :: g.text.toList ++ (behind b d).chars) := by
  have hquoted : ∀ q : Option Quotation, (quoted q).toList = (cardinalityLine q).chars := by
    intro q
    cases q <;>
      simp [quoted, cardinalityLine, Line.chars, Placed.chars, Placed.indent, Piece.chars, Quotation.text]
  have hword : ∀ w : Word, w.text.toList = w.chars := fun _ => String.toList_ofList
  simp [line, before, behind, hquoted, Line.chars, Placed.chars, Placed.indent, Piece.chars, hword]

private theorem unbroken_line : Unbroken (g.line a b c d).toList := by
  simp only [toList_line, Unbroken, List.forall_mem_append, List.forall_mem_cons]
  exact ⟨Line.unbroken (fits_before a c), ⟨by decide, g.unbroken⟩, Line.unbroken (fits_behind b d).1⟩

private theorem exists_tokens (n : Int) : ∃ t qs lead link trail ps u close,
    (Stream.ofTextFrom n (g.line a b c d ++ "\n")).tokens =
      t :: (qs ++ (lead ++ link :: (trail ++ (ps ++ [u, close])))) ∧
    (t.Tells (.word a.toWord) ∧ t.position.line = n) ∧ Token.Row n qs (cardinalityPieces c) ∧
    lead.map (·.kind) = g.lead.toList ∧ link.kind = g.link ∧ trail.map (·.kind) = g.trail ∧
    Token.Row n ps (cardinalityPieces d) ∧ (u.Tells (.word b.toWord) ∧ u.position.line = n) ∧
    close.kind = .newline := by
  obtain ⟨x, hx⟩ := g.exists_part
  obtain ⟨hbehind, hspace⟩ := fits_behind b d
  obtain ⟨us, m, ws, close, htokens, hus, -, hws, hclose⟩ := Stream.exists_tokens_part x (before a c)
    (behind b d) (by rw [hx]; rfl) (fits_before a c) hbehind (hspace ▸ by decide)
    (hx ▸ g.toList_line a b c d) n
  obtain ⟨t, qs, rfl, ht, hline, hqs⟩ := hus.exists_cons
  rw [behind, List.map_append] at hws
  obtain ⟨ps, rs, rfl, hps, hrs⟩ := hws.exists_append
  obtain ⟨u, _, rfl, hu, hline', hnil⟩ := hrs.exists_cons
  obtain rfl := Token.Row.nil_iff.mp hnil
  have hkinds : (m.tokens x.slices).map (·.kind) = g.lead.toList ++ g.link :: g.trail := by
    have htext : String.ofList x.chars ++ "\n" = " " ++ g.text ++ "\n" := by
      apply String.toList_injective
      simp [hx]
    exact List.append_cancel_right ((x.kinds m).trans (htext ▸ g.reads))
  obtain ⟨lead, vs, hvs, hlead, hlink⟩ := List.map_eq_append_iff.mp hkinds
  obtain ⟨link, trail, rfl, hlink, htrail⟩ := List.map_eq_cons_iff.mp hlink
  rw [pieces_cardinalityLine] at hqs hps
  refine ⟨t, qs, lead, link, trail, ps, u, close, ?_, ⟨ht, hline⟩, hqs, hlead, hlink, htrail, hps,
    ⟨hu, hline'⟩, hclose⟩
  rw [htokens, hvs]
  simp

end tokens

section run
variable {s : Stream}

private theorem statement_identifier {t : Token} (ht : t.kind = .identifier) (ts : List Token) :
    statement s (t :: ts) = relationOrReference s (t :: ts) := by
  have hblank : separates t = false := by simp [separates, ht]
  simp [statement, bind_run, skipBlankLines_run, hblank, ht]

private theorem not_start {k : TokenKind} (h : isFragment k ∨ (relation? k).isSome) : k ∉ startKinds := by
  cases k <;> simp_all [isFragment, relation?, startKinds]

/-- Tokens that begin no statement are passed over. -/
private theorem block_skip {us : List Token} (h : ∀ u ∈ us, u.kind ∉ startKinds) (ts : List Token) :
    block statement none s (us ++ ts) = block statement none s ts := by
  induction us with
  | nil => rfl
  | cons t us ih =>
    obtain ⟨ht, hus⟩ := List.forall_mem_cons.mp h
    rw [List.cons_append, ← ih hus]
    cases hblank : separates t with
    | true => rw [← block_dropWhile, List.dropWhile_cons_of_pos hblank, block_dropWhile]
    | false =>
      have hstatement : statement s (t :: (us ++ ts)) = ⟨[], .done (), us ++ ts⟩ := by
        simp only [startKinds, List.mem_cons, List.not_mem_nil, or_false, not_or] at ht
        simp [statement, bind_run, skipBlankLines_run, hblank, ht]
      rw [block_cons hblank (by simp) (guarded_of_done hstatement) le_rfl, Reply.after_nil]

/-- What the line writes as line `n`. -/
def events (g : Glyph) (a b : Name) (c d : Option Quotation) (n : Int) : List Event :=
  .mention a.text n :: .mention b.text n ::
    if g.misread c then [] else [.relate (g.relation a b c d)]

/-- Nothing but the end of the line is left. -/
private theorem block_close {close : Token} (hclose : close.kind = .newline) :
    block statement none s [close] = ⟨[], .done (), []⟩ := by
  have hskip : block statement none s ([close] ++ []) = block statement none s [] :=
    block_skip (by simp [hclose, startKinds]) []
  rw [← List.append_nil [close], hskip, block_of_head (by simp) (by simp)]

/-- A class whose cardinality is not right before the link is one that is mentioned alone. -/
private theorem statement_apart {t quote f : Token} {a : Name} {n : Int}
    (ht : t.Tells (.word a.toWord) ∧ t.position.line = n) (hquote : quote.kind = .string)
    (hf : isFragment f.kind) (ts : List Token) :
    statement s (t :: quote :: f :: ts) = ⟨[.mention a.text n], .done (), quote :: f :: ts⟩ := by
  obtain ⟨ht, hline⟩ := ht
  have hnone : relation? f.kind = none := by
    cases hr : relation? f.kind with
    | none => rfl
    | some type => exact absurd hf (by simp [(ne_of_relation? (by rw [hr]; rfl)).1])
  have hview : beforeLink (· == .string) (quote :: f :: ts) = false := by simp [beforeLink, hnone]
  have hne : (quote :: f :: ts).head?.map (·.kind) ≠ some .colon := by simp [hquote]
  rw [statement_identifier (ht.1.trans a.free), reference_run ht hview
    (beforeLink_of_not (by rw [hquote]; rfl) _) (by rw [hquote]; rfl), accept_of_ne hne,
    Reply.follow_done, hline]
  rfl

/-- Where a piece stands between the cardinality and the link, all is passed over up to the class behind
the link. -/
private theorem block_apart {t quote f link u close : Token} {trail ps : List Token} {a b : Name}
    {d : Option Quotation} {n : Int} (ht : t.Tells (.word a.toWord) ∧ t.position.line = n)
    (hquote : quote.kind = .string) (hf : isFragment f.kind) (hlink : (relation? link.kind).isSome)
    (htrails : ∀ f ∈ trail, isFragment f.kind) (hps : Token.Row n ps (cardinalityPieces d))
    (hu : u.Tells (.word b.toWord) ∧ u.position.line = n) (hclose : close.kind = .newline) :
    block statement none s (t :: quote :: f :: link :: (trail ++ (ps ++ [u, close]))) =
      ⟨[.mention a.text n, .mention b.text n], .done (), []⟩ := by
  have hidentifier : t.kind = .identifier := ht.1.1.trans a.free
  have hidentifier' : u.kind = .identifier := hu.1.1.trans b.free
  have hskip : ∀ v ∈ quote :: f :: link :: (trail ++ ps), v.kind ∉ startKinds := by
    have hps : ∀ v ∈ ps, v.kind ∉ startKinds := by
      refine Token.forall_kind hps.tells (P := (· ∉ startKinds)) fun p hp => ?_
      obtain ⟨r, -, rfl⟩ := List.mem_map.mp hp
      exact (by decide : TokenKind.string ∉ startKinds)
    simp only [List.forall_mem_cons, List.forall_mem_append]
    exact ⟨by rw [hquote]; decide, not_start (.inl hf), not_start (.inr hlink),
      fun v hv => not_start (.inl (htrails v hv)), hps⟩
  have hpast := block_skip (s := s) hskip [u, close]
  have hlast := mention_run (s := s) (.cons hu .nil : Token.Row n [u] [.word b.toWord]) hclose []
  simp only [List.cons_append, List.nil_append, List.append_assoc] at hpast hlast
  rw [block_cons (by simp [separates, hidentifier]) (by simp)
    (guarded_of_done (statement_apart ht hquote hf _)) le_rfl, hpast,
    block_cons (by simp [separates, hidentifier']) (by simp)
      (guarded_of_done ((statement_identifier hidentifier' _).trans hlast)) le_rfl, block_close hclose]
  rfl

private theorem block_line (g : Glyph) (a b : Name) (c d : Option Quotation) (n : Int) :
    block statement none s (Stream.ofTextFrom n (g.line a b c d ++ "\n")).tokens =
      ⟨g.events a b c d n, .done (), []⟩ := by
  obtain ⟨t, qs, lead, link, trail, ps, u, close, htokens, ht, hqs, hlead, hlink, htrail, hps, hu, hclose⟩ :=
    g.exists_tokens a b c d n
  have htype : relation? link.kind = some g.type := hlink ▸ g.links
  have htrails : ∀ f ∈ trail, isFragment f.kind := by
    intro f hf
    exact g.trails _ (htrail ▸ List.mem_map_of_mem hf)
  have hleads : ∀ f ∈ lead, isFragment f.kind := by
    intro f hf
    have hmem : f.kind ∈ lead.map (·.kind) := List.mem_map_of_mem hf
    rw [hlead] at hmem
    exact g.leads _ (Option.mem_toList.mp hmem)
  rw [htokens, events]
  cases hmisread : g.misread c with
  | false =>
    have hidentifier : t.kind = .identifier := ht.1.1.trans a.free
    have hdirect : lead = [] ∨ ∃ f, lead = [f] ∧ isFragment f.kind ∧ c = none := by
      rw [misread, Bool.and_eq_false_iff] at hmisread
      cases hk : g.lead with
      | none => exact .inl (by simpa [hk] using hlead)
      | some k =>
        rw [hk] at hlead hmisread
        obtain ⟨f, rfl, -⟩ := List.map_eq_singleton_iff.mp hlead
        exact .inr ⟨f, rfl, hleads f (by simp), by simpa using hmisread⟩
    have hlabel : Token.Row n [] (labelPieces none) := .nil
    have hrun := linked_run (s := s) ht.1 hqs hdirect htype htrails hps hu.1 hlabel hclose []
    rw [List.nil_append, ← statement_identifier hidentifier, ht.2, hu.2] at hrun
    rw [block_cons (by simp [separates, hidentifier]) (by simp) (guarded_of_done hrun) (by simp; omega),
      block_close hclose]
    rfl
  | true =>
    obtain ⟨hc, hk⟩ := Bool.and_eq_true_iff.mp hmisread
    obtain ⟨q, rfl⟩ := Option.isSome_iff_exists.mp hc
    obtain ⟨k, hk⟩ := Option.isSome_iff_exists.mp hk
    rw [hk] at hlead
    obtain ⟨f, rfl, -⟩ := List.map_eq_singleton_iff.mp hlead
    obtain ⟨quote, _, rfl, hquote, -, hnil⟩ := hqs.exists_cons
    obtain rfl := Token.Row.nil_iff.mp hnil
    exact block_apart ht hquote.1 (hleads f (by simp)) (by rw [htype]; rfl) htrails hps hu hclose

end run

/-- The text of a class diagram of the line alone. -/
def source (g : Glyph) (a b : Name) (c d : Option Quotation) : String :=
  "classDiagram\n" ++ g.line a b c d ++ "\n"

private theorem addLine_line (g : Glyph) (a b : Name) (c d : Option Quotation) (diagram : ClassDiagram)
    (n : Nat) : diagram.addLine (g.line a b c d) n =
      { (diagram.ensureClass a.text n).ensureClass b.text n with
        relations := diagram.relations ++ if g.misread c then [] else [g.relation a b c d] } := by
  rw [addLine, lineEvents, block_line, events]
  cases g.misread c with
  | true => simp [applyAll, apply, ensureClass]
  | false =>
    let drawn := (diagram.ensureClass a.text n).ensureClass b.text n
    have hsource : (g.relation a b c d).source ∈ drawn.classes.keys :=
      Registry.keys_subset_ensure Registry.key_mem_ensure
    exact addRelation_of_mem hsource Registry.key_mem_ensure

/-- Cardinalities do not change how a relation is read, unless one stands in front of a piece that is
left of a longer link: then the two classes are all that is drawn. -/
theorem parse_glyph (g : Glyph) (a b : Name) (c d : Option Quotation) :
    (∀ (diagram : ClassDiagram) (n : Nat), diagram.addLine (g.line a b c d) n =
      { (diagram.ensureClass a.text n).ensureClass b.text n with
        relations := diagram.relations ++ if g.misread c then [] else [g.relation a b c d] }) ∧
    parse (g.source a b c d) = { (empty.ensureClass a.text 2).ensureClass b.text 2 with
      relations := if g.misread c then [] else [g.relation a b c d] } := by
  refine ⟨g.addLine_line a b c d, ?_⟩
  have htext : g.source a b c d = "classDiagram\n" ++ String.join ([g.line a b c d].map (· ++ "\n")) := by
    simp [source, String.append_assoc]
  have hdocument := (document_below (List.forall_mem_singleton.mpr (g.unbroken_line a b c d))).2
  rw [← htext, Stream.lineTokens, Stream.lineTokens, List.append_nil, block_line] at hdocument
  have hdrawn : parse (g.source a b c d) = empty.addLine (g.line a b c d) 2 := by
    rw [parse, ofStream, hdocument, ofReply_of_done rfl, addLine, lineEvents, block_line]
  exact hdrawn.trans (g.addLine_line a b c d empty 2)

/-- A dotted arrow behind an asterisk. -/
def starredArrow : Glyph where
  text := "*..>"
  lead := some .asterisk
  link := .dependency
  trail := []
  type := .dependency
  unbroken := by decide
  attached := by
    rintro _ ⟨⟩
    decide
  reads := by decide +kernel
  leads := by decide
  links := rfl
  trails := by decide

def starredText : String := "classDiagram\nA \"1\" *..> B\n"

/-- The cardinality makes the relation that is drawn without it vanish, and nothing is reported. -/
theorem parse_starredText :
    let a : Name := ⟨.spelled "A", by decide⟩
    let b : Name := ⟨.spelled "B", by decide⟩
    starredArrow.source a b (some ⟨['1'], by simp⟩) none = starredText ∧
      (parse (starredArrow.source a b none none)).relations =
        [{ source := "A", target := "B", type := .dependency }] ∧
      parse starredText =
        { classes := ⟨[("A", { name := "A", line := 2 }), ("B", { name := "B", line := 2 })]⟩ } := by
  decide +kernel

end Glyph
end Mermaid.ClassDiagram
