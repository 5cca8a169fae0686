import Mathlib.Data.List.Infix
import Mermaid.Proofs.ClassDiagram.Parameters
import Mermaid.Proofs.ClassDiagram.Unclosed
import Mermaid.Proofs.Diagram.Safety

/-! Methods with any text for their parameters on the lines of classes. They are read as the members that
they declare, but for two things that the grammar misses: a parenthesis that makes one token with the
first one, and a link that ends in a parenthesis. -/
namespace Mermaid.ClassDiagram
open Rule Grammar Lexicon Text

/-- None of the parentheses is closed before it is opened, and none is left open. -/
def Balanced (l : List Char) : Prop := (∀ h ∈ l.inits, 0 ≤ rounds h) ∧ rounds l = 0

instance (l : List Char) : Decidable (Balanced l) := inferInstanceAs (Decidable (_ ∧ _))

/-- A method on a line of a class, with any text for its parameters. -/
structure Method where
  marker : Option Marker
  name : Word
  parameters : String
  returned : Option Word
  free : marker = none → TokenKind.ofWord name.text ≠ .classWord
  unbroken : Unbroken parameters.toList
  balanced : Balanced parameters.toList
  unquoted : '"' ∉ parameters.toList
  unbraced : '\x7d' ∉ parameters.toList
  uncommented : ¬ "%%".toList <:+: parameters.toList

namespace Method
variable (m : Method)

def text : String :=
  (m.marker.map (·.sign.text)).getD "" ++ m.name.text ++ "(" ++ m.parameters ++ ")" ++
    (m.returned.map (" " ++ ·.text)).getD ""

/-- Whether the first parenthesis makes a token of its own. -/
def opens : Bool := m.parameters.toList.head?.all fun c => c != '(' && c != '['

/-- Whether a link ends in one of the parentheses behind the first one. -/
def misses : Bool := (scan (m.parameters ++ ")\n")).any (endsInRound ·.kind)

/-- The member that the line is read as. It is no method where the first parenthesis is missed, and it
returns nothing where another one is. -/
def member : Member where
  name := m.name.text
  isMethod := m.opens
  visibility := (m.marker.map (·.visibility)).getD .publicly
  type := if m.opens && !m.misses then m.returned.map (·.text) else none

section tokens

private def head : Line :=
  (m.marker.map fun mark => ⟨false, .sign mark.sign⟩).toList ++ [⟨false, .word m.name⟩]

private theorem fits_head : m.head.Fits '(' := by
  have hname : Line.Fits '(' [⟨false, .word m.name⟩] := ⟨⟨by decide, by decide, by decide⟩, trivial⟩
  rw [head]
  cases m.marker with
  | none => exact hname
  | some mark => exact ⟨Piece.sign_stops_text mark.sign (p := .word m.name) rfl, hname⟩

private theorem toList_text : m.text.toList =
    m.head.chars ++ ('(' :: (m.parameters.toList ++ [')']) ++ (wordsLine m.returned.toList).chars) := by
  have hmarker : ((m.marker.map (·.sign.text)).getD "").toList =
      Line.chars (m.marker.map fun mark => ⟨false, .sign mark.sign⟩).toList := by
    cases m.marker <;> simp [Line.chars, Placed.chars, Placed.indent, Piece.chars]
  have hreturned : ((m.returned.map (" " ++ ·.text)).getD "").toList =
      (wordsLine m.returned.toList).chars := by
    cases m.returned <;>
      simp [wordsLine, spread, Line.chars, Placed.chars, Placed.indent, Piece.chars, Word.text]
  have hname : m.name.text.toList = m.name.chars := String.toList_ofList
  simp [text, head, hmarker, hreturned, hname, Line.chars, Placed.chars, Placed.indent, Piece.chars]

theorem unbroken_text : Unbroken m.text.toList := by
  simp only [toList_text, Unbroken, List.forall_mem_append, List.forall_mem_cons]
  exact ⟨Line.unbroken m.fits_head, ⟨by decide, m.unbroken, by decide, by simp⟩,
    Line.unbroken (fits_wordsLine m.returned.toList)⟩

/-- The parameters are a part of the line, with the parenthesis before them or without. -/
private theorem exists_part {l : List Char}
    (h : l = m.parameters.toList ++ [')'] ∨ l = '(' :: (m.parameters.toList ++ [')'])) :
    ∃ x : Part, x.chars = l ∧ ∀ s ∈ x.slices, MemberLine.Counts s := by
  have hquote := m.unquoted
  have hbrace := m.unbraced
  have hremark := mt (Slice.remark_concat (by decide : ')' ≠ '%') m.parameters.toList).mp m.uncommented
  have hunbroken : Unbroken (m.parameters.toList ++ [')']) :=
    List.forall_mem_append.mpr ⟨m.unbroken, (by decide : Unbroken [')'])⟩
  rcases h with rfl | rfl
  · exact MemberLine.exists_part_counts hunbroken (by simp [Slice.isGap]) (by simp [hquote]) (by simp [hbrace])
      hremark
  · exact MemberLine.exists_part_counts (List.forall_mem_cons.mpr ⟨by decide, hunbroken⟩)
      (by simp [List.getLast?_cons, Slice.isGap]) (by simp [hquote]) (by simp [hbrace])
      (mt (Slice.remark_cons (by decide) _).mp hremark)

/-- The tokens that begin with a parenthesis and do not end behind it. -/
private def mergedKinds : List TokenKind := [.openTripleRound, .openDoubleRound, .openRoundSquare]

private theorem exists_merged {c : Char} (hc : c = '(' ∨ c = '[') (l : List Char) :
    ∃ said ∈ (Slice.cut '(' (c :: l)).token?, said.1 ∈ mergedKinds := by
  have hlink : link? ('(' :: c :: l) = none := link?_none (by simp [opensLink])
  have hword : word.slice? ('(' :: c :: l) = none := by
    have hround : isWord '(' = false := by decide
    simp [Entry.slice?, word, hround]
  have hcut : Slice.cut '(' (c :: l) = ((sign? ('(' :: c :: l)).map fun x =>
      (⟨x.1.toList, some (x.2, x.1.toList)⟩ : Slice)).getD ⟨['('], some (.unknown, ['('])⟩ := by
    have hgap : Slice.isGap '(' = false := by decide
    have hbreak : Slice.breakLength? ('(' :: c :: l) = none := rfl
    have hspelled := spelled?_eq (c := '(') (s := c :: l) rfl (by decide)
    rw [hlink, hword, Option.map_none, Option.none_or, Option.none_or] at hspelled
    rw [Slice.cut, hgap, if_neg Bool.false_ne_true, hbreak]
    simp only [hspelled]
  rw [hcut]
  rcases hc with rfl | rfl
  · cases htriple : "(((".toList.isPrefixOf ('(' :: '(' :: l) with
    | true => simp_all [sign?, punctuation, mergedKinds]
    | false => simp_all [sign?, punctuation, mergedKinds]
  · simp [sign?, punctuation, mergedKinds]

private theorem round_stops {c : Char} (hc : c ≠ '(' ∧ c ≠ '[') : (Piece.sign .openRound).Stops c := by
  have hsigns : ∀ e ∈ punctuation, e.1.toList.head? = some '(' →
      e.1.toList[1]? ∈ [none, some '(', some '['] := by
    decide
  rintro (⟨e, he, more, hprefix⟩ | hlink | hremark)
  · have hsecond := hsigns e he (by rw [← hprefix]; rfl)
    rw [← hprefix] at hsecond
    simp [Sign.openRound, hc] at hsecond
  · simp [Sign.openRound, opensLink] at hlink
  · simp [Sign.openRound] at hremark

/-- What the tokens of the line are: a marker, the name, the parameters, what is returned, and a break. -/
private structure Shows (n : Int) (ms : List Token) (name : Token) (ps ws : List Token) (close : Token) :
    Prop where
  tokens : (Stream.ofTextFrom n (m.text ++ "\n")).tokens = ms ++ name :: (ps ++ (ws ++ [close]))
  marker : Token.Row n ms (m.marker.map (.sign ·.sign)).toList
  name : Token.Row n [name] [.word m.name]
  returned : Token.Row n ws (m.returned.toList.map .word)
  close : close.kind = .newline

private theorem Shows.tells {m : Method} {n : Int} {ms ps ws : List Token} {name close : Token}
    (h : m.Shows n ms name ps ws close) : name.Tells (.word m.name) := by
  obtain ⟨_, _, hcons, hname, -, -⟩ := h.name.exists_cons
  obtain rfl := (List.cons.inj hcons).1
  exact hname

/-- The line with a part of it that begins in its parameters, behind the piece `opened` of them. -/
private theorem shows_part (x : Part) (opened : Line) {c : Char} (hc : x.chars.head? = some c)
    (hfits : (m.head ++ opened).Fits c)
    (htext : '(' :: (m.parameters.toList ++ [')']) = opened.chars ++ x.chars) (n : Int) :
    ∃ ms name os mark ws close, m.Shows n ms name (os ++ Mark.tokens mark x.slices) ws close ∧
      Token.Row n os (opened.map (·.piece)) := by
  have hwhite : (wordsLine m.returned.toList).first '\n' ∈ white := by
    rcases first_wordsLine m.returned.toList with h | h <;> rw [h] <;> decide
  have hpieces : m.head.map (·.piece) = (m.marker.map (.sign ·.sign)).toList ++ [.word m.name] := by
    rw [head]
    cases m.marker <;> rfl
  have hline : m.text.toList = (m.head ++ opened).chars ++
      (x.chars ++ (wordsLine m.returned.toList).chars) := by
    simp only [toList_text, htext, Line.chars, List.flatMap_append, List.append_assoc]
  obtain ⟨us, mark, ws, close, htokens, hus, -, hws, hclose⟩ := Stream.exists_tokens_part x _ _ hc hfits
    (fits_wordsLine m.returned.toList) hwhite hline n
  rw [List.map_append, hpieces] at hus
  obtain ⟨vs, os, rfl, hvs, hos⟩ := hus.exists_append
  obtain ⟨ms, ns, rfl, hms, hns⟩ := hvs.exists_append
  obtain ⟨name, _, rfl, -, -, hnil⟩ := hns.exists_cons
  obtain rfl := Token.Row.nil_iff.mp hnil
  rw [pieces_wordsLine] at hws
  refine ⟨ms, name, os, mark, ws, close, ⟨?_, hms, hns, hws, hclose⟩, hos⟩
  rw [htokens]
  simp

/-- The parentheses of the parameters, and the one that closes them. -/
private theorem pastParameters_part {x : Part} (hx : x.chars = m.parameters.toList ++ [')'])
    (hcounts : ∀ s ∈ x.slices, MemberLine.Counts s) (mark : Mark) (more : List Token) :
    MemberLine.pastParameters 1 (mark.tokens x.slices ++ more) =
      MemberLine.beyond (MemberLine.uncounted (mark.tokens x.slices)) more := by
  obtain ⟨hinside, htotal⟩ := m.balanced
  have hclose : rounds [')'] = -1 := by decide
  have hrun := MemberLine.pastParameters_slices hcounts 1 Int.one_pos ?_ ?_ mark 0 more
  · simpa using hrun
  · rw [x.tiles.1, hx]
    intro l hl hne
    have hprefix := (List.prefix_concat_iff.mp hl).resolve_left hne
    have hnonneg := hinside l ((List.mem_inits _ _).mpr hprefix)
    omega
  · rw [x.tiles.1, hx, rounds_append, htotal, hclose]
    rfl

private theorem uncounted_part {x : Part} (hx : x.chars = m.parameters.toList ++ [')']) (mark : Mark) :
    MemberLine.uncounted (mark.tokens x.slices) = 0 ↔ m.misses = false := by
  have htext : String.ofList x.chars ++ "\n" = m.parameters ++ ")\n" := by
    apply String.toList_injective
    simp [hx]
  have hkinds : ∀ ts : List Token, ts.any (endsInRound ·.kind) = (ts.map (·.kind)).any endsInRound := by
    intro ts
    rw [List.any_map]
    rfl
  rw [misses, ← htext, hkinds, ← x.kinds mark, List.any_append, ← hkinds, MemberLine.uncounted,
    List.countP_eq_zero, ← Bool.not_eq_true, Bool.or_eq_true, List.any_eq_true]
  simp [endsInRound]

/-- Where the first parenthesis stands alone, the parameters are passed over. -/
private theorem exists_opening (h : m.opens) (n : Int) : ∃ ms name o qs ws close missed,
    m.Shows n ms name (o :: qs) ws close ∧ o.kind = .openRound ∧ (missed = 0 ↔ m.misses = false) ∧
    ∀ more, MemberLine.pastParameters 1 (qs ++ more) = MemberLine.beyond missed more := by
  obtain ⟨x, hx, hcounts⟩ := m.exists_part (.inl rfl)
  obtain ⟨c, hc, hround⟩ : ∃ c, x.chars.head? = some c ∧ c ≠ '(' ∧ c ≠ '[' := by
    rw [opens] at h
    rw [hx]
    cases hl : m.parameters.toList with
    | nil => exact ⟨')', rfl, by decide⟩
    | cons c l => exact ⟨c, rfl, by simpa [hl] using h⟩
  have hfits : Line.Fits c (m.head ++ [⟨false, .sign .openRound⟩]) :=
    (Line.fits_append _ _ _).mpr ⟨m.fits_head, round_stops hround, trivial⟩
  obtain ⟨ms, name, os, mark, ws, close, hshows, hos⟩ :=
    m.shows_part x [⟨false, .sign .openRound⟩] hc hfits (by rw [hx]; rfl) n
  obtain ⟨o, _, rfl, ho, -, hnil⟩ := hos.exists_cons
  obtain rfl := Token.Row.nil_iff.mp hnil
  exact ⟨ms, name, o, _, ws, close, _, hshows, ho.1, m.uncounted_part hx mark,
    m.pastParameters_part hx hcounts mark⟩

/-- Where the first parenthesis does not stand alone, no parameters begin. -/
private theorem exists_merging (h : m.opens = false) (n : Int) : ∃ ms name o qs ws close,
    m.Shows n ms name (o :: qs) ws close ∧ o.kind ∈ mergedKinds := by
  obtain ⟨x, hx, -⟩ := m.exists_part (.inr rfl)
  have hfits : Line.Fits '(' (m.head ++ []) := by simpa using m.fits_head
  obtain ⟨ms, name, os, mark, ws, close, hshows, hos⟩ :=
    m.shows_part x [] (by rw [hx]; rfl) hfits (by rw [hx]; rfl) n
  obtain rfl := Token.Row.nil_iff.mp hos
  obtain ⟨c, l, hl, hc⟩ : ∃ c l, m.parameters.toList = c :: l ∧ (c = '(' ∨ c = '[') := by
    rw [opens] at h
    cases hl : m.parameters.toList with
    | nil => simp [hl] at h
    | cons c l => exact ⟨c, l, rfl, by simpa [hl, or_iff_not_imp_left] using h⟩
  obtain ⟨said, hsaid, hkind⟩ := exists_merged hc (l ++ [')'] ++ ['\n'])
  have hfirst : (x.slices ++ [Slice.lineFeed]).head? =
      some (Slice.cut '(' (c :: (l ++ [')'] ++ ['\n']))) := by
    rw [← x.ofText_chars, hx, hl]
    rfl
  cases hs : x.slices with
  | nil =>
    rw [hs] at hfirst
    rw [← Option.some.inj hfirst] at hsaid
    cases hsaid
    simp [mergedKinds] at hkind
  | cons s slices =>
    rw [hs] at hfirst
    rw [← Option.some.inj hfirst] at hsaid
    rw [hs, List.nil_append, Mark.tokens, Mark.token?, Option.mem_def.mp hsaid] at hshows
    exact ⟨ms, name, _, _, ws, close, hshows, hkind⟩

end tokens

section body
open MemberLine
variable {m} {n : Int} {ms ws qs : List Token} {name o close : Token}

private theorem parameters_opening (ho : o.kind = .openRound) {missed : Nat}
    (hmissed : missed = 0 ↔ m.misses = false)
    (hpast : ∀ more, pastParameters 1 (qs ++ more) = beyond missed more)
    (hws : Token.Row n ws (m.returned.toList.map .word)) (hclose : close.kind = .newline) (more : List Token) :
    MemberLine.parameters (o :: (qs ++ (ws ++ close :: more))) =
      (some (if m.misses then none else m.returned.map (·.text)), close :: more) := by
  cases hm : m.misses with
  | false =>
    have hbeyond : pastParameters 1 (qs ++ (ws ++ close :: more)) = ws ++ close :: more := by
      rw [hpast, beyond, if_pos (hmissed.mpr hm)]
    rw [parameters_past ho hbeyond hws hclose]
    cases m.returned <;> simp [Tail.type, wordsText]
  | true =>
    have hpos : 0 < missed := Nat.pos_of_ne_zero fun h => by simp [hmissed.mp h] at hm
    have hwords : ∀ t ∈ ws, t.kind ∈ .comma :: wordKinds := fun t ht =>
      List.mem_cons_of_mem _ (row_wordKinds hws t ht)
    have hbeyond : pastParameters 1 (qs ++ (ws ++ close :: more)) = [] ++ close :: more := by
      rw [hpast, beyond, if_neg (Nat.pos_iff_ne_zero.mp hpos),
        pastParameters_words hwords (Int.natCast_pos.mpr hpos)]
      simp [pastParameters, hclose]
    have hnil : Token.Row n [] (([] : List Word).map .word) := .nil
    rw [parameters_past ho hbeyond hnil hclose]
    rfl

/-- The line is read as the member that is read from its name on. -/
private theorem body_shows (h : m.Shows n ms name (o :: qs) ws close)
    (ho : o.kind ∈ .openRound :: mergedKinds)
    {more left : List Token} {x : Member}
    (hnamed : named m.member.visibility none name (o :: (qs ++ (ws ++ close :: more))) = (x, left))
    (s : Stream) (owner : String) : ∃ rest,
      body owner s ((Stream.ofTextFrom n (m.text ++ "\n")).tokens ++ more) =
        (body owner s rest).after [.member owner x] ∧ (left = close :: more → rest = left) := by
  have hname := h.tells
  have hkinds : ∀ k ∈ .openRound :: mergedKinds, k ≠ .openSquare ∧ k ∉ wordKinds := by decide
  obtain ⟨hsquare, hword⟩ := hkinds _ ho
  have hhead : (o :: (qs ++ (ws ++ close :: more))).head?.map (·.kind) ≠ some .openSquare := by
    simpa using hsquare
  have hleading := leadingType_name hhead (isWord_eq_false hword) name
  have hread := read_marked h.marker (isWord_of_tells hname) (kind_mem_wordKinds hname) hleading
    (isWord_of_tells hname) hnamed
  have hpieces : Token.Row n (ms ++ [name])
      (MemberText.member ⟨m.marker, none, m.name, .plain⟩).pieces := List.rel_append h.marker h.name
  have hfree : (MemberText.member ⟨m.marker, none, m.name, .plain⟩).declares = false := by
    have hfree := m.free
    cases hm : m.marker with
    | none => simpa [MemberText.declares, hm] using hfree hm
    | some mark => rfl
  obtain ⟨t, us, hfirst, hblank, hready⟩ := exists_first ⟨_, hfree⟩ hpieces
  have hend : endsBody t = false := by simpa [endsBody] using hready
  have hcons : ∀ ts, ms ++ name :: ts = t :: (us ++ ts) := by
    intro ts
    rw [List.append_cons, hfirst, List.cons_append]
  have htokens : (Stream.ofTextFrom n (m.text ++ "\n")).tokens ++ more =
      t :: (us ++ o :: (qs ++ (ws ++ close :: more))) := by
    rw [h.tokens, ← hcons]
    simp
  rw [hcons] at hread
  refine ⟨pastRound (t :: (us ++ o :: (qs ++ (ws ++ close :: more)))), ?_, fun hleft => ?_⟩
  · rw [htokens, body_cons hblank hend, hread]
    rfl
  · have hlength : left.length ≠ (t :: (us ++ o :: (qs ++ (ws ++ close :: more)))).length := by
      rw [hleft]
      simp only [List.length_cons, List.length_append]
      omega
    rw [pastRound, hread]
    exact if_neg hlength

/-- In the body of a class the line is a member. What is read behind it is the next line, unless the first
parenthesis is missed. -/
theorem body_method (m : Method) (n : Int) (s : Stream) (owner : String) (more : List Token) : ∃ left,
    body owner s ((Stream.ofTextFrom n (m.text ++ "\n")).tokens ++ more) =
      (body owner s left).after [.member owner m.member] ∧ (m.opens → left = more) := by
  cases hopens : m.opens with
  | true =>
    obtain ⟨ms, name, o, qs, ws, close, missed, hshows, ho, hmissed, hpast⟩ := m.exists_opening hopens n
    have hlexeme : name.lexeme = m.name.text := hshows.tells.2
    have hclose := hshows.close
    have hcolon : (close :: more).head?.map (·.kind) ≠ some .colon := by simp [hclose]
    have hnamed : named m.member.visibility none name (o :: (qs ++ (ws ++ close :: more))) =
        (m.member, close :: more) := by
      rw [named, parameters_opening ho hmissed hpast hshows.returned hclose]
      simp only [trailingType_of_ne hcolon]
      cases hm : m.misses <;>
        simp [MemberLine.rest, ends_newline hclose, hlexeme, member, hopens, hm]
    obtain ⟨rest, hrun, hrest⟩ := body_shows hshows (by simp [ho]) hnamed s owner
    refine ⟨more, ?_, fun _ => rfl⟩
    rw [hrun, hrest rfl, body_separates (by simp [separates, hclose])]
  | false =>
    obtain ⟨ms, name, o, qs, ws, close, hshows, ho⟩ := m.exists_merging hopens n
    have hlexeme : name.lexeme = m.name.text := hshows.tells.2
    have hkinds : ∀ k ∈ mergedKinds, k ≠ .openRound ∧ k ≠ .colon := by decide
    obtain ⟨hround, hcolon⟩ := hkinds _ ho
    have hne : (o :: (qs ++ (ws ++ close :: more))).head?.map (·.kind) ≠ some .colon := by
      simpa using hcolon
    have hnamed : named m.member.visibility none name (o :: (qs ++ (ws ++ close :: more))) =
        (m.member, (MemberLine.rest (o :: (qs ++ (ws ++ close :: more)))).2) := by
      rw [named, parameters_of_ne (by simpa using hround)]
      simp [trailingType_of_ne hne, hlexeme, member, hopens]
    obtain ⟨rest, hrun, -⟩ := body_shows hshows (List.mem_cons_of_mem _ ho) hnamed s owner
    exact ⟨rest, hrun, fun h => by cases h⟩

end body

/-- The text of a class diagram of one class, with the line between other lines of the class. -/
def source (owner : Name) (before after : List String) : String :=
  "classDiagram\n" ++ String.join
    ((classHead owner :: (before ++ m.text :: after ++ ["\x7d"])).map (· ++ "\n"))

section document
variable {m} {owner : Name} {before after : List String}

private theorem body_alone (h : m.opens) (owner : String) (n : Int) :
    let s := Stream.ofTextFrom n (m.text ++ "\n")
    body owner s s.tokens = ⟨[.member owner m.member], .done (), []⟩ := by
  intro s
  obtain ⟨left, hrun, hleft⟩ := m.body_method n s owner []
  have hend : body owner s [] = ⟨[], .done (), []⟩ := body_stop (by simp)
  rw [List.append_nil, hleft h, hend] at hrun
  exact hrun

private theorem inside_text (h : m.opens) : Inside m.text :=
  ⟨m.unbroken_text, fun owner n => congrArg Reply.rest (body_alone h owner n)⟩

private theorem parse_opening (h : m.opens) (hbefore : ∀ l ∈ before, Inside l)
    (hafter : ∀ l ∈ after, Inside l) :
    parse (m.source owner before after) = empty.applyAll (.declare owner.text 2 ::
      (bodyEvents owner.text 3 before ++ .member owner.text m.member ::
        bodyEvents owner.text (before.length + 4) after)) := by
  let d : Declared := {
    name := owner
    lines := before ++ m.text :: after
    inside := List.forall_mem_append.mpr ⟨hbefore, List.forall_mem_cons.mpr ⟨inside_text h, hafter⟩⟩ }
  have hsource : m.source owner before after = Declared.source [d] := by
    rw [Declared.source, List.flatMap_cons, List.flatMap_nil, List.append_nil]
    rfl
  have hevents : Declared.eventsOf 2 [d] = d.events 2 := by
    rw [Declared.eventsOf, Declared.eventsOf, List.append_nil]
    exact List.append_nil _
  have hnumber : 2 + 1 + before.length + 1 = before.length + 4 := by omega
  rw [hsource, Declared.parse_eq_applyAll, hevents, Declared.events, bodyEvents_append, bodyEvents,
    body_alone h, hnumber]
  rfl

private theorem exists_parse (hbefore : ∀ l ∈ before, Inside l) (hafter : ∀ l ∈ after, Inside l) :
    ∃ more, parse (m.source owner before after) = empty.applyAll (.declare owner.text 2 ::
      (bodyEvents owner.text 3 before ++ .member owner.text m.member :: more)) := by
  let s := Stream.ofText (m.source owner before after)
  have hunbroken : ∀ l ∈ classHead owner :: (before ++ m.text :: after ++ ["\x7d"]), Unbroken l.toList := by
    simp only [List.forall_mem_cons, List.forall_mem_append]
    exact ⟨unbroken_classHead owner, ⟨fun l hl => (hbefore l hl).1, m.unbroken_text,
      fun l hl => (hafter l hl).1⟩, by decide, by simp⟩
  have hdocument : document s s.tokens = block statement none s _ := (document_below hunbroken).2
  have houtcome : (document s s.tokens).outcome = .done () := document_outcome (Stream.kind_ne_eof _)
  obtain ⟨us, close, hhead, hrow, hclose⟩ := tokens_classHead owner 2
  let line := (Stream.ofTextFrom (3 + before.length : Nat) (m.text ++ "\n")).tokens
  let behind := Stream.lineTokens (3 + before.length + 1) (after ++ ["\x7d"])
  obtain ⟨left, hmethod, -⟩ := m.body_method (3 + before.length : Nat) s owner.text behind
  have htokens : Stream.lineTokens 2 (classHead owner :: (before ++ m.text :: after ++ ["\x7d"])) =
      ⟨.classWord, "class", ⟨(2 : Nat), 1⟩⟩ ::
        (us ++ close :: (Stream.lineTokens 3 before ++ (line ++ behind))) := by
    rw [List.append_assoc, List.cons_append, Stream.lineTokens, hhead, Stream.lineTokens_append,
      Stream.lineTokens, List.cons_append, List.append_assoc]
    rfl
  -- The class may end before its brace is read, but not before the line: what the statement writes until
  -- then is where the whole document begins to write.
  have hprefix : (statement s (⟨.classWord, "class", ⟨(2 : Nat), 1⟩⟩ ::
      (us ++ close :: (Stream.lineTokens 3 before ++ (line ++ behind))))).events <+:
        (document s s.tokens).events := by
    rw [hdocument, htokens]
    exact events_prefix_block rfl (by simp)
  rw [statement_class rfl, ← List.cons_append, opened_run hrow,
    body_separates (by simp [separates, hclose]), body_lines hbefore, hmethod,
    Reply.after_after, Reply.after_follow, Reply.after_after] at hprefix
  obtain ⟨more, hmore⟩ := (List.prefix_append _ _).trans hprefix
  refine ⟨more, ?_⟩
  rw [parse, ofStream, ofReply_of_done houtcome, ← hmore]
  simp

/-- Where the first parenthesis stands alone, a name with parameters is a method, whatever the parameters are,
and adds nothing else to its class. What it returns is lost if a link ends in one of the other parentheses,
and it is no method if the first one makes a token with what follows it. -/
theorem parse_method (m : Method) (owner : Name) {before after : List String}
    (hbefore : ∀ l ∈ before, Inside l) (hafter : ∀ l ∈ after, Inside l) :
    let drawn := ((empty.declareClass owner.text 2).applyAll
      (bodyEvents owner.text 3 before)).addMember owner.text m.member
    (∃ more, parse (m.source owner before after) = drawn.applyAll more) ∧
    (m.opens → parse (m.source owner before after) =
      drawn.applyAll (bodyEvents owner.text (before.length + 4) after)) := by
  intro drawn
  have hdrawn : ∀ more, empty.applyAll (.declare owner.text 2 ::
      (bodyEvents owner.text 3 before ++ .member owner.text m.member :: more)) = drawn.applyAll more := by
    intro more
    rw [← List.singleton_append, applyAll_append, applyAll_append]
    rfl
  obtain ⟨more, hmore⟩ := exists_parse (m := m) hbefore hafter
  exact ⟨⟨more, hmore.trans (hdrawn more)⟩, fun h => (parse_opening h hbefore hafter).trans (hdrawn _)⟩

/-- A method whose parameters are nested, with an array among them. -/
def findMethod : Method where
  marker := some .plus
  name := .spelled "find" (by decide)
  parameters := "key: map(str, [int]), (a -> b)"
  returned := some (.spelled "option" (by decide))
  free h := absurd h (Option.some_ne_none _)
  unbroken := by decide
  balanced := by decide +kernel
  unquoted := by decide
  unbraced := by decide
  uncommented := by decide +kernel

theorem parse_findMethod :
    let owner : Name := ⟨.spelled "Index", by decide⟩
    let line := "+find(key: map(str, [int]), (a -> b)) option"
    findMethod.text = line ∧ (∀ l ∈ ["-int size"], Inside l) ∧ (∀ l ∈ ["<<final>>"], Inside l) ∧
      parse (findMethod.source owner ["-int size"] ["<<final>>"]) =
        (((empty.declareClass "Index" 2).applyAll (bodyEvents "Index" 3 ["-int size"])).addMember "Index"
          ⟨"find", true, .publicly, some "option"⟩).applyAll (bodyEvents "Index" 5 ["<<final>>"]) := by
  intro owner line
  have hsize : ∀ l ∈ ["-int size"], Inside l :=
    List.forall_mem_singleton.mpr (inside_of_plain (by decide) (by decide +kernel))
  have hfinal : ∀ l ∈ ["<<final>>"], Inside l :=
    List.forall_mem_singleton.mpr (inside_of_plain (by decide) (by decide +kernel))
  have hmember : findMethod.member = ⟨"find", true, .publicly, some "option"⟩ := by decide +kernel
  have hparse := (parse_method findMethod owner hsize hfinal).2 (by decide)
  rw [hmember] at hparse
  exact ⟨by decide, hsize, hfinal, hparse⟩

/-- A method whose parameters begin with a parenthesis. -/
def castMethod : Method where
  marker := some .plus
  name := .spelled "f" (by decide)
  parameters := "(int) x"
  returned := none
  free h := absurd h (Option.some_ne_none _)
  unbroken := by decide
  balanced := by decide +kernel
  unquoted := by decide
  unbraced := by decide
  uncommented := by decide +kernel

def castText : String := "classDiagram\nclass A \x7b\n+f((int) x)\n\x7d\n"

/-- Two parentheses in a row make the method an attribute, and nothing is reported. -/
theorem parse_castText : castMethod.source ⟨.spelled "A", by decide⟩ [] [] = castText ∧
    parse castText = { classes := ⟨[("A",
      { name := "A", line := 2, members := [⟨"f", false, .publicly, none⟩] })]⟩ } := by
  decide +kernel

example : (parse "classDiagram\nclass A \x7b\n+f(x --) int\n\x7d\n").classes = ⟨[("A",
    { name := "A", line := 2, members := [⟨"f", true, .publicly, none⟩] })]⟩ := by
  decide +kernel

end document

end Method
end Mermaid.ClassDiagram
