import Mermaid.Proofs.Token.Spacing

/-! Tokens moved within their lines. A text with its white space cut down has the tokens of the text,
each on its line, and a token begins right where the one before it ends if it did so in the text. -/
namespace Mermaid
open Lexicon

def Position.moved (column : Position → Int) (p : Position) : Position := ⟨p.line, column p⟩

def Token.moved (column : Position → Int) (t : Token) : Token :=
  { t with position := t.position.moved column }

@[simp] theorem Token.kind_moved (column : Position → Int) (t : Token) :
    (t.moved column).kind = t.kind := rfl

@[simp] theorem Token.lexeme_moved (column : Position → Int) (t : Token) :
    (t.moved column).lexeme = t.lexeme := rfl

@[simp] theorem Token.spelling_moved (column : Position → Int) (t : Token) :
    (t.moved column).spelling = t.spelling := rfl

theorem Token.map_lexeme_moved (column : Position → Int) (ts : List Token) :
    (ts.map (·.moved column)).map (·.lexeme) = ts.map (·.lexeme) := List.map_map

def Stream.moved (column : Position → Int) (s : Stream) : Stream :=
  ⟨s.tokens.map (·.moved column), s.finish.moved column⟩

namespace Token

/-- Two tokens in a row on one line: the second one begins right behind the first where it does so when
both are moved, and there are none behind a comment. -/
def SameGap (column : Position → Int) (t u : Token) : Prop :=
  t.kind ≠ .newline → u.kind ≠ .newline → t.kind ≠ .comment ∧
    (t.endColumn < u.position.column ↔ (t.moved column).endColumn < (u.moved column).position.column)

variable {column : Position → Int} {t : Token} {ts : List Token}

private theorem joinAfter_moved (h : (t :: ts).IsChain (SameGap column))
    (hline : ∀ u ∈ t :: ts, u.kind ≠ .newline) :
    joinAfter (t.moved column).endColumn (ts.map (·.moved column)) = joinAfter t.endColumn ts := by
  induction ts generalizing t with
  | nil => rfl
  | cons u us ih =>
    obtain ⟨hgap, hmore⟩ := List.isChain_cons_cons.mp h
    obtain ⟨ht, hline⟩ := List.forall_mem_cons.mp hline
    have hedge := (hgap ht (hline u List.mem_cons_self)).2
    rw [List.map_cons, joinAfter, joinAfter]
    rw [kind_moved, spelling_moved, ih hmore hline]
    by_cases hu : u.kind = .comment
    · cases us with
      | nil => simp [hu, joinAfter]
      | cons v us =>
        obtain ⟨hv, -⟩ := List.isChain_cons_cons.mp hmore
        exact absurd hu (hv (hline u List.mem_cons_self) (hline v (by simp))).1
    · simp [hu, hedge]

/-- The text of a line is the same with its tokens moved. -/
theorem joinSource_moved (h : ts.IsChain (SameGap column)) (hline : ∀ t ∈ ts, t.kind ≠ .newline) :
    joinSource (ts.map (·.moved column)) = joinSource ts := by
  cases ts with
  | nil => rfl
  | cons t ts =>
    rw [List.map_cons, joinSource, joinSource, kind_moved, spelling_moved, joinAfter_moved h hline]
    by_cases ht : t.kind = .comment
    · cases ts with
      | nil => rfl
      | cons u ts =>
        obtain ⟨hu, -⟩ := List.isChain_cons_cons.mp h
        exact absurd ht (hu (hline t List.mem_cons_self) (hline u (by simp))).1
    · simp [ht]

/-- Another token of the same line that says the same. -/
structure Shift (t t' : Token) : Prop where
  kind : t'.kind = t.kind
  lexeme : t'.lexeme = t.lexeme
  line : t'.position.line = t.position.line

theorem Shift.eq_moved {t' : Token} (h : t.Shift t') (hc : column t.position = t'.position.column) :
    t' = t.moved column := by
  obtain ⟨kind, lexeme, ⟨line, column⟩⟩ := t'
  obtain ⟨rfl, rfl, rfl⟩ := h
  rw [moved, Position.moved, hc]

/-- Tokens at different places can be moved to any columns. -/
theorem exists_moved {ps : List (Token × Token)} (h : ∀ p ∈ ps, p.1.Shift p.2)
    (hplaces : (ps.map (·.1.position)).Nodup) :
    ∃ column : Position → Int, ∀ p ∈ ps, p.2 = p.1.moved column := by
  induction ps with
  | nil => exact ⟨Position.column, List.forall_mem_nil _⟩
  | cons p ps ih =>
    obtain ⟨hp, hps⟩ := List.forall_mem_cons.mp h
    obtain ⟨hnew, hmore⟩ := List.nodup_cons.mp hplaces
    obtain ⟨column, hcolumn⟩ := ih hps hmore
    refine ⟨Function.update column p.1.position p.2.position.column, ?_⟩
    rw [List.forall_mem_cons]
    constructor
    · exact hp.eq_moved (Function.update_self ..)
    · intro q hq
      have hne : q.1.position ≠ p.1.position := fun heq =>
        hnew (List.mem_map.mpr ⟨q, hq, heq⟩)
      refine (hps q hq).eq_moved ?_
      rw [Function.update_of_ne hne, hcolumn q hq]
      rfl

/-- Each pair of tokens on one line has a gap between its second tokens where it has one between its
first tokens, and there are none behind a comment. -/
def GapAlike (p q : Token × Token) : Prop :=
  p.1.kind ≠ .newline → q.1.kind ≠ .newline → p.1.kind ≠ .comment ∧
    (p.1.endColumn < q.1.position.column ↔ p.2.endColumn < q.2.position.column)

end Token

namespace Slice

/-- A token that is no comment is spelled as its slice shows, if its line goes on behind it. -/
theorem Tile.length_spelling {s : Slice} {rest : List Char} (h : s.Tile rest) {kind : TokenKind}
    {lexeme : List Char} (hsaid : s.token? = some (kind, lexeme)) (hnewline : kind ≠ .newline)
    (hcomment : kind ≠ .comment) (hend : ¬ rest.head?.all isBreak) (p : Position) :
    (⟨kind, String.ofList lexeme, p⟩ : Token).spelling.length = s.span.length := by
  cases h with
  | gap => cases hsaid
  | lineBreak =>
    cases hsaid
    exact absurd rfl hnewline
  | comment =>
    cases hsaid
    exact absurd rfl hcomment
  | closed =>
    cases hsaid
    have hmark : "\"".length = 1 := rfl
    simp only [Token.spelling, beq_self_eq_true, if_true, String.length_append, String.length_ofList,
      List.length_cons, List.length_append, List.length_nil, hmark]
    omega
  | unclosed _ hrest => exact absurd hrest hend
  | verbatim hk =>
    cases hsaid
    have hstring : kind ≠ .string := by
      rintro rfl
      exact hk (by decide)
    simp [Token.spelling, hstring]

end Slice

namespace Mark
open Token Slice

/-- Where the first tokens stand of a text from `m` on, and of that text with its white space cut down
from `m'` on. -/
structure Heads (m m' : Mark) (before : Option Char) (s : List Char) (p : Token × Token) : Prop where
  first : m.column ≤ p.1.position.column
  second : m'.column ≤ p.2.position.column
  newline : s.head?.all isBreak → p.1.kind = .newline
  gap : p.1.kind ≠ .newline → before.any (!isBreak ·) →
    (m.column < p.1.position.column ↔ m'.column < p.2.position.column)

/-- The pairs of tokens of a text from `m` on, and of that text with its white space cut down from `m'` on:
they say the same on the same lines, and have the same gaps between them. -/
structure Paired (m m' : Mark) (before : Option Char) (s : List Char) (ps : List (Token × Token)) :
    Prop where
  fst : ps.map (·.1) = m.tokens (ofText s)
  snd : ps.map (·.2) = m'.tokens (respaced parting before (ofText s))
  shift : ∀ p ∈ ps, p.1.Shift p.2
  gaps : ps.IsChain GapAlike
  finish : ((respaced parting before (ofText s)).foldl past m').line = ((ofText s).foldl past m).line
  head : ∀ p ∈ ps.head?, m.Heads m' before s p

variable {m m' : Mark} {before : Option Char} {c : Char} {s rest : List Char}

theorem line_past_congr (hm : m'.line = m.line) (slice : Slice) :
    (m'.past slice).line = (m.past slice).line := by
  rw [past, past]
  split <;> simp [hm]

/-- White space in front of a text. -/
private theorem exists_paired_gap (hm : m'.line = m.line) (hgap : isGap c)
    (ih : ∀ {m m' : Mark} {before}, m'.line = m.line →
      ∃ ps, m.Paired m' before (s.dropWhile isGap) ps) :
    ∃ ps, m.Paired m' before (c :: s) ps := by
  have hslices : ofText (c :: s) = ⟨c :: s.takeWhile isGap, none⟩ :: ofText (s.dropWhile isGap) := by
    rw [← cut_gap hgap]
    exact ofText_cons (by rw [cut_gap hgap, List.cons_append, List.takeWhile_append_dropWhile])
  have hline : isBreak c = false := isBreak_of_isGap hgap
  have hcolumn : ∀ (m : Mark) (span : List Char),
      (m.past ⟨span, none⟩).column = m.column + span.length := fun _ _ => column_past (by simp)
  obtain ⟨last, hlast⟩ := respaced_gap parting before hgap s
  cases hkept : parting before (s.dropWhile isGap).head? with
  | true =>
    obtain ⟨ps, hps⟩ := @ih (m.past ⟨c :: s.takeWhile isGap, none⟩) (m'.past ⟨[' '], none⟩) last hm
    rw [hkept, if_pos rfl] at hlast
    refine ⟨ps, hslices ▸ hps.fst, hlast ▸ hps.snd, hps.shift, hps.gaps,
      by rw [hlast, hslices]; exact hps.finish, fun p hp => ?_⟩
    have hhead := hps.head p hp
    have hfirst := hhead.first
    have hsecond := hhead.second
    rw [hcolumn, List.length_cons] at hfirst
    rw [hcolumn, List.length_singleton] at hsecond
    exact ⟨by omega, by omega, by simp [hline], fun _ _ => iff_of_true (by omega) (by omega)⟩
  | false =>
    obtain ⟨ps, hps⟩ := @ih (m.past ⟨c :: s.takeWhile isGap, none⟩) m' last hm
    rw [hkept, if_neg Bool.false_ne_true, List.nil_append] at hlast
    refine ⟨ps, hslices ▸ hps.fst, hlast ▸ hps.snd, hps.shift, hps.gaps,
      by rw [hlast, hslices]; exact hps.finish, fun p hp => ?_⟩
    have hhead := hps.head p hp
    have hfirst := hhead.first
    rw [hcolumn, List.length_cons] at hfirst
    refine ⟨by omega, hhead.second, by simp [hline], fun hk hbefore => ?_⟩
    -- White space that is left out inside a line is at its end.
    exact absurd (hhead.newline (isBreak_of_not_parting hbefore hkept)) hk

/-- The first token of a text, and the next one where there is one, have a gap between them where they
have one with white space cut down. -/
private theorem gapAlike_cut (hspan : (cut c s).span ++ rest = c :: s) (htile : (cut c s).Tile rest)
    {said : TokenKind × List Char} (hsaid : (cut c s).token? = some said) {q : Token × Token}
    (hhead : (m.past (cut c s)).Heads (m'.past (cut c s)) (cut c s).span.getLast? rest q) :
    GapAlike (⟨said.1, String.ofList said.2, m.position⟩, ⟨said.1, String.ofList said.2, m'.position⟩)
      q := by
  intro ht hq
  have hend : ¬ rest.head?.all isBreak := fun hend => hq (hhead.newline hend)
  have hcomment : said.1 ≠ .comment := by
    intro hk
    obtain ⟨kind, lexeme⟩ := said
    obtain rfl : kind = .comment := hk
    exact hend (head?_of_comment hspan hsaid)
  have hc : isBreak c = false := by
    rw [← Bool.not_eq_true]
    intro hc
    rw [token?_of_isBreak hc] at hsaid
    exact ht (congrArg Prod.fst (Option.some.inj hsaid)).symm
  have hlength := htile.length_spelling hsaid ht hcomment hend
  have hcolumn : ∀ m : Mark, (m.past (cut c s)).column = m.column + (cut c s).span.length :=
    fun m => column_past (by simpa [hsaid] using ht)
  refine ⟨hcomment, ?_⟩
  have hgaps := hhead.gap hq (any_getLast? hspan htile hc)
  rw [hcolumn, hcolumn] at hgaps
  rw [endColumn, endColumn, hlength, hlength]
  exact hgaps

/-- From two marks on the same line, the tokens of a text and those of the text with its white space cut
down are paired. -/
theorem exists_paired (m m' : Mark) (hm : m'.line = m.line) (before : Option Char) (hs : Ended s) :
    ∃ ps, m.Paired m' before s ps := by
  induction s using cut_induction generalizing m m' before with
  | nil =>
    exact ⟨[], rfl, rfl, List.forall_mem_nil _, .nil, hm, fun p hp => by cases hp⟩
  | tile c s rest hspan htile ih =>
    have hrest : Ended rest := .of_append (hspan ▸ hs)
    cases hgap : isGap c with
    | true =>
      obtain rfl := eq_dropWhile hspan hgap
      exact exists_paired_gap hm hgap fun hm => ih _ _ hm _ hrest
    | false =>
      obtain ⟨said, hsaid⟩ := Option.isSome_iff_exists.mp (isSome_token? hgap s)
      obtain ⟨ps, hps⟩ := ih (m.past (cut c s)) (m'.past (cut c s)) (line_past_congr hm _)
        (cut c s).span.getLast? hrest
      let t : Token := ⟨said.1, String.ofList said.2, m.position⟩
      let t' : Token := ⟨said.1, String.ofList said.2, m'.position⟩
      have htokens : ∀ (m : Mark) (slices : List Slice), m.tokens (cut c s :: slices) =
          ⟨said.1, String.ofList said.2, m.position⟩ :: (m.past (cut c s)).tokens slices := by
        intro m slices
        rw [tokens, token?, hsaid]
        rfl
      refine ⟨(t, t') :: ps, ?_, ?_, ?_, ?_, ?_, ?_⟩
      · rw [ofText_cons hspan, htokens, List.map_cons, hps.fst]
      · rw [respaced_token hspan hgap, htokens, List.map_cons, hps.snd]
      · exact List.forall_mem_cons.mpr ⟨⟨rfl, rfl, hm⟩, hps.shift⟩
      · exact List.isChain_cons.mpr ⟨fun q hq => gapAlike_cut hspan htile hsaid (hps.head q hq), hps.gaps⟩
      · rw [respaced_token hspan hgap, ofText_cons hspan]
        exact hps.finish
      · intro p hp
        obtain rfl := Option.some.inj hp
        refine ⟨le_refl _, le_refl _, fun hc => ?_, fun _ _ =>
          iff_of_false (Int.lt_irrefl _) (Int.lt_irrefl _)⟩
        rw [token?_of_isBreak (by simpa using hc)] at hsaid
        exact (congrArg Prod.fst (Option.some.inj hsaid)).symm

end Mark

namespace Stream
variable {column : Position → Int} {s : Stream} {ts : List Token}

/-- The text of a line of the stream is the same with its tokens moved. -/
theorem joinSource_moved (h : s.tokens.IsChain (Token.SameGap column)) (hts : ts <:+: s.tokens)
    (hline : ∀ t ∈ ts, t.kind ≠ .newline) :
    Token.joinSource (ts.map (·.moved column)) = Token.joinSource ts := by
  have hchain : ts.IsChain (Token.SameGap column) := h.infix hts
  exact Token.joinSource_moved hchain hline

/-- A text with its white space cut down has the tokens of the text, moved within their lines, and with
the gaps between them. -/
theorem exists_moved {text : String} (h : Ended text.toList) : ∃ column : Position → Int,
    ofText (thinned Slice.parting text) = (ofText text).moved column ∧
      (ofText text).tokens.IsChain (Token.SameGap column) := by
  obtain ⟨ps, hps⟩ := Mark.exists_paired Mark.start Mark.start rfl none h
  have hslices : Slice.ofText (thinned Slice.parting text).toList =
      Slice.respaced Slice.parting none (Slice.ofText text.toList) := by
    rw [thinned, String.toList_ofList, Slice.ofText_respell h]
  have htokens : ps.map (·.1) = (ofText text).tokens := hps.fst
  have htokens' : ps.map (·.2) = (ofText (thinned Slice.parting text)).tokens := by
    rw [hps.snd, ofText, hslices]
  have hline : (ofText (thinned Slice.parting text)).finish.line = (ofText text).finish.line := by
    rw [ofText, finalMark, hslices]
    exact hps.finish
  generalize ofText (thinned Slice.parting text) = s' at htokens' hline ⊢
  have hordered : ((ofText text).toList.map (·.position)).Nodup := (ordered_ofText text).imp fun h => h.ne
  generalize ofText text = s at htokens hline hordered ⊢
  have hend : s.endToken.Shift s'.endToken := ⟨rfl, rfl, hline⟩
  have hplaces : ((ps ++ [(s.endToken, s'.endToken)]).map (·.1.position)).Nodup := by
    rw [toList, ← htokens, List.map_append, List.map_map] at hordered
    rw [List.map_append]
    exact hordered
  obtain ⟨column, hcolumn⟩ := Token.exists_moved
    (List.forall_mem_append.mpr ⟨hps.shift, List.forall_mem_singleton.mpr hend⟩) hplaces
  rw [List.forall_mem_append, List.forall_mem_singleton] at hcolumn
  refine ⟨column, ?_, ?_⟩
  · have hall : s'.tokens = s.tokens.map (·.moved column) := by
      rw [← htokens, ← htokens', List.map_map]
      exact List.map_congr_left hcolumn.1
    have hfinish : s'.finish = s.finish.moved column := congrArg Token.position hcolumn.2
    calc s' = ⟨s'.tokens, s'.finish⟩ := rfl
      _ = s.moved column := by rw [hall, hfinish, moved]
  · rw [← htokens, List.isChain_map]
    refine hps.gaps.imp_of_mem_imp fun p q hp hq hgap => ?_
    rwa [Token.GapAlike, hcolumn.1 p hp, hcolumn.1 q hq] at hgap

end Stream
end Mermaid
