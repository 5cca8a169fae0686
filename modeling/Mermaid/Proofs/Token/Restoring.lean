import Mermaid.Proofs.Token.Source
import Mermaid.Proofs.Token.Spacing

/-! Lines put together from their tokens again. A token knows its first column and its lexeme only, and
yet what comes of the tokens is the line, with its white space outside strings cut down to single spaces,
without its remark, and with the last string closed. -/
namespace Mermaid
open Lexicon Text Slice

namespace Slice
variable {c : Char} {s rest : List Char}

private theorem links_ink : ∀ e ∈ links, e.1.within Source.isInk := by decide

private theorem punctuation_ink : ∀ e ∈ punctuation,
    e.1.toList.all Source.isInk ∨ e.1.toList = ['%'] := by decide +kernel

private theorem isInk_of_inWord {c : Char} (h : InWord c) : Source.isInk c := by
  rcases h with hword | rfl | rfl
  · have hmarks : ['"', '%', ' ', '\t', '\x0c', '\x0b'].all (!isWord ·) := by decide
    have hne : ∀ d ∈ ['"', '%', ' ', '\t', '\x0c', '\x0b'], c ≠ d := by
      rintro d hd rfl
      simpa [hword] using List.all_eq_true.mp hmarks c hd
    simp only [List.forall_mem_cons] at hne
    simp [Source.isInk, isGap, isBreak_of_isWord hword, hne]
  · decide
  · decide

/-- The characters of a token that is no string and no comment. -/
theorem solid_cut (hspan : (cut c s).span ++ rest = c :: s) (hc : isBreak c = false)
    (hgap : isGap c = false)
    (hk : ∀ said ∈ (cut c s).token?, said.1 ≠ .comment ∧ said.1 ≠ .string) :
    Source.Solid (cut c s).span rest := by
  obtain ⟨hcomment, hstring⟩ := length?_eq_none hc hgap hk
  -- A per cent sign on its own has no other behind it.
  have hpercent : (cut c s).span = ['%'] → Source.Solid (cut c s).span rest := by
    intro hsign
    refine .inr ⟨hsign, ?_⟩
    rw [hsign] at hspan
    rw [← hspan] at hcomment
    cases rest with
    | nil => rfl
    | cons d rest =>
      have hd : d ≠ '%' := by
        rintro rfl
        cases hcomment
      simpa using hd
  rw [cut_of_spelled? hc hgap] at hspan hpercent ⊢
  cases hs : spelled? (c :: s) with
  | none =>
    rw [hs, Option.getD_none] at hpercent
    by_cases hp : c = '%'
    · exact hpercent (by rw [hp])
    · have hquote : c ≠ '"' := by
        rintro rfl
        cases hstring
      exact .inl (List.forall_mem_singleton.mpr (by simp [Source.isInk, hc, hgap, hquote, hp]))
  | some slice =>
    rw [hs, Option.getD_some] at hpercent
    obtain ⟨e, he, hread⟩ := List.exists_of_findSome?_eq_some hs
    obtain ⟨n, hn, rfl⟩ := Option.map_eq_some_iff.mp hread
    simp only [entries, List.mem_append, List.mem_cons, List.mem_map] at he
    rcases he with (rfl | rfl | ⟨e, hp, rfl⟩) | rfl | ⟨e, hx, rfl⟩
    · exact absurd (hcomment.symm.trans hn) (by simp)
    · exact absurd (hstring.symm.trans hn) (by simp)
    · exact .inl (Pattern.forall_mem_take (links_ink e hp) hn)
    · exact .inl fun d hd => isInk_of_inWord (inWord_of_word hn d hd)
    · have htake : (c :: s).take n = e.1.toList := by
        simp only [ofPattern, Pattern.length?, Option.ite_none_right_eq_some, Option.some.injEq] at hn
        obtain ⟨hstart, rfl⟩ := hn
        exact (List.prefix_iff_eq_take.mp (List.isPrefixOf_iff_prefix.mp hstart)).symm
      rcases punctuation_ink e hx with hink | hsign
      · exact .inl (by simpa only [Option.getD_some, htake] using List.all_eq_true.mp hink)
      · exact hpercent (htake.trans hsign)

end Slice

/-- Tokens that stand one behind the other from a column on, and what they spell with a space wherever
white space comes between. -/
inductive Laid : Int → List Token → List Char → Prop
  | nil {column : Int} : Laid column [] []
  | comment {t : Token} {column : Int} (hk : t.kind = .comment) : Laid column [t] []
  | gap {column next : Int} {ts : List Token} {x : List Char} (hlt : column < next)
      (hx : x.head?.all (!Slice.isGap ·)) (h : Laid next ts x) : Laid column ts (' ' :: x)
  | token {t : Token} {column : Int} {word : List Char} {ts : List Token} {x : List Char}
      (hk : t.kind ≠ .comment) (hcolumn : t.position.column = column) (hword : t.spelling.toList = word)
      (hhead : word.head?.any (!Slice.isGap ·)) (hlast : word.getLast?.any (!Slice.isGap ·))
      (h : Laid t.endColumn ts x) : Laid column (t :: ts) (word ++ x)

namespace Laid
open Source
variable {column edge : Int} {ts : List Token} {x : List Char}

theorem joinAfter_eq (h : Laid column ts x) (hedge : edge ≤ column)
    (hx : edge < column → x.head?.all (!isGap ·)) :
    (Token.joinAfter edge ts).toList =
      ((if edge < column then [' '] else []) ++ x).rdropWhile isGap := by
  have hspace : (if edge < column then [' '] else []).rdropWhile isGap = [] := by
    rw [List.rdropWhile_eq_nil_iff]
    split <;> simp [isGap]
  induction h generalizing edge with
  | nil => rw [List.append_nil, hspace, Token.joinAfter, String.toList_empty]
  | comment hk =>
    rw [List.append_nil, hspace, Token.joinAfter, if_pos (by simp [hk]), Token.joinAfter, String.toList_empty]
  | @gap column next ts x hlt hx' h ih =>
    have hnone : ¬ edge < column := fun hlt => absurd (hx hlt) (by simp [isGap])
    have hlt : edge < next := by omega
    rw [ih hlt.le (fun _ => hx') (by rw [if_pos hlt]; rfl), if_neg hnone, if_pos hlt, List.nil_append,
      List.singleton_append]
  | @token t column word ts x hk hcolumn hword hhead hlast h ih =>
    subst hcolumn hword
    have hrest : (Token.joinAfter t.endColumn ts).toList = x.rdropWhile isGap := by
      have hnext := ih (le_refl _) (fun hlt => absurd hlt (lt_irrefl _)) (by simp)
      rwa [if_neg (lt_irrefl _), List.nil_append] at hnext
    have hword : ((if edge < t.position.column then [' '] else []) ++ t.spelling.toList).getLast?.any
        (!isGap ·) := by
      have hne : t.spelling.toList ≠ [] := by
        intro hnil
        rw [hnil] at hlast
        cases hlast
      rwa [List.getLast?_append_of_ne_nil _ hne]
    rw [Token.joinAfter, if_neg (by simpa using hk), String.toList_append, String.toList_append, hrest,
      ← List.append_assoc, rdropWhile_append hword]
    split <;> rfl

theorem joinSource_eq (h : Laid column ts x) : (Token.joinSource ts).toList = trim x := by
  induction h with
  | nil => rfl
  | comment hk =>
    rw [Token.joinSource, if_pos (by simp [hk])]
    rfl
  | gap _ _ _ ih => rw [ih, trim_space]
  | @token t column word ts x hk hcolumn hword hhead hlast h _ =>
    subst hword
    have hrest := h.joinAfter_eq (le_refl _) fun hlt => absurd hlt (lt_irrefl _)
    rw [if_neg (lt_irrefl _), List.nil_append] at hrest
    have htrim : (t.spelling.toList ++ x).head?.all (!isGap ·) := by
      cases hs : t.spelling.toList with
      | nil => simp [hs] at hhead
      | cons c s => simpa [hs] using hhead
    rw [Token.joinSource, if_neg (by simpa using hk), String.toList_append, hrest, trim_of_head? htrim,
      rdropWhile_append hlast]

end Laid

theorem Token.toList_spelling_string (text : List Char) (p : Position) :
    (⟨.string, String.ofList text, p⟩ : Token).spelling.toList = '"' :: (text ++ ['"']) := by
  simp [Token.spelling]

theorem Token.endColumn_of_spelling {t : Token} {word : List Char} (h : t.spelling.toList = word) :
    t.endColumn = t.position.column + word.length := by
  rw [Token.endColumn, ← h, String.length_toList]

private theorem not_mem_of_inString {text : List Char} (h : ∀ c ∈ text, inString c) : '"' ∉ text :=
  fun hmem => absurd (h '"' hmem) (by decide)

private theorem any_getLast?_closed (text : List Char) :
    ('"' :: (text ++ ['"'])).getLast?.any (!isGap ·) := by
  rw [← List.cons_append, List.getLast?_concat]
  rfl

namespace Mark
open Source
variable {m : Mark} {s rest : List Char}

/-- The tokens on the rest of the line. -/
def lineTokens (m : Mark) (s : List Char) : List Token :=
  (m.tokens (ofText s)).takeWhile (·.kind != .newline)

section cut
variable {c : Char} {kind : TokenKind} {lexeme : List Char}

theorem lineTokens_cons (hspan : (cut c s).span ++ rest = c :: s)
    (hsaid : (cut c s).token? = some (kind, lexeme)) (hk : kind ≠ .newline) :
    m.lineTokens (c :: s) =
      ⟨kind, String.ofList lexeme, m.position⟩ :: (m.past (cut c s)).lineTokens rest := by
  rw [lineTokens, ofText_cons hspan, tokens, token?, hsaid]
  exact List.takeWhile_cons_of_pos (by simpa using hk)

theorem lineTokens_gap (hspan : (cut c s).span ++ rest = c :: s) (hsaid : (cut c s).token? = none) :
    m.lineTokens (c :: s) = (m.past (cut c s)).lineTokens rest := by
  rw [lineTokens, ofText_cons hspan, tokens, token?, hsaid]
  rfl

/-- Nothing is left of a line at its end. -/
theorem lineTokens_end (h : s.head?.all isBreak) : m.lineTokens s = [] ∧ lineOf s = [] := by
  cases s with
  | nil => exact ⟨rfl, rfl⟩
  | cons c s =>
    have hc : isBreak c := by simpa using h
    obtain ⟨rest, hspan, -⟩ := exists_tile_cut c s
    constructor
    · rw [lineTokens, ofText_cons hspan, tokens, token?, token?_of_isBreak hc]
      rfl
    · exact List.takeWhile_cons_of_neg (by simp [hc])

theorem lineOf_cons (hspan : (cut c s).span ++ rest = c :: s) (htile : (cut c s).Tile rest)
    (hc : isBreak c = false) : lineOf (c :: s) = (cut c s).span ++ lineOf rest := by
  have hline : Unbroken (cut c s).span := htile.unbroken_span hc hspan
  rw [lineOf, ← hspan, List.takeWhile_append_of_pos fun d hd => by simp [hline d hd]]
  rfl

end cut

/-- The tokens of a line spell it. -/
theorem laid (m : Mark) (s : List Char) : Laid m.column (m.lineTokens s) (spaced (lineOf s)) := by
  have hended : ∀ {column : Int} {n : Mark} {x : List Char}, x.head?.all isBreak →
      Laid column (n.lineTokens x) (spaced (lineOf x)) := fun {_ n _} h => by
    rw [(lineTokens_end (m := n) h).1, (lineTokens_end (m := n) h).2]
    exact .nil
  induction s using cut_induction generalizing m with
  | nil => exact hended rfl
  | tile c s rest hspan htile ih =>
    cases hc : isBreak c with
    | true => exact hended (by simpa using hc)
    | false =>
      have hline := lineOf_cons hspan htile hc
      cases hgap : isGap c with
      | true =>
        have hsaid : (cut c s).token? = none := by rw [cut_gap hgap]
        have hspaces : ∀ d ∈ (cut c s).span, isGap d := by
          rw [cut_gap hgap]
          exact List.forall_mem_cons.mpr ⟨hgap, fun d hd => List.mem_takeWhile_imp hd⟩
        have hrest : rest.head?.all (!isGap ·) := eq_dropWhile hspan hgap ▸ head?_dropWhile s
        have hnext := column_past (m := m) (s := cut c s) (by simp [hsaid])
        have hpos := htile.length_pos
        rw [lineTokens_gap hspan hsaid, hline, spaced_gap htile.span_ne_nil hspaces (head?_lineOf hrest)]
        exact .gap (by omega) (head?_spaced (head?_lineOf hrest)) (ih _)
      | false =>
        obtain ⟨⟨kind, lexeme⟩, hsaid⟩ := Option.isSome_iff_exists.mp (isSome_token? hgap s)
        have hk : kind ≠ .newline := htile.kind_ne_newline (htile.unbroken_span hc hspan) _ hsaid
        have hnext := column_past (m := m) (s := cut c s) (by simpa [hsaid] using hk)
        have hrest := ih (m.past (cut c s))
        have hsolid := solid_cut hspan hc hgap
        have hremark : kind = .comment → rest.head?.all isBreak := fun hk =>
          head?_of_comment hspan (hk ▸ hsaid)
        rw [lineTokens_cons hspan hsaid hk, hline]
        generalize m.past (cut c s) = next at *
        generalize cut c s = slice at *
        cases htile with
        | gap => cases hsaid
        | lineBreak =>
          cases hsaid
          exact absurd rfl hk
        | comment =>
          cases hsaid
          obtain ⟨htokens, hline⟩ := lineTokens_end (m := next) (hremark rfl)
          rw [htokens, hline, List.append_nil, spaced_comment]
          exact .comment rfl
        | closed h =>
          cases hsaid
          have hspelling := Token.toList_spelling_string lexeme m.position
          have hcolumn := (Token.endColumn_of_spelling hspelling).trans hnext.symm
          rw [spaced_closed (not_mem_of_inString h)]
          exact .token (by simp) rfl hspelling rfl (any_getLast?_closed lexeme) (hcolumn ▸ hrest)
        | unclosed h hend =>
          cases hsaid
          obtain ⟨htokens, hline⟩ := lineTokens_end (m := next) hend
          rw [htokens, hline, List.append_nil, spaced_unclosed (not_mem_of_inString h),
            ← List.append_nil ('"' :: (lexeme ++ ['"']))]
          exact .token (by simp) rfl (Token.toList_spelling_string lexeme m.position) rfl
            (any_getLast?_closed lexeme) .nil
        | verbatim hedited hne h =>
          cases hsaid
          have hplain : kind ≠ .comment ∧ kind ≠ .string := by
            constructor <;> rintro rfl <;> exact hedited (by decide)
          have hsolid := hsolid (by simpa using hplain)
          have hspelling : (⟨kind, String.ofList lexeme, m.position⟩ : Token).spelling.toList = lexeme := by
            simp [Token.spelling, hplain.2]
          have hcolumn := (Token.endColumn_of_spelling hspelling).trans hnext.symm
          have hink : ∀ d ∈ lexeme, (!isGap d) = true := fun d hd => by simp [(hsolid.quiet d hd).1]
          have hhead : lexeme.head?.any (!isGap ·) := by
            rw [List.head?_eq_some_head hne, Option.any_some, hink _ (List.head_mem hne)]
          have hlast : lexeme.getLast?.any (!isGap ·) := by
            rw [List.getLast?_eq_some_getLast hne, Option.any_some, hink _ (List.getLast_mem hne)]
          rw [spaced_solid (hsolid.lineOf)]
          exact .token hplain.1 rfl hspelling hhead hlast (hcolumn ▸ hrest)

theorem joinSource_lineTokens (m : Mark) (s : List Char) :
    (Token.joinSource (m.lineTokens s)).toList = restore (lineOf s) := (m.laid s).joinSource_eq

/-- The tokens from any one on are those of what is left of the text from its place on. -/
theorem exists_of_tokens_append {taken : List Char} {t : Token} {us ts : List Token} (s : List Char)
    (happart : Apart taken s) (hm : m.position = .behind taken)
    (h : m.tokens (ofText s) = us ++ t :: ts) : ∃ more rest n, s = more ++ rest ∧
      t.position = .behind (taken ++ more) ∧ Mark.tokens n (ofText rest) = t :: ts := by
  induction s using cut_induction generalizing taken m us with
  | nil => simp [ofText, ofTextAfter, tokens] at h
  | tile c s rest hspan htile ih =>
    obtain ⟨hnext, hrest⟩ := past_cut_behind hspan htile happart hm
    have hlater : ∀ {us}, (m.past (cut c s)).tokens (ofText rest) = us ++ t :: ts →
        ∃ more rest n, c :: s = more ++ rest ∧ t.position = .behind (taken ++ more) ∧
          Mark.tokens n (ofText rest) = t :: ts := by
      intro us h
      obtain ⟨more, left, n, rfl, hposition, htokens⟩ := ih hrest hnext h
      refine ⟨(cut c s).span ++ more, left, n, ?_, ?_, htokens⟩
      · rw [List.append_assoc, hspan]
      · rw [← List.append_assoc, hposition]
    have hfirst := h
    rw [ofText_cons hspan, tokens] at h
    cases hsaid : m.token? (cut c s) with
    | none =>
      rw [hsaid] at h
      exact hlater h
    | some u =>
      rw [hsaid] at h
      cases us with
      | nil =>
        obtain ⟨rfl, -⟩ := List.cons.inj h
        obtain ⟨said, -, rfl⟩ := Option.map_eq_some_iff.mp hsaid
        exact ⟨[], c :: s, m, rfl, by rw [List.append_nil]; exact hm, hfirst⟩
      | cons v us => exact hlater (List.cons.inj h).2

end Mark

/-- A line is restored from its tokens, and what is left of a line of any text from a token on is restored
from the tokens of the line from that one on. -/
theorem joinSource_restores (text : String) :
    let tokens := (Stream.ofText text).tokens
    (Unbroken text.toList → (Token.joinSource tokens).toList = Source.restore text.toList ∧
      ∀ before t ts, tokens = before ++ t :: ts →
        (Token.joinSource (t :: ts)).toList =
          Source.restore (text.toList.drop (t.position.column - 1).toNat)) ∧
    ∀ before t ts, tokens = before ++ t :: ts → ∃ taken rest, text.toList = taken ++ rest ∧
      t.position = .behind taken ∧
      (Token.joinSource ((t :: ts).takeWhile (·.kind != .newline))).toList =
        Source.restore (Source.lineOf rest) := by
  intro tokens
  have hsuffix : ∀ before t ts, tokens = before ++ t :: ts → ∃ taken rest,
      text.toList = taken ++ rest ∧ t.position = .behind taken ∧
      (Token.joinSource ((t :: ts).takeWhile (·.kind != .newline))).toList =
        Source.restore (Source.lineOf rest) := by
    intro before t ts h
    have hstart : Mark.start.position = .behind [] := rfl
    obtain ⟨taken, rest, n, htext, hposition, htokens⟩ :=
      Mark.start.exists_of_tokens_append text.toList (by simp [Apart]) hstart h
    refine ⟨taken, rest, htext, hposition, ?_⟩
    rw [← htokens]
    exact n.joinSource_lineTokens rest
  refine ⟨fun hline => ?_, hsuffix⟩
  have hwhole : ∀ {ts}, ts <:+ tokens → ts.takeWhile (·.kind != .newline) = ts := by
    intro ts h
    have hcount : (scan text).countP (·.kind == .newline) = 0 :=
      (scan_positions text).2.2.2.1.trans hline.breakCount_eq
    refine List.takeWhile_eq_self_iff.mpr fun u hu => ?_
    have hu := List.countP_eq_zero.mp hcount u (List.mem_append_left _ (h.subset hu))
    simpa using hu
  have hrest : ∀ {rest}, rest <:+ text.toList → Source.lineOf rest = rest := by
    intro rest h
    exact List.takeWhile_eq_self_iff.mpr fun c hc => by simp [hline c (h.subset hc)]
  constructor
  · rw [← hwhole List.suffix_rfl, ← hrest List.suffix_rfl]
    exact Mark.start.joinSource_lineTokens text.toList
  · intro before t ts h
    obtain ⟨taken, rest, htext, hposition, hjoined⟩ := hsuffix before t ts h
    have hcolumn : text.toList.drop (t.position.column - 1).toNat = rest := by
      have htaken : Unbroken taken := fun c hc => hline c (htext ▸ List.mem_append_left _ hc)
      have hbehind : Position.behind ([] ++ taken) = _ := Position.behind_append_inLine htaken
      rw [List.nil_append] at hbehind
      have hplace : t.position.column = 1 + taken.length := by
        rw [hposition, hbehind]
        rfl
      have hlength : (t.position.column - 1).toNat = taken.length := by omega
      rw [hlength, htext, List.drop_left]
    rw [hwhole ⟨before, h.symm⟩, hrest ⟨taken, htext.symm⟩] at hjoined
    rw [hjoined, hcolumn]

/-- A string that nothing closes, and a wide gap in front of the arrow. -/
theorem joinSource_restores_openString :
    let text := "A  --> \"b  c"
    let tokens := (Stream.ofText text).tokens
    Unbroken text.toList ∧ Source.restore text.toList = "A --> \"b  c\"".toList ∧
      (Token.joinSource tokens).toList = Source.restore text.toList ∧
      (Token.joinSource (tokens.drop 1)).toList = Source.restore (text.toList.drop 3) := by
  intro text tokens
  have hline : Unbroken text.toList := by decide
  have harrow : tokens.drop 1 = ⟨.solidArrow, "-->", ⟨1, 4⟩⟩ :: tokens.drop 2 := by decide +kernel
  obtain ⟨hwhole, hrest⟩ := (joinSource_restores text).1 hline
  refine ⟨hline, by decide, hwhole, ?_⟩
  rw [harrow]
  exact hrest (tokens.take 1) _ _ (harrow ▸ (List.take_append_drop 1 tokens).symm)

end Mermaid
