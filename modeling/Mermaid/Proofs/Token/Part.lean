import Mermaid.Proofs.Token.Breaks
import Mermaid.Proofs.Token.Phrase

/-! Parts of lines. A part without comments and strings that is followed by white space is cut into
slices of its own, whatever the white space is and whatever comes behind it. -/
namespace Mermaid
open Lexicon Text

namespace Slice

/-- No comment and no string. -/
def Plain (s : Slice) : Prop := ∀ said ∈ s.token?, said.1 ≠ .comment ∧ said.1 ≠ .string

/-- Another character behind a text does not begin a comment, nor one before it. -/
theorem remark_concat {c : Char} (hc : c ≠ '%') (l : List Char) :
    "%%".toList <:+: l ++ [c] ↔ "%%".toList <:+: l := by
  rw [List.infix_concat_iff, List.suffix_concat_iff]
  refine or_iff_right ?_
  rintro (h | ⟨t, h, -⟩)
  · cases h
  · have hlast := congrArg List.getLast? h
    rw [List.getLast?_concat] at hlast
    exact hc (Option.some.inj hlast).symm

theorem remark_cons {c : Char} (hc : c ≠ '%') (l : List Char) :
    "%%".toList <:+: c :: l ↔ "%%".toList <:+: l := by
  rw [List.infix_cons_iff, List.prefix_cons_iff]
  refine or_iff_right ?_
  rintro (h | ⟨t, h, -⟩)
  · cases h
  · exact hc (List.cons.inj h).1.symm

/-- A text without quotation marks and doubled percent signs is cut into such slices. -/
theorem plain_ofText {l : List Char} (hquote : '"' ∉ l) (hremark : ¬ "%%".toList <:+: l) :
    ∀ s ∈ ofText l, s.Plain := by
  intro s hs said hsaid
  obtain ⟨htext, htiles⟩ := tiles_ofText l
  obtain ⟨_, htile⟩ := exists_tile_of_mem htiles hs
  have hspan : s.span <:+: l := by
    rw [← htext, List.flatMap_def]
    exact List.infix_of_mem_flatten (List.mem_map_of_mem hs)
  cases htile with
  | gap => cases hsaid
  | lineBreak =>
    cases hsaid
    simp
  | @comment remark => exact absurd ((List.prefix_append "%%".toList remark).isInfix.trans hspan) hremark
  | closed | unclosed => exact absurd (hspan.subset List.mem_cons_self) hquote
  | verbatim hk =>
    cases hsaid
    simp only [editedKinds, List.mem_cons, not_or] at hk
    exact ⟨hk.2.1, hk.2.2.1⟩

/-- The first slice of a part ends within the part, and is the same in front of all white space. -/
private theorem exists_cut_part {c : Char} {l : List Char} (hc : isBreak c = false)
    (hlast : ∀ d ∈ (c :: l).getLast?, isGap d = false) (hplain : (cut c (l ++ ['\n'])).Plain) :
    ∃ left, (cut c (l ++ ['\n'])).span ++ left = c :: l ∧
      ∀ w ∈ white, ∀ rest, cut c (l ++ w :: rest) = cut c (l ++ ['\n']) := by
  cases hgap : isGap c with
  | false =>
    obtain ⟨_, left, hleft⟩ := cut_break (l := l) hc (rfl : isBreak '\n') (rfl : isBreak '\n') [] []
    exact ⟨left, hleft, fun w hw rest => cut_white hc hgap (by decide) hw hplain rest⟩
  | true =>
    have hstop : (l.takeWhile isGap).length ≠ l.length := by
      intro hlength
      have hall : ∀ d ∈ c :: l, isGap d := by
        rw [List.forall_mem_cons]
        refine ⟨hgap, fun d hd => ?_⟩
        rw [← List.IsPrefix.eq_of_length (List.takeWhile_prefix isGap) hlength] at hd
        exact List.mem_takeWhile_imp hd
      have hlast := hlast _ (List.getLast?_eq_some_getLast (List.cons_ne_nil c l))
      rw [hall _ (List.getLast_mem _)] at hlast
      cases hlast
    have hcut : ∀ w rest, cut c (l ++ w :: rest) = ⟨c :: l.takeWhile isGap, none⟩ := by
      intro w rest
      rw [cut, if_pos hgap, List.takeWhile_append, if_neg hstop]
    refine ⟨l.dropWhile isGap, ?_, fun w _ rest => by rw [hcut, hcut]⟩
    rw [hcut, List.cons_append, List.takeWhile_append_dropWhile]

theorem exists_slices_part {l : List Char} (hl : Unbroken l) (hlast : ∀ c ∈ l.getLast?, isGap c = false)
    (hplain : ∀ s ∈ ofText (l ++ ['\n']), s.Plain) : ∃ slices,
    ∀ w ∈ white, ∀ rest, ofText (l ++ w :: rest) = slices ++ ofText (w :: rest) := by
  induction hn : l.length using Nat.strongRecOn generalizing l with
  | ind n ih =>
    cases l with
    | nil => exact ⟨[], fun _ _ _ => rfl⟩
    | cons c l =>
      obtain ⟨hc, -⟩ := List.forall_mem_cons.mp hl
      obtain ⟨left, hleft, hcut⟩ := exists_cut_part hc hlast (hplain _ List.mem_cons_self)
      have hspan : ∀ more, (cut c (l ++ ['\n'])).span ++ (left ++ more) = c :: (l ++ more) := by
        intro more
        rw [← List.append_assoc, hleft, List.cons_append]
      have htext : ∀ w ∈ white, ∀ rest, ofText (c :: l ++ w :: rest) =
          cut c (l ++ ['\n']) :: ofText (left ++ w :: rest) := by
        intro w hw rest
        rw [List.cons_append, ofText_cons (by rw [hcut w hw rest]; exact hspan _), hcut w hw rest]
      obtain ⟨_, _, htile⟩ := exists_tile_cut c (l ++ ['\n'])
      have hlength := congrArg List.length hleft
      have hpos := htile.length_pos
      rw [List.length_append] at hlength
      have hlast : ∀ d ∈ left.getLast?, isGap d = false := by
        intro d hd
        have hne : left ≠ [] := by
          rintro rfl
          cases hd
        exact hlast d (hleft ▸ List.getLast?_append_of_ne_nil _ hne ▸ hd)
      have hunbroken : Unbroken left := fun d hd => hl d (hleft ▸ List.mem_append_right _ hd)
      have hplain : ∀ s ∈ ofText (left ++ ['\n']), s.Plain := by
        intro s hs
        refine hplain s ?_
        rw [htext '\n' (by decide) []]
        exact List.mem_cons_of_mem _ hs
      obtain ⟨slices, hslices⟩ := ih left.length (by omega) hunbroken hlast hplain rfl
      refine ⟨cut c (l ++ ['\n']) :: slices, fun w hw rest => ?_⟩
      rw [htext w hw rest, hslices w hw rest, List.cons_append]

/-- The kind of a slice is that of a token of the text. -/
theorem kind_mem_scan {text : String} {s : Slice} (hs : s ∈ ofText text.toList)
    {said : TokenKind × List Char} (hsaid : said ∈ s.token?) : said.1 ∈ (scan text).map (·.kind) := by
  have hmem : said ∈ (Mark.start.tokens (ofText text.toList)).map fun t => (t.kind, t.lexeme.toList) := by
    rw [Mark.tokens_said]
    exact List.mem_filterMap.mpr ⟨s, hs, hsaid⟩
  obtain ⟨t, ht, rfl⟩ := List.mem_map.mp hmem
  exact List.mem_map_of_mem (List.mem_append_left _ ht)

end Slice

/-- A part of a line, with the slices that it is cut into in front of white space. -/
structure Part where
  chars : List Char
  slices : List Slice
  inLine : ∀ s ∈ slices, ∀ said ∈ s.token?, said.1 ≠ .newline
  cut : ∀ w ∈ white, ∀ rest, Slice.ofText (chars ++ w :: rest) = slices ++ Slice.ofText (w :: rest)

namespace Part
open Slice

theorem ofText_chars (x : Part) : ofText (x.chars ++ ['\n']) = x.slices ++ [lineFeed] := x.cut '\n' (by decide) []

theorem exists_part {l : List Char} (hl : Unbroken l) (hlast : ∀ c ∈ l.getLast?, isGap c = false)
    (hplain : ∀ s ∈ ofText (l ++ ['\n']), s.Plain) : ∃ x : Part, x.chars = l := by
  obtain ⟨slices, hslices⟩ := exists_slices_part hl hlast hplain
  obtain ⟨slices', hinLine, hline⟩ := exists_slices_line hl
  have heq : slices' = slices :=
    List.append_cancel_right ((hline []).symm.trans (hslices '\n' (by decide) []))
  exact ⟨⟨l, slices, heq ▸ hinLine, hslices⟩, rfl⟩

/-- The slices are tiles that together are the part. -/
theorem tiles (x : Part) : x.slices.flatMap (·.span) = x.chars ∧ ∀ s ∈ x.slices, ∃ rest, s.Tile rest := by
  obtain ⟨htext, htiles⟩ := tiles_ofText (x.chars ++ ['\n'])
  rw [x.ofText_chars] at htext htiles
  refine ⟨?_, fun s hs => exists_tile_of_mem htiles (List.mem_append_left _ hs)⟩
  rw [List.flatMap_append] at htext
  exact List.append_cancel_right htext

/-- The kinds of the tokens of a part, wherever it stands. -/
theorem kinds (x : Part) (m : Mark) : (m.tokens x.slices).map (·.kind) ++ [.newline, .eof] =
    (scan (String.ofList x.chars ++ "\n")).map (·.kind) := by
  have hsaid : ∀ (m : Mark) (slices : List Slice),
      (m.tokens slices).map (·.kind) = (slices.filterMap (·.token?)).map (·.1) := by
    intro m slices
    rw [← m.tokens_said, List.map_map]
    rfl
  have htext : (String.ofList x.chars ++ "\n").toList = x.chars ++ ['\n'] := by simp
  rw [scan, Stream.toList, Stream.ofText, htext, x.ofText_chars, List.map_append, hsaid, hsaid,
    List.filterMap_append, List.map_append]
  simp [lineFeed, Stream.endToken]

end Part

/-- A line with a part in its midst is read as its pieces and, in their midst, the tokens of the part. -/
theorem Stream.exists_tokens_part (x : Part) (before behind : Line) {c : Char} (hfirst : x.chars.head? = some c)
    (hbefore : before.Fits c) (hbehind : behind.Fits '\n') (hwhite : behind.first '\n' ∈ white) {l : String}
    (hl : l.toList = before.chars ++ (x.chars ++ behind.chars)) (n : Int) : ∃ us m ws close,
      (ofTextFrom n (l ++ "\n")).tokens = us ++ (Mark.tokens m x.slices ++ (ws ++ [close])) ∧
      Token.Row n us (before.map (·.piece)) ∧ m.line = n ∧ Token.Row n ws (behind.map (·.piece)) ∧
      close.kind = .newline := by
  obtain ⟨more, hmore⟩ := List.head?_eq_some_iff.mp hfirst
  obtain ⟨t, ht⟩ := behind.chars_append_cons '\n' []
  have htext : (l ++ "\n").toList = before.chars ++ c :: (more ++ (behind.chars ++ ['\n'])) := by
    rw [String.toList_append, hl, hmore]
    simp
  have hslices : Slice.ofText (l ++ "\n").toList = before.flatMap Placed.slices ++
      (x.slices ++ (behind.flatMap Placed.slices ++ [Slice.lineFeed])) := by
    rw [htext, Line.ofText_chars hbefore, ← List.cons_append, ← hmore, ht, x.cut _ hwhite, ← ht,
      Line.ofText_chars hbehind]
    rfl
  let m := (Mark.atLine n).shift before.chars.length
  let m' := x.slices.foldl Mark.past m
  have hrow : Token.Row n (Line.tokens m'.line m'.column behind) (behind.map (·.piece)) := by
    have hm : m'.line = n := Mark.line_foldl_past x.inLine m
    rw [hm]
    exact Line.row_tokens n m'.column behind
  refine ⟨_, m, _, ⟨.newline, "\n", (m'.shift behind.chars.length).position⟩, ?_,
    Line.row_tokens n 1 before, rfl, hrow, rfl⟩
  rw [ofTextFrom, hslices, Mark.tokens_line, Mark.tokens_append, Mark.tokens_line]
  rfl

end Mermaid
