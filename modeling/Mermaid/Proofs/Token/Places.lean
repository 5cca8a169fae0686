import Mathlib.Data.List.DropRight
import Mermaid.Proofs.Text.LineBreak
import Mermaid.Proofs.Token.Breaks
import Mermaid.Proofs.Token.Order

/-! Where the tokens of a text stand: a line is numbered by the line breaks before it, and a column by
the characters before it on the line. -/
namespace Mermaid
open Lexicon Text

namespace Slice
variable {s : Slice} {rest : List Char}

/-- What a slice in front of `rest` has to do with lines: it lies on one, or is a whole line break. -/
inductive Lined : Slice → List Char → Prop
  | inLine {s : Slice} {rest : List Char} (hne : s.span ≠ []) (h : Unbroken s.span)
      (hk : ∀ said ∈ s.token?, said.1 ≠ .newline) : Lined s rest
  | lineBreak {span rest : List Char} (h : span ∈ [['\r', '\n'], ['\n'], ['\r']])
      (hrest : Apart span rest) : Lined ⟨span, some (.newline, ['\n'])⟩ rest

theorem Lined.apart (h : s.Lined rest) : Apart s.span rest := by
  cases h with
  | inLine _ h => exact fun hlast => absurd (h '\r' (List.mem_of_getLast? hlast)) (by decide)
  | lineBreak _ hrest => exact hrest

theorem isBreak_of_isGap {c : Char} (h : isGap c) : isBreak c = false := by
  simp only [isGap, Bool.or_eq_true, beq_iff_eq] at h
  rcases h with ((rfl | rfl) | rfl) | rfl <;> decide

/-- A tile that begins with a character of a line lies on it. -/
theorem Tile.inLine {c : Char} {more : List Char} (h : s.Tile rest) (hc : isBreak c = false)
    (hspan : s.span ++ rest = c :: more) : s.Lined rest := by
  have hunbroken : ∀ {kind lexeme}, s.token? = some (kind, lexeme) → kind ≠ .newline →
      Unbroken s.span :=
    fun ht hk d hd => h.unbroken ht hk d (List.mem_append_left _ hd)
  cases h with
  | gap hne hgap => exact .inLine hne (fun d hd => isBreak_of_isGap (hgap d hd)) (by simp)
  | lineBreak hmem =>
    simp only [List.mem_cons, List.not_mem_nil, or_false] at hmem
    rcases hmem with rfl | rfl | rfl <;> cases hspan <;> exact absurd hc (by decide)
  | comment | closed | unclosed =>
    exact .inLine (List.cons_ne_nil _ _) (hunbroken rfl (by simp)) (by simp)
  | @verbatim kind _ _ hk hne =>
    have hkind : kind ≠ .newline := by
      rintro rfl
      exact hk List.mem_cons_self
    exact .inLine hne (hunbroken rfl hkind) (by simpa using hkind)

theorem Tile.unbroken_span {c : Char} {more : List Char} (h : s.Tile rest) (hc : isBreak c = false)
    (hspan : s.span ++ rest = c :: more) : Unbroken s.span := by
  cases h.inLine hc hspan with
  | inLine _ h => exact h
  | lineBreak hmem =>
    simp only [List.mem_cons, List.not_mem_nil, or_false] at hmem
    rcases hmem with rfl | rfl | rfl <;> cases hspan <;> exact absurd hc (by decide)

theorem cut_return {s : List Char} (h : s.head? ≠ some '\n') :
    cut '\r' s = ⟨['\r'], some (.newline, ['\n'])⟩ := by
  cases s with
  | nil => rfl
  | cons c s =>
    have hc : c ≠ '\n' := by simpa using h
    simp [cut, isGap, breakLength?, hc]

/-- The first slice of a text does not cut a line break in two. -/
theorem lined_cut {c : Char} {s : List Char} (hspan : (cut c s).span ++ rest = c :: s)
    (htile : (cut c s).Tile rest) : (cut c s).Lined rest := by
  by_cases hc : isBreak c
  · simp only [isBreak, Bool.or_eq_true, beq_iff_eq] at hc
    rcases hc with rfl | rfl
    · by_cases hs : s.head? = some '\n'
      · obtain ⟨more, rfl⟩ := List.head?_eq_some_iff.mp hs
        exact .lineBreak (by simp) fun h => by simp at h
      · rw [cut_return hs] at hspan ⊢
        obtain rfl : rest = s := (List.cons.inj hspan).2
        exact .lineBreak (by simp) fun _ => hs
    · exact .lineBreak (by simp) fun h => by simp at h
  · exact htile.inLine (by simpa using hc) hspan

end Slice

/-- The place behind a text. -/
def Position.behind (taken : List Char) : Position where
  line := breakCount taken + 1
  column := (taken.rtakeWhile (!isBreak ·)).length + 1

private theorem rtakeWhile_append_of_pos {p : Char → Bool} {s t : List Char} (h : ∀ c ∈ t, p c) :
    (s ++ t).rtakeWhile p = s.rtakeWhile p ++ t := by
  rw [List.rtakeWhile, List.reverse_append,
    List.takeWhile_append_of_pos fun c hc => h c (List.mem_reverse.mp hc), List.reverse_append,
    List.reverse_reverse]
  rfl

theorem Unbroken.not_mem {span : List Char} (h : Unbroken span) : '\r' ∉ span ∧ '\n' ∉ span :=
  ⟨fun hmem => absurd (h _ hmem) (by decide), fun hmem => absurd (h _ hmem) (by decide)⟩

theorem Unbroken.breakCount_eq {span : List Char} (h : Unbroken span) : breakCount span = 0 := by
  rw [breakCount, unifyBreaks_eq_self h.not_mem.1, List.count_eq_zero]
  exact h.not_mem.2

namespace Position
variable {taken span : List Char}

theorem behind_append_inLine (h : Unbroken span) :
    behind (taken ++ span) = ⟨(behind taken).line, (behind taken).column + span.length⟩ := by
  have happart : Apart taken span := fun _ hhead => h.not_mem.2 (List.mem_of_mem_head? hhead)
  rw [behind, breakCount_append happart, h.breakCount_eq,
    rtakeWhile_append_of_pos fun c hc => by simpa using h c hc, behind]
  simp only [List.length_append, Position.mk.injEq]
  omega

theorem behind_append_lineBreak (h : span ∈ [['\r', '\n'], ['\n'], ['\r']])
    (happart : Apart taken span) : behind (taken ++ span) = ⟨(behind taken).line + 1, 1⟩ := by
  have hspan : breakCount span = 1 ∧ ∃ before c, taken ++ span = before ++ [c] ∧ isBreak c := by
    simp only [List.mem_cons, List.not_mem_nil, or_false] at h
    rcases h with rfl | rfl | rfl
    · exact ⟨by decide, taken ++ ['\r'], '\n', by simp, by decide⟩
    · exact ⟨by decide, taken, '\n', rfl, by decide⟩
    · exact ⟨by decide, taken, '\r', rfl, by decide⟩
  obtain ⟨hcount, before, c, hlast, hc⟩ := hspan
  rw [behind, breakCount_append happart, hcount, hlast,
    List.rtakeWhile_concat_neg _ _ _ (by simp [hc])]
  simp [behind]

end Position

/-- From the place behind one text a slice leads to the place behind both. -/
theorem Mark.position_past_behind {m : Mark} {s : Slice} {taken rest : List Char} (hs : s.Lined rest)
    (happart : Apart taken s.span) (hm : m.position = .behind taken) :
    (m.past s).position = .behind (taken ++ s.span) := by
  cases hs with
  | inLine _ h hk => rw [position_past_inLine hk, hm, Position.behind_append_inLine h]
  | lineBreak h => rw [position_past_newline rfl, hm, Position.behind_append_lineBreak h happart]

/-- Behind a text the first slice of what follows leads to the place behind both, and cuts no line break
in two. -/
theorem Mark.past_cut_behind {m : Mark} {c : Char} {taken s rest : List Char}
    (hspan : (Slice.cut c s).span ++ rest = c :: s) (htile : (Slice.cut c s).Tile rest)
    (happart : Apart taken (c :: s)) (hm : m.position = .behind taken) :
    (m.past (Slice.cut c s)).position = .behind (taken ++ (Slice.cut c s).span) ∧
      Apart (taken ++ (Slice.cut c s).span) rest := by
  have hlined := Slice.lined_cut hspan htile
  have hcut : Apart taken (Slice.cut c s).span := by
    intro hlast hhead
    refine happart hlast ?_
    rw [← hspan, List.head?_append, hhead]
    rfl
  refine ⟨position_past_behind hlined hcut hm, ?_⟩
  rw [Apart, List.getLast?_append_of_ne_nil _ htile.span_ne_nil]
  exact hlined.apart

/-- The tokens that slices spell behind a text; each stands at the place behind all before it. -/
def Slice.tokensBehind (taken : List Char) : List Slice → List Token
  | [] => []
  | s :: slices =>
    (s.token?.map fun (kind, lexeme) => ⟨kind, String.ofList lexeme, .behind taken⟩).toList ++
      tokensBehind (taken ++ s.span) slices

theorem Mark.tokens_behind {taken : List Char} {m : Mark} (s : List Char) (happart : Apart taken s)
    (hm : m.position = .behind taken) :
    m.tokens (Slice.ofText s) = Slice.tokensBehind taken (Slice.ofText s) ∧
      ((Slice.ofText s).foldl past m).position = .behind (taken ++ s) := by
  induction s using Slice.cut_induction generalizing taken m with
  | nil =>
    rw [List.append_nil]
    exact ⟨rfl, hm⟩
  | tile c s rest hspan htile ih =>
    obtain ⟨hnext, hrest⟩ := past_cut_behind hspan htile happart hm
    obtain ⟨htokens, hfinish⟩ := ih hrest hnext
    rw [Slice.ofText_cons hspan, tokens, Slice.tokensBehind, htokens, token?, hm, List.foldl_cons,
      hfinish, List.append_assoc, hspan]
    exact ⟨rfl, rfl⟩

/-- The token of a line break leads on to the next line, and no other token does. -/
theorem Mark.line_past_eq (m : Mark) (s : Slice) :
    (m.past s).line = m.line + ((m.token? s).toList.countP (·.kind == .newline) : Nat) := by
  by_cases hk : ∀ said ∈ s.token?, said.1 ≠ .newline
  · have hnone : (m.token? s).toList.countP (·.kind == .newline) = 0 := by
      rw [List.countP_eq_zero]
      intro t ht
      obtain ⟨said, hsaid, rfl⟩ := Option.map_eq_some_iff.mp (Option.mem_toList.mp ht)
      simpa using hk said hsaid
    rw [hnone, Int.natCast_zero, Int.add_zero]
    exact line_past hk
  · push Not at hk
    obtain ⟨⟨kind, lexeme⟩, hsaid, rfl⟩ := hk
    rw [token?, hsaid]
    exact congrArg Position.line (position_past_newline hsaid)

theorem Mark.line_foldl_past_eq (m : Mark) (slices : List Slice) :
    (slices.foldl past m).line = m.line + ((m.tokens slices).countP (·.kind == .newline) : Nat) := by
  induction slices generalizing m with
  | nil => simp [tokens]
  | cons s slices ih =>
    rw [List.foldl_cons, ih, line_past_eq, tokens, List.countP_append]
    omega

/-- The tokens of a text stand where the text before them ends. -/
theorem scan_positions (text : String) :
    let slices := Slice.ofText text.toList
    slices.flatMap (·.span) = text.toList ∧
    scan text = Slice.tokensBehind [] slices ++ [⟨.eof, "", .behind text.toList⟩] ∧
    ((scan text).map (·.position)).Pairwise (· < ·) ∧
    (scan text).countP (·.kind == .newline) = breakCount text.toList ∧
    (Stream.ofText text).endToken.position.line =
      ((scan text).countP (·.kind == .newline) : Nat) + 1 := by
  intro slices
  obtain ⟨htokens, hfinish⟩ : Mark.start.tokens slices = Slice.tokensBehind [] slices ∧
      (slices.foldl Mark.past Mark.start).position = .behind text.toList :=
    Mark.tokens_behind text.toList (by simp [Apart]) rfl
  have hline := Mark.line_foldl_past_eq Mark.start slices
  have hcount : (scan text).countP (·.kind == .newline) =
      (Mark.start.tokens slices).countP (·.kind == .newline) := by
    rw [scan, Stream.toList, List.countP_append]
    exact Nat.add_zero _
  have hbreaks : (slices.foldl Mark.past Mark.start).line = breakCount text.toList + 1 :=
    congrArg Position.line hfinish
  refine ⟨(Slice.tiles_ofText _).1, ?_, Stream.ordered_ofText text, ?_, ?_⟩
  · rw [scan, Stream.toList, Stream.endToken]
    exact congrArg₂ (fun tokens finish => tokens ++ [⟨.eof, "", finish⟩]) htokens hfinish
  · rw [hcount]
    have hstart : Mark.start.line = 1 := rfl
    omega
  · rw [hcount]
    exact hline.trans (Int.add_comm _ _)

end Mermaid
