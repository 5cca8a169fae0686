import Mermaid.Proofs.Token.Line
import Mermaid.Proofs.Token.Stopping

/-! Texts are cut line by line: what the lexicon makes of a line does not depend on the lines behind
it, so the slices of a text are those of its lines, and its tokens are those of its lines by their
numbers. -/
namespace Mermaid
open Lexicon Text

/-- Holds no character that breaks lines. -/
def Unbroken (l : List Char) : Prop := ∀ c ∈ l, isBreak c = false

instance {l : List Char} : Decidable (Unbroken l) := List.decidableBAll _ l

/-- Only the tokens of line breaks are spelled with what breaks lines. -/
theorem Stream.unbroken_lexeme {text : String} {t : Token} (ht : t ∈ (ofText text).tokens)
    (hkind : t.kind ≠ .newline) : Unbroken t.lexeme.toList := by
  obtain ⟨_, s, hs, hm⟩ := Mark.exists_token?_of_mem ht
  obtain ⟨_, htile⟩ := Slice.exists_tile_of_mem (Slice.tiles_ofText text.toList).2 hs
  obtain ⟨⟨kind, lexeme⟩, hsaid, rfl⟩ := Option.map_eq_some_iff.mp hm
  rw [String.toList_ofList]
  exact fun c hc => htile.unbroken hsaid hkind c (List.mem_append_right _ hc)

namespace Slice

/-- The slice of a line feed. -/
def lineFeed : Slice := ⟨['\n'], some (.newline, ['\n'])⟩

/-- A line has slices of its own, whatever comes behind it, and none of them is a line break. -/
theorem exists_slices_line {l : List Char} (hl : Unbroken l) : ∃ slices : List Slice,
    (∀ s ∈ slices, ∀ said ∈ s.token?, said.1 ≠ .newline) ∧
    ∀ rest, ofText (l ++ '\n' :: rest) = slices ++ lineFeed :: ofText rest := by
  have hfeed : isBreak '\n' := by decide
  induction hn : l.length using Nat.strongRecOn generalizing l with
  | ind n ih =>
    cases l with
    | nil => exact ⟨[], List.forall_mem_nil _, newline_leads⟩
    | cons c l =>
      obtain ⟨hc, -⟩ := List.forall_mem_cons.mp hl
      obtain ⟨_, left, hleft⟩ := cut_break (l := l) hc hfeed hfeed [] []
      obtain ⟨_, _, htile⟩ := exists_tile_cut c (l ++ ['\n'])
      have hfirst : ∀ said ∈ (cut c (l ++ ['\n'])).token?, said.1 ≠ .newline := by
        have hspan : Unbroken (cut c (l ++ ['\n'])).span :=
          fun d hd => hl d (hleft ▸ List.mem_append_left _ hd)
        exact htile.kind_ne_newline hspan
      have hlength := congrArg List.length hleft
      have hpos := htile.length_pos
      rw [List.length_append] at hlength
      have hunbroken : Unbroken left := fun d hd => hl d (hleft ▸ List.mem_append_right _ hd)
      obtain ⟨slices, hslices, hrest⟩ := ih left.length (by omega) hunbroken rfl
      refine ⟨cut c (l ++ ['\n']) :: slices, List.forall_mem_cons.mpr ⟨hfirst, hslices⟩, ?_⟩
      intro rest
      have hcut := (cut_break (l := l) hc hfeed hfeed rest []).1
      have hspan : (cut c (l ++ '\n' :: rest)).span ++ (left ++ '\n' :: rest) =
          c :: (l ++ '\n' :: rest) := by
        rw [hcut, ← List.append_assoc, hleft, List.cons_append]
      rw [List.cons_append, ofText_cons hspan, hcut, hrest, List.cons_append]

end Slice

/-- The characters of a line break no lines. -/
theorem Line.unbroken {l : Line} {d : Char} (h : l.Fits d) : Unbroken l.chars := by
  obtain ⟨htext, htiles⟩ := Slice.tiles_ofText (l.chars ++ [d])
  have hslices := Line.ofText_chars h []
  have hspace : ∀ p : Placed, Unbroken p.indent := by
    intro p
    rw [Placed.indent]
    split
    · decide
    · exact List.forall_mem_nil _
  intro c hc
  obtain ⟨p, hp, hc⟩ := List.mem_flatMap.mp hc
  rcases List.mem_append.mp hc with hc | hc
  · exact hspace p c hc
  · have hmem : p.piece.slice ∈ Slice.ofText (l.chars ++ [d]) := by
      rw [hslices]
      exact List.mem_append_left _ (List.mem_flatMap.mpr ⟨p, hp, by simp [Placed.slices]⟩)
    obtain ⟨rest, htile⟩ := Slice.exists_tile_of_mem htiles hmem
    exact htile.unbroken rfl p.piece.kind_ne_newline c (List.mem_append_left _ hc)

namespace Mark

/-- The place before a line. -/
def atLine (n : Int) : Mark := ⟨0, n, 0⟩

theorem tokens_append (m : Mark) (slices more : List Slice) :
    m.tokens (slices ++ more) = m.tokens slices ++ (slices.foldl past m).tokens more := by
  induction slices generalizing m with
  | nil => rfl
  | cons s slices ih =>
    rw [List.cons_append, tokens, tokens, ih, List.append_assoc]
    rfl

/-- Tokens depend on the position of the mark only. -/
theorem tokens_of_position {m m' : Mark} (h : m.position = m'.position) (slices : List Slice) :
    m.tokens slices = m'.tokens slices := by
  induction slices generalizing m m' with
  | nil => rfl
  | cons s slices ih =>
    have hpast : (m.past s).position = (m'.past s).position := by
      obtain ⟨hline, hcolumn⟩ := Position.mk.inj h
      rw [column, column] at hcolumn
      rw [past, past]
      split
      · simp [position, column, hline]
      · simp only [position, column, Position.mk.injEq]
        omega
    rw [tokens, tokens, ih hpast, token?, token?, h]

theorem line_foldl_past {slices : List Slice}
    (h : ∀ s ∈ slices, ∀ said ∈ s.token?, said.1 ≠ .newline) (m : Mark) :
    (slices.foldl past m).line = m.line := by
  induction slices generalizing m with
  | nil => rfl
  | cons s slices ih =>
    obtain ⟨hs, hslices⟩ := List.forall_mem_cons.mp h
    rw [List.foldl_cons, ih hslices, line_past hs]

/-- Behind the slices of a line and its line feed the next line begins. -/
theorem position_past_line {slices : List Slice}
    (h : ∀ s ∈ slices, ∀ said ∈ s.token?, said.1 ≠ .newline) {m : Mark} {n : Nat}
    (hm : m.position = ⟨n, 1⟩) :
    ((slices.foldl past m).past Slice.lineFeed).position = ⟨(n + 1 : Nat), 1⟩ := by
  have hline := line_foldl_past h m
  have hn : m.line = n := congrArg Position.line hm
  simp only [past, Slice.lineFeed, position, column, Position.mk.injEq]
  omega

theorem kind_ne_newline {slices : List Slice}
    (h : ∀ s ∈ slices, ∀ said ∈ s.token?, said.1 ≠ .newline) {m : Mark} {t : Token}
    (ht : t ∈ m.tokens slices) : t.kind ≠ .newline := by
  obtain ⟨_, s, hs, htoken⟩ := exists_token?_of_mem ht
  obtain ⟨⟨kind, lexeme⟩, hsaid, rfl⟩ := Option.map_eq_some_iff.mp htoken
  exact h s hs _ hsaid

end Mark

namespace Stream

/-- The tokens of a text whose first line has the number `n`. -/
def ofTextFrom (n : Int) (text : String) : Stream where
  tokens := (Mark.atLine n).tokens (Slice.ofText text.toList)
  finish := ((Slice.ofText text.toList).foldl Mark.past (Mark.atLine n)).position

/-- The number of the first line does not matter to the kinds of the tokens. -/
theorem exists_kind_eq {n : Int} {text : String} {t : Token} (ht : t ∈ (ofTextFrom n text).tokens) :
    ∃ u ∈ scan text, u.kind = t.kind := by
  have hsaid := Mark.tokens_said (Mark.atLine n) (Slice.ofText text.toList)
  rw [← Mark.tokens_said Mark.start] at hsaid
  have hmem : (t.kind, t.lexeme.toList) ∈ (Mark.start.tokens (Slice.ofText text.toList)).map
      fun t => (t.kind, t.lexeme.toList) := hsaid ▸ List.mem_map_of_mem ht
  obtain ⟨u, hu, heq⟩ := List.mem_map.mp hmem
  exact ⟨u, List.mem_append_left _ hu, congrArg Prod.fst heq⟩

/-- The tokens of lines, each on its own, the first one with the number `n`. -/
def lineTokens (n : Nat) : List String → List Token
  | [] => []
  | l :: lines => (ofTextFrom n (l ++ "\n")).tokens ++ lineTokens (n + 1) lines

theorem lineTokens_append (n : Nat) (lines more : List String) :
    lineTokens n (lines ++ more) = lineTokens n lines ++ lineTokens (n + lines.length) more := by
  induction lines generalizing n with
  | nil => rfl
  | cons l lines ih =>
    rw [List.cons_append, lineTokens, ih, lineTokens, List.append_assoc, List.length_cons,
      Nat.add_assoc, Nat.add_comm 1]

/-- The tokens of a line end with its break, and have no other. -/
theorem exists_tokens_line (n : Int) {l : String} (hl : Unbroken l.toList) : ∃ us close,
    (ofTextFrom n (l ++ "\n")).tokens = us ++ [close] ∧ (∀ u ∈ us, u.kind ≠ .newline) ∧
      close.kind = .newline := by
  obtain ⟨slices, hslices, hrest⟩ := Slice.exists_slices_line hl
  refine ⟨(Mark.atLine n).tokens slices,
    ⟨.newline, "\n", (slices.foldl Mark.past (Mark.atLine n)).position⟩, ?_,
    fun u hu => Mark.kind_ne_newline hslices hu, rfl⟩
  have htext : (l ++ "\n").toList = l.toList ++ '\n' :: [] := String.toList_append
  rw [ofTextFrom, htext, hrest, Mark.tokens_append]
  rfl

/-- The tokens of a text are those of its lines. -/
theorem tokens_lines {lines : List String} (h : ∀ l ∈ lines, Unbroken l.toList) (n : Nat) :
    (ofTextFrom n (String.join (lines.map (· ++ "\n")))).tokens = lineTokens n lines := by
  have hlines : ∀ m : Mark, m.position = ⟨n, 1⟩ →
      m.tokens (Slice.ofText (lines.flatMap fun l => l.toList ++ ['\n'])) = lineTokens n lines := by
    induction lines generalizing n with
    | nil => exact fun _ _ => rfl
    | cons l lines ih =>
      intro m hm
      obtain ⟨hl, hmore⟩ := List.forall_mem_cons.mp h
      obtain ⟨slices, hslices, hrest⟩ := Slice.exists_slices_line hl
      let next := (slices.foldl Mark.past m).past Slice.lineFeed
      have hnext : next.position = ⟨(n + 1 : Nat), 1⟩ := Mark.position_past_line hslices hm
      have htext : (l ++ "\n").toList = l.toList ++ '\n' :: [] := String.toList_append
      have hfirst : m.tokens (slices ++ [Slice.lineFeed]) = (ofTextFrom n (l ++ "\n")).tokens := by
        rw [ofTextFrom, htext, hrest]
        exact Mark.tokens_of_position hm _
      rw [List.flatMap_cons, List.append_assoc, List.singleton_append, hrest, lineTokens, ← hfirst,
        ← ih hmore (n + 1) next hnext, List.append_cons, Mark.tokens_append]
      simp [next]
  rw [ofTextFrom, String.toList_join, List.flatMap_map]
  simp only [String.toList_append]
  exact hlines (Mark.atLine n) rfl

/-- The text ends before the line behind its last one. -/
theorem finish_lines {lines : List String} (h : ∀ l ∈ lines, Unbroken l.toList) (n : Nat) :
    (ofTextFrom n (String.join (lines.map (· ++ "\n")))).finish = ⟨n + lines.length, 1⟩ := by
  have hlines : ∀ m : Mark, m.position = ⟨n, 1⟩ →
      ((Slice.ofText (lines.flatMap fun l => l.toList ++ ['\n'])).foldl Mark.past m).position =
        ⟨n + lines.length, 1⟩ := by
    induction lines generalizing n with
    | nil => exact fun m hm => by simpa [Slice.ofText, Slice.ofTextAfter] using hm
    | cons l lines ih =>
      intro m hm
      obtain ⟨hl, hmore⟩ := List.forall_mem_cons.mp h
      obtain ⟨slices, hslices, hrest⟩ := Slice.exists_slices_line hl
      have hnext := ih hmore (n + 1) _ (Mark.position_past_line hslices hm)
      rw [List.flatMap_cons, List.append_assoc, List.singleton_append, hrest, List.foldl_append,
        List.foldl_cons, hnext, List.length_cons]
      simp only [Position.mk.injEq, and_true]
      omega
  rw [ofTextFrom, String.toList_join, List.flatMap_map]
  simp only [String.toList_append]
  exact hlines (Mark.atLine n) rfl

/-- Lines that fit are read as their tokens, whatever the number of the first one. -/
theorem ofTextFrom_textOf {lines : List Line} (h : ∀ l ∈ lines, l.Fits '\n') (n : Int) :
    (ofTextFrom n (textOf lines)).tokens = tokensOf n lines := by
  rw [ofTextFrom, textOf, String.toList_ofList]
  exact Mark.tokens_lines (Mark.atLine n) rfl h

/-- The tokens of a text below a header line. -/
theorem tokens_below (header : String) {lines : List String} (hheader : Unbroken header.toList)
    (h : ∀ l ∈ lines, Unbroken l.toList) :
    (ofText (header ++ "\n" ++ String.join (lines.map (· ++ "\n")))).tokens =
      (ofTextFrom 1 (header ++ "\n")).tokens ++ lineTokens 2 lines := by
  have htext : header ++ "\n" ++ String.join (lines.map (· ++ "\n")) =
      String.join ((header :: lines).map (· ++ "\n")) := by
    rw [List.map_cons, String.join_cons]
  rw [htext]
  exact tokens_lines (List.forall_mem_cons.mpr ⟨hheader, h⟩) 1

end Stream
end Mermaid
