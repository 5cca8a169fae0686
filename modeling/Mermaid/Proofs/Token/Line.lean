import Mermaid.Proofs.Token.PieceLeading
import Mermaid.Token.Stream

/-! Lines of pieces. Where each piece stops at what follows it, the text of the lines is read as
the tokens that the pieces stand for, line by line. -/
namespace Mermaid
open Lexicon Text

/-- A piece on a line, right behind what precedes it or after a space. -/
structure Placed where
  spaced : Bool
  piece : Piece

namespace Placed

def indent (p : Placed) : List Char := if p.spaced then [' '] else []

def chars (p : Placed) : List Char := p.indent ++ p.piece.chars

def slices (p : Placed) : List Slice := p.indent.map (⟨[·], none⟩) ++ [p.piece.slice]

/-- The character that the piece before meets. -/
def first (p : Placed) : Char := p.chars.headD '\n'

end Placed

abbrev Line := List Placed

namespace Line

def chars (l : Line) : List Char := l.flatMap Placed.chars

/-- The character behind what precedes the line, if the line is followed by `c`. -/
def first (c : Char) (l : Line) : Char := (l.head?.map (·.first)).getD c

/-- Each piece stops at what follows it; the last one at `c`. -/
def Fits (c : Char) : Line → Prop
  | [] => True
  | p :: l => p.piece.Stops (first c l) ∧ Fits c l

theorem first_append (c : Char) (l m : Line) : first c (l ++ m) = first (first c m) l := by
  cases l <;> rfl

theorem fits_append (c : Char) (l m : Line) :
    Fits c (l ++ m) ↔ Fits (first c m) l ∧ Fits c m := by
  induction l with
  | nil => simp [Fits]
  | cons p l ih => simp only [List.cons_append, Fits, first_append, ih, and_assoc]

/-- The tokens of the pieces, on line `n` from column `k` on. -/
def tokens (n k : Int) : Line → List Token
  | [] => []
  | p :: l => ⟨p.piece.kind, p.piece.lexeme, ⟨n, k + p.indent.length⟩⟩ ::
      tokens n (k + p.chars.length) l

theorem tokens_append (n k : Int) (l m : Line) :
    tokens n k (l ++ m) = tokens n k l ++ tokens n (k + (chars l).length) m := by
  induction l generalizing k with
  | nil => simp [tokens, chars]
  | cons p l ih => simp [tokens, chars, ih, Int.add_assoc]

theorem chars_append_cons (l : Line) (c : Char) (rest : List Char) :
    ∃ t, chars l ++ c :: rest = first c l :: t := by
  cases l with
  | nil => exact ⟨rest, rfl⟩
  | cons p l =>
    obtain ⟨d, s, hp, _, _⟩ := p.piece.exists_cons
    cases hs : p.spaced <;>
      simp [chars, first, Placed.first, Placed.chars, Placed.indent, hs, hp]

private theorem ofText_placed (p : Placed) {c : Char} (h : p.piece.Stops c) (rest : List Char) :
    Slice.ofText (p.chars ++ c :: rest) = p.slices ++ Slice.ofText (c :: rest) := by
  have hp : Slice.ofText (p.piece.chars ++ c :: rest) =
      p.piece.slice :: Slice.ofText (c :: rest) := p.piece.leads h rest
  cases hs : p.spaced with
  | false => simpa [Placed.chars, Placed.slices, Placed.indent, hs] using hp
  | true =>
    have hgap : (p.piece.chars ++ c :: rest).head?.all (!Slice.isGap ·) := by
      obtain ⟨d, s, hd, hg, _⟩ := p.piece.exists_cons
      simp [hd, hg]
    have hspace : Slice.ofText (' ' :: (p.piece.chars ++ c :: rest)) =
        ⟨[' '], none⟩ :: Slice.ofText (p.piece.chars ++ c :: rest) := Slice.space_leads hgap
    simp [Placed.chars, Placed.slices, Placed.indent, hs, hspace, hp]

/-- A line that fits is cut into the slices of its pieces. -/
theorem ofText_chars {l : Line} {c : Char} (h : Fits c l) (rest : List Char) :
    Slice.ofText (chars l ++ c :: rest) = l.flatMap Placed.slices ++ Slice.ofText (c :: rest) := by
  induction l with
  | nil => rfl
  | cons p l ih =>
    obtain ⟨t, ht⟩ := chars_append_cons l c rest
    have hl := ih h.2
    rw [ht] at hl
    rw [chars, List.flatMap_cons, List.append_assoc, ← chars, ht, ofText_placed p h.1, hl,
      List.flatMap_cons, List.append_assoc]

end Line

namespace Piece

/-- The kinds of token that a piece can stand for. -/
def kinds : List TokenKind :=
  .identifier :: .string ::
    (TokenKind.reserved.map (·.2) ++ punctuation.map (·.2) ++ links.map (·.2))

theorem ofWord_mem (word : String) :
    TokenKind.ofWord word ∈ TokenKind.identifier :: TokenKind.reserved.map (·.2) := by
  rw [TokenKind.ofWord]
  cases h : TokenKind.reserved.lookup word with
  | none => exact List.mem_cons_self
  | some k =>
    obtain ⟨l₁, l₂, hl, _⟩ := List.lookup_eq_some_iff.mp h
    rw [hl]
    simp

theorem kind_mem (p : Piece) : p.kind ∈ kinds := by
  cases p with
  | word w =>
    rcases List.mem_cons.mp (ofWord_mem w.text) with h | h
    · simp [kind, kinds, h]
    · simp only [kind, kinds, List.mem_cons, List.mem_append, h, true_or, or_true]
  | quotation q => simp [kind, kinds]
  | sign x =>
    have h := List.mem_map_of_mem (f := (·.2)) x.mem
    simp only [kind, kinds, List.mem_cons, List.mem_append, h, true_or, or_true]
  | link l =>
    obtain ⟨p, hp, _⟩ := l.spelled
    have h := List.mem_map_of_mem (f := (·.2)) hp
    simp only [kind, kinds, List.mem_cons, List.mem_append, h, or_true]

theorem kinds_ne : ∀ k ∈ kinds, k ≠ .newline ∧ k ≠ .comment ∧ k ≠ .eof := by decide

theorem kind_ne_newline (p : Piece) : p.kind ≠ .newline := (kinds_ne _ p.kind_mem).1

theorem kind_ne_comment (p : Piece) : p.kind ≠ .comment := (kinds_ne _ p.kind_mem).2.1

end Piece

/-- The text that consists of the lines. -/
def textOf (lines : List Line) : String :=
  String.ofList (lines.flatMap fun l => l.chars ++ ['\n'])

/-- The tokens of the lines, the first one being line `n`. -/
def tokensOf (n : Int) : List Line → List Token
  | [] => []
  | l :: lines => l.tokens n 1 ++
      ⟨.newline, "\n", ⟨n, 1 + l.chars.length⟩⟩ :: tokensOf (n + 1) lines

theorem tokensOf_append (n : Int) (ls ms : List Line) :
    tokensOf n (ls ++ ms) = tokensOf n ls ++ tokensOf (n + ls.length) ms := by
  induction ls generalizing n with
  | nil => simp [tokensOf]
  | cons l ls ih =>
    have hn : n + 1 + (ls.length : Int) = n + ((ls.length + 1 : Nat) : Int) := by omega
    simp [tokensOf, ih, hn]

namespace Mark

/-- The place behind some characters of the same line. -/
def shift (m : Mark) (k : Nat) : Mark := { m with offset := m.offset + k }

private theorem column_shift (m : Mark) (k : Nat) : (m.shift k).column = m.column + k := by
  simp only [column, shift]
  omega

private theorem shift_shift (m : Mark) (j k : Nat) : (m.shift j).shift k = m.shift (j + k) := by
  simp [shift, Nat.add_assoc]

private theorem past_eq_shift (m : Mark) {s : Slice} (h : ∀ t ∈ s.token?, t.1 ≠ .newline) :
    m.past s = m.shift s.span.length := by
  rw [past]
  split
  · rename_i lexeme hs
    exact absurd rfl (h (.newline, lexeme) hs)
  · rfl

private theorem tokens_slice (m : Mark) (p : Piece) (slices : List Slice) :
    m.tokens (p.slice :: slices) =
      ⟨p.kind, p.lexeme, m.position⟩ :: (m.shift p.chars.length).tokens slices := by
  have hp : ∀ t ∈ p.slice.token?, t.1 ≠ .newline := by
    rintro _ ⟨rfl⟩
    exact p.kind_ne_newline
  rw [tokens, past_eq_shift m hp]
  simp [token?, Piece.slice]

private theorem tokens_placed (m : Mark) (p : Placed) (slices : List Slice) :
    m.tokens (p.slices ++ slices) =
      ⟨p.piece.kind, p.piece.lexeme, ⟨m.line, m.column + p.indent.length⟩⟩ ::
        (m.shift p.chars.length).tokens slices := by
  cases hs : p.spaced with
  | false => simp [Placed.slices, Placed.chars, Placed.indent, hs, tokens_slice, position]
  | true =>
    have hslices : p.slices ++ slices = ⟨[' '], none⟩ :: p.piece.slice :: slices := by
      simp [Placed.slices, Placed.indent, hs]
    have hlength : p.chars.length = 1 + p.piece.chars.length := by
      simp [Placed.chars, Placed.indent, hs, Nat.add_comm]
    have hspace : m.tokens (⟨[' '], none⟩ :: p.piece.slice :: slices) =
        (m.shift 1).tokens (p.piece.slice :: slices) := rfl
    rw [hslices, hspace, tokens_slice, shift_shift, hlength, position, column_shift]
    simp [Placed.indent, hs, shift]

/-- The slices of a line spell its tokens. -/
theorem tokens_line (m : Mark) (l : Line) (slices : List Slice) :
    m.tokens (l.flatMap Placed.slices ++ slices) =
      l.tokens m.line m.column ++ (m.shift l.chars.length).tokens slices := by
  induction l generalizing m with
  | nil => rfl
  | cons p l ih =>
    have hlength : (Line.chars (p :: l)).length = p.chars.length + (Line.chars l).length := by
      simp [Line.chars]
    rw [List.flatMap_cons, List.append_assoc, tokens_placed, ih, column_shift, shift_shift,
      hlength]
    rfl

theorem tokens_lines (m : Mark) (hm : m.column = 1) {lines : List Line}
    (h : ∀ l ∈ lines, l.Fits '\n') :
    m.tokens (Slice.ofText (lines.flatMap fun l => l.chars ++ ['\n'])) = tokensOf m.line lines := by
  induction lines generalizing m with
  | nil => rfl
  | cons l lines ih =>
    have hl : l.Fits '\n' := h l List.mem_cons_self
    have hls : ∀ l ∈ lines, l.Fits '\n' := fun l hl => h l (List.mem_cons_of_mem _ hl)
    let next := (m.shift l.chars.length).past ⟨['\n'], some (.newline, ['\n'])⟩
    have hnext : next.column = 1 := by
      simp only [next, past, column]
      omega
    have hbreak : ∀ s, Slice.ofText ('\n' :: s) =
      ⟨['\n'], some (.newline, ['\n'])⟩ :: Slice.ofText s := Slice.newline_leads
    rw [List.flatMap_cons, List.append_assoc, List.singleton_append, Line.ofText_chars hl,
      tokens_line, hbreak, tokens, ih next hnext hls, hm, tokensOf]
    have hcolumn := column_shift m l.chars.length
    rw [hm] at hcolumn
    simp only [token?, position, Option.map_some, Option.toList_some, hcolumn]
    rfl

end Mark

/-- Lines that fit are read as their tokens. -/
theorem Stream.ofText_textOf {lines : List Line} (h : ∀ l ∈ lines, l.Fits '\n') :
    (Stream.ofText (textOf lines)).tokens = tokensOf 1 lines := by
  rw [ofText, textOf, String.toList_ofList]
  exact Mark.tokens_lines Mark.start rfl h

end Mermaid
