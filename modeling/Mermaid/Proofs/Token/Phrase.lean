import Mathlib.Data.List.Forall2
import Mermaid.Proofs.Text.Strip
import Mermaid.Proofs.Token.Line

/-! Phrases that lines are made of: words with single spaces between them, and a text between two
delimiters that are attached to it or stand apart. -/
namespace Mermaid
open Lexicon Text

/-- A word that is written out. -/
def Word.spelled (s : String) (h : s.toList ≠ [] ∧ s.toList.all isWord := by decide) : Word :=
  { first := ⟨s.toList, h.1, List.all_eq_true.mp h.2⟩ }

@[simp] theorem Word.text_spelled (s : String) (h : s.toList ≠ [] ∧ s.toList.all isWord) :
    (Word.spelled s h).text = s := by
  simp [text, chars, spelled, argumentChars]

theorem Piece.kind_spelled {s : String} {h : s.toList ≠ [] ∧ s.toList.all isWord}
    {k : TokenKind} (hk : TokenKind.ofWord s = k) : (Piece.word (Word.spelled s h)).kind = k := by
  rw [kind, Word.text_spelled, hk]

theorem Word.unpadded (w : Word) : Unpadded w.text.toList := by
  have hargument : ∀ c ∈ argumentChars w.argument, isBlank c = false := by
    cases w.argument with
    | none => simp [argumentChars]
    | some l =>
      intro c hc
      simp only [argumentChars, List.cons_append, List.mem_cons, List.mem_append,
        List.not_mem_nil, or_false] at hc
      rcases hc with rfl | hc | rfl
      · decide
      · exact isBlank_of_isWord (l.all c hc)
      · decide
  have hall : ∀ c ∈ w.chars, isBlank c = false := by
    intro c hc
    simp only [chars, List.mem_append, List.mem_flatMap] at hc
    rcases hc with hc | ⟨l, _, hc⟩ | hc
    · exact isBlank_of_isWord (w.first.all c hc)
    · rcases List.mem_cons.mp hc with rfl | hc
      · decide
      · exact isBlank_of_isWord (l.all c hc)
    · exact hargument c hc
  obtain ⟨d, s, hw, _⟩ := w.exists_cons
  rw [text, String.toList_ofList]
  exact ⟨by simp [hw], fun c hc => hall c (List.mem_of_mem_head? hc),
    fun c hc => hall c (List.mem_of_mem_getLast? hc)⟩

/-- The words with a space between each two. -/
def wordsText (ws : List Word) : String := " ".intercalate (ws.map (·.text))

theorem joinWords_words (ws : List Word) : joinWords (ws.map (·.text)) = wordsText ws := by
  apply joinWords_eq
  simp only [List.mem_map, forall_exists_index, and_imp, forall_apply_eq_imp_iff₂]
  exact fun w _ => w.unpadded

/-- Pieces with a space before each. -/
def spread (ps : List Piece) : Line := ps.map (⟨true, ·⟩)

/-- Pieces up to a closing delimiter. They are attached to the delimiters, or stand apart. -/
def enclosed (tight : Bool) (ps : List Piece) (closer : Sign) : Line :=
  match ps with
  | [] => [⟨!tight, .sign closer⟩]
  | p :: ps => ⟨!tight, p⟩ :: (spread ps ++ [⟨!tight, .sign closer⟩])

namespace Piece

/-- The character that a piece begins with. -/
def first (p : Piece) : Char := p.chars.headD '\n'

/-- Words and quoted strings. -/
def isText : Piece → Bool
  | word _ | quotation _ => true
  | sign _ | link _ => false

private theorem sign_stops_blank : ∀ e ∈ punctuation,
    ¬ RunsOn (e.1.toList ++ [' ']) ∧ ¬ RunsOn (e.1.toList ++ ['\n']) ∧
      ¬ RunsOn (e.1.toList ++ ['"']) := by
  decide +kernel

theorem stops_space (p : Piece) : p.Stops ' ' := by
  cases p with
  | word w => exact ⟨by decide, by decide, by decide⟩
  | quotation q => trivial
  | sign x => exact (sign_stops_blank _ x.mem).1
  | link l => rfl

theorem stops_newline {p : Piece} (h : p.isText) : p.Stops '\n' := by
  cases p with
  | word w => exact ⟨by decide, by decide, by decide⟩
  | quotation q => trivial
  | sign | link => simp [isText] at h

theorem sign_stops_newline (x : Sign) : (sign x).Stops '\n' := (sign_stops_blank _ x.mem).2.1

/-- What is not a link can stand before a space and at the end of a line. -/
def Ends (c : Char) : Prop := c = ' ' ∨ c = '\n'

theorem sign_stops_ends (x : Sign) {c : Char} (h : Ends c) : (sign x).Stops c := by
  rcases h with rfl | rfl
  · exact stops_space _
  · exact sign_stops_newline x

theorem stops_ends {p : Piece} (hp : p.isText) {c : Char} (h : Ends c) : p.Stops c := by
  rcases h with rfl | rfl
  · exact stops_space _
  · exact stops_newline hp

private theorem sign_not_word : ∀ e ∈ punctuation, e.1.toList.all (!isWord ·) := by
  decide +kernel

private theorem sign_not_link : ∀ e ∈ punctuation,
    opensLink e.1.toList = false ∧ ("%%".toList <+: e.1.toList → False) := by
  decide +kernel

theorem sign_stops_word (x : Sign) {c : Char} (h : isWord c) : (sign x).Stops c := by
  have hnot : ∀ l : List Char, l.all (!isWord ·) → c ∉ l := by
    intro l hl hc
    simpa [h] using List.all_eq_true.mp hl c hc
  rintro (⟨e, he, hp⟩ | ho | hp)
  · exact hnot _ (sign_not_word e he) (hp.subset (by simp))
  · have hx := (sign_not_link _ x.mem).1
    have hne : c ∉ ['|', '.', '-', '=', '~'] := hnot _ (by decide)
    rcases hl : x.text.toList with _ | ⟨a, _ | ⟨b, t⟩⟩
    · simp [hl, opensLink] at ho
    · simp_all [opensLink]
    · rw [hl] at ho hx
      exact absurd (ho.symm.trans hx) (by decide)
  · rcases List.prefix_concat_iff.mp hp with hp | hp
    · exact hnot "%%".toList (by decide)
        (hp ▸ List.mem_append_right _ (List.mem_singleton_self c))
    · exact (sign_not_link _ x.mem).2 hp

theorem sign_stops_text (x : Sign) {p : Piece} (h : p.isText) : (sign x).Stops p.first := by
  cases p with
  | word w =>
    obtain ⟨c, s, hw, hc⟩ := w.exists_cons
    have hf : (word w).first = c := by simp [first, chars, hw]
    exact hf ▸ sign_stops_word x hc
  | quotation q => exact (sign_stops_blank _ x.mem).2.2
  | sign | link => simp [isText] at h

end Piece

/-- The word that begins a declaration or an assignment of a class. -/
def Word.classWord : Word := .spelled "class"

theorem Word.ofWord_classWord : TokenKind.ofWord Word.classWord.text = .classWord := by
  rw [classWord, text_spelled]
  decide

namespace Sign

def comma : Sign := ⟨",", .comma, by decide⟩

def openRound : Sign := ⟨"(", .openRound, by decide⟩

def closeRound : Sign := ⟨")", .closeRound, by decide⟩

def openSquare : Sign := ⟨"[", .openSquare, by decide⟩

def closeSquare : Sign := ⟨"]", .closeSquare, by decide⟩

def openCurly : Sign := ⟨"\x7b", .openCurly, by decide⟩

def closeCurly : Sign := ⟨"\x7d", .closeCurly, by decide⟩

end Sign

/-- A mark that ends the word before it. -/
def Sign.EndsWord (x : Sign) : Prop :=
  isWord (Piece.sign x).first = false ∧ (Piece.sign x).first ≠ '-' ∧ (Piece.sign x).first ≠ '~'

instance (x : Sign) : Decidable x.EndsWord := inferInstanceAs (Decidable (_ ∧ _))

instance (x : Sign) (c : Char) : Decidable ((Piece.sign x).Stops c) :=
  inferInstanceAs (Decidable (¬ RunsOn _))

/-- The kinds of token that words and quoted strings stand for. -/
def Piece.textKinds : List TokenKind :=
  .string :: .identifier :: TokenKind.reserved.map (·.2)

theorem Piece.kind_mem_textKinds {p : Piece} (h : p.isText) : p.kind ∈ textKinds := by
  cases p with
  | word w => exact List.mem_cons_of_mem _ (ofWord_mem w.text)
  | quotation q => exact List.mem_cons_self
  | sign | link => simp [isText] at h

theorem Piece.stops_of_endsWord {p : Piece} (h : p.isText) {x : Sign} (hx : x.EndsWord) :
    p.Stops (sign x).first := by
  cases p with
  | word w => exact hx
  | quotation q => trivial
  | sign | link => simp [isText] at h

namespace Line

theorem first_cons (c : Char) (b : Bool) (p : Piece) (l : Line) :
    first c (⟨b, p⟩ :: l) = if b then ' ' else p.first := by
  cases b <;> simp [first, Placed.first, Placed.chars, Placed.indent, Piece.first]

theorem fits_spread {c : Char} {ps : List Piece} (h : ∀ p ∈ ps, p.Stops c) :
    Fits c (spread ps) := by
  induction ps with
  | nil => trivial
  | cons p ps ih =>
    refine ⟨?_, ih fun q hq => h q (List.mem_cons_of_mem p hq)⟩
    cases ps with
    | nil => exact h p List.mem_cons_self
    | cons q ps => exact p.stops_space

/-- A text between delimiters fits where the closing one stops; the two must not run into one. -/
theorem fits_enclosed {c : Char} {x y : Sign} {ps : List Piece} (hps : ∀ p ∈ ps, p.isText)
    (hy : y.EndsWord) (hxy : (Piece.sign x).Stops (Piece.sign y).first)
    (hc : (Piece.sign y).Stops c) (b tight : Bool) :
    Fits c (⟨b, .sign x⟩ :: enclosed tight ps y) := by
  have hlast : ∀ p : Piece, p.Stops (Piece.sign y).first →
      p.Stops (first c [⟨!tight, .sign y⟩]) := by
    intro p hp
    rw [first_cons]
    cases tight with
    | true => exact hp
    | false => exact p.stops_space
  cases ps with
  | nil => exact ⟨hlast _ hxy, hc, trivial⟩
  | cons p ps =>
    have hp := hps p List.mem_cons_self
    refine ⟨?_, ?_, (fits_append _ _ _).mpr ⟨?_, hc, trivial⟩⟩
    · rw [enclosed, first_cons]
      cases tight with
      | true => exact Piece.sign_stops_text x hp
      | false => exact Piece.stops_space _
    · cases ps with
      | nil => exact hlast p (Piece.stops_of_endsWord hp hy)
      | cons q ps => exact p.stops_space
    · apply fits_spread
      intro q hq
      exact hlast q (Piece.stops_of_endsWord (hps q (List.mem_cons_of_mem p hq)) hy)

end Line

/-- The token is one that the piece is read as. -/
def Token.Tells (t : Token) (p : Piece) : Prop := t.kind = p.kind ∧ t.lexeme = p.lexeme

theorem Token.map_lexeme {ts : List Token} {ps : List Piece} (h : List.Forall₂ Tells ts ps) :
    ts.map (·.lexeme) = ps.map (·.lexeme) := by
  induction h with
  | nil => rfl
  | cons h _ ih => rw [List.map_cons, List.map_cons, h.2, ih]

theorem Token.forall_kind {ts : List Token} {ps : List Piece} (h : List.Forall₂ Tells ts ps)
    {P : TokenKind → Prop} (hps : ∀ p ∈ ps, P p.kind) : ∀ t ∈ ts, P t.kind := by
  induction h with
  | nil => simp
  | cons h _ ih =>
    rw [List.forall_mem_cons] at hps ⊢
    exact ⟨h.1 ▸ hps.1, ih hps.2⟩

/-- The tokens are ones that the pieces are read as on line `n`. -/
def Token.Row (n : Int) (ts : List Token) (ps : List Piece) : Prop :=
  List.Forall₂ (fun t p => t.Tells p ∧ t.position.line = n) ts ps

namespace Token.Row
variable {n : Int} {ts : List Token}

theorem nil_iff : Row n ts [] ↔ ts = [] := List.forall₂_nil_right_iff

theorem exists_cons {p : Piece} {ps : List Piece} (h : Row n ts (p :: ps)) : ∃ t us,
    ts = t :: us ∧ t.Tells p ∧ t.position.line = n ∧ Row n us ps := by
  obtain ⟨t, us, ht, hus, rfl⟩ := List.forall₂_cons_right_iff.mp h
  exact ⟨t, us, rfl, ht.1, ht.2, hus⟩

theorem exists_append {ps qs : List Piece} (h : Row n ts (ps ++ qs)) : ∃ us vs,
    ts = us ++ vs ∧ Row n us ps ∧ Row n vs qs :=
  ⟨_, _, (List.take_append_drop ps.length ts).symm, List.forall₂_take_append ts ps qs h,
    List.forall₂_drop_append ts ps qs h⟩

theorem tells {ps : List Piece} (h : Row n ts ps) : List.Forall₂ Tells ts ps :=
  List.Forall₂.imp (fun _ _ ht => ht.1) h

theorem lexemes {ws : List Word} (h : Row n ts (ws.map .word)) :
    ts.map (·.lexeme) = ws.map (·.text) := by
  rw [map_lexeme h.tells, List.map_map]
  rfl

end Token.Row

namespace Line

/-- A line is read as the tokens of its pieces. -/
theorem row_tokens (n k : Int) (l : Line) : Token.Row n (tokens n k l) (l.map (·.piece)) := by
  induction l generalizing k with
  | nil => exact .nil
  | cons p l ih => exact .cons ⟨⟨rfl, rfl⟩, rfl⟩ (ih _)

theorem exists_tokens_cons (n k : Int) (p : Placed) (l : Line) : ∃ t k',
    tokens n k (p :: l) = t :: tokens n k' l ∧ t.Tells p.piece ∧ t.position.line = n :=
  ⟨_, _, rfl, ⟨rfl, rfl⟩, rfl⟩

theorem exists_tokens_append (n k : Int) (l m : Line) :
    ∃ k', tokens n k (l ++ m) = tokens n k l ++ tokens n k' m :=
  ⟨_, tokens_append n k l m⟩

theorem exists_tokensOf_cons (n : Int) (l : Line) (lines : List Line) : ∃ close,
    tokensOf n (l :: lines) = tokens n 1 l ++ close :: tokensOf (n + 1) lines ∧
      close.kind = .newline :=
  ⟨_, rfl, rfl⟩

theorem tokens_spread (n k : Int) (ps : List Piece) :
    List.Forall₂ Token.Tells (tokens n k (spread ps)) ps := by
  have h := (row_tokens n k (spread ps)).tells
  have hmap : (spread ps).map (·.piece) = ps := by simp [spread, Function.comp_def]
  rwa [hmap] at h

theorem tokens_enclosed (n k : Int) (tight : Bool) (ps : List Piece) (y : Sign) :
    ∃ ts t, tokens n k (enclosed tight ps y) = ts ++ [t] ∧ List.Forall₂ Token.Tells ts ps ∧
      t.Tells (.sign y) := by
  cases ps with
  | nil => exact ⟨[], _, rfl, .nil, rfl, rfl⟩
  | cons p ps =>
    exact ⟨_, _, tokens_append n k (⟨!tight, p⟩ :: spread ps) [⟨!tight, .sign y⟩],
      .cons ⟨rfl, rfl⟩ (tokens_spread n _ ps), rfl, rfl⟩

end Line
end Mermaid
