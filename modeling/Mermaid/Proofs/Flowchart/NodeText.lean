import Mermaid.Proofs.Flowchart.Progress
import Mermaid.Proofs.Text.Strip

/-! The text of a node. It stops at the first token of its line that closes it, and loses none of what
stands before: only white space comes and goes. -/
namespace Mermaid.Flowchart

/-- Whether a text with this closer ends at a token: at the closer itself, or at a longer delimiter
with the closing text at its end. -/
def Closer.Ends (c : Closer) (t : Token) : Prop :=
  t.kind = c.kind ∨ t.kind.closesShape ∧ c.text.toList <:+ t.lexeme.toList

namespace NodeText
variable {c : Closer}

/-- How a text ends at the tokens that remain: what the last of its tokens still adds to it, whether it
is closed, and what is left. -/
inductive Ending (c : Closer) : List Token → List (TokenKind × String) → Bool → List Token → Prop
  | lineEnd {ts : List Token} (h : ∀ t ∈ ts.head?, t.kind = .newline) : Ending c ts [] false ts
  | closer {t : Token} {ts : List Token} (h : t.kind = c.kind) : Ending c (t :: ts) [] true ts
  | longer {t : Token} {ts : List Token} {stem : String} (hother : t.kind ≠ c.kind)
      (hcloses : t.kind.closesShape) (h : t.lexeme = stem ++ c.text) :
      Ending c (t :: ts) [(t.kind, stem)] true ts

/-- The pieces of a text that tokens make: their lexemes, but those of pipes. -/
def piecesOf (ts : List Token) : List (TokenKind × String) :=
  (ts.filter (·.kind != .pipe)).map fun t => (t.kind, t.lexeme)

/-- Pieces in a row behind a token of the kind `last`. One space stands between two of them, unless the
first takes none behind it or the second takes none before it. -/
def spreadAfter (last : TokenKind) : List (TokenKind × String) → String
  | [] => ""
  | (kind, text) :: more =>
    (if hugsRight last || hugsLeft kind then "" else " ") ++ text ++ spreadAfter kind more

def spread : List (TokenKind × String) → String
  | [] => ""
  | (kind, text) :: more => text ++ spreadAfter kind more

/-- The characters of a text that are not blank. -/
def inked (s : String) : List Char := s.toList.filter (!Text.isBlank ·)

theorem endsWith_iff {t : Token} :
    endsWith c t = true ↔ t.kind.closesShape ∧ c.text.toList <:+ t.lexeme.toList := by
  simp [endsWith]

theorem ends_iff {t : Token} : c.Ends t ↔ t.kind = c.kind ∨ endsWith c t = true := by
  rw [Closer.Ends, endsWith_iff]

theorem stem_append (hc : c.text ≠ "") {t : Token} (h : endsWith c t) :
    t.lexeme = stem c t.lexeme ++ c.text := by
  obtain ⟨front, hfront⟩ := (endsWith_iff.mp h).2
  have hlength : t.lexeme.length - c.text.length = front.length := by
    rw [← String.length_toList, ← hfront, List.length_append, String.length_toList, Nat.add_sub_cancel]
  apply String.toList_injective
  rw [stem, if_neg hc, hlength, ← hfront]
  simp

/-- Pieces in a row, behind a token of some kind or at the beginning of the text. -/
def spreadFrom (last : Option TokenKind) (ps : List (TokenKind × String)) : String :=
  last.elim (spread ps) (spreadAfter · ps)

theorem spreadFrom_nil (last : Option TokenKind) : spreadFrom last [] = "" := by
  cases last <;> rfl

theorem spreadFrom_cons (last : Option TokenKind) (kind : TokenKind) (text : String)
    (more : List (TokenKind × String)) : spreadFrom last ((kind, text) :: more) =
      gap last kind ++ text ++ spreadFrom (some kind) more := by
  cases last with
  | none => simp [spreadFrom, spread, gap]
  | some k => simp only [spreadFrom, Option.elim_some, spreadAfter, gap, Bool.or_comm]

/-- The pieces that are read are those of the tokens before the text ends, and what the last token adds. -/
theorem pieces_run (hc : c.text ≠ "") (last : Option TokenKind) (ts : List Token) :
    ∃ front tail remnant, ts = front ++ tail ∧ (∀ t ∈ front, t.kind ≠ .newline ∧ ¬ c.Ends t) ∧
      Ending c tail remnant (pieces c last ts).2.1 (pieces c last ts).2.2 ∧
      String.join (pieces c last ts).1 = spreadFrom last (piecesOf front ++ remnant) := by
  induction ts generalizing last with
  | nil => exact ⟨[], [], [], rfl, by simp, .lineEnd (by simp), (spreadFrom_nil last).symm⟩
  | cons t ts ih =>
    cases turn c last t with
    | lineEnd hline run =>
      rw [run]
      exact ⟨[], t :: ts, [], rfl, by simp, .lineEnd (by simpa using hline), (spreadFrom_nil last).symm⟩
    | closer _ hcloser run =>
      rw [run]
      exact ⟨[], t :: ts, [], rfl, by simp, .closer hcloser, (spreadFrom_nil last).symm⟩
    | pipe hcloser hpipe run =>
      rw [run]
      obtain ⟨front, tail, remnant, rfl, hfront, hending, htext⟩ := ih last
      have hends : ¬ c.Ends t := fun h => h.elim hcloser (by simp [hpipe, TokenKind.closesShape])
      refine ⟨t :: front, tail, remnant, rfl,
        List.forall_mem_cons.mpr ⟨⟨by simp [hpipe], hends⟩, hfront⟩, hending, ?_⟩
      rw [htext, piecesOf, piecesOf, List.filter_cons_of_neg (by simp [hpipe])]
    | longer _ hcloser hend run =>
      rw [run]
      refine ⟨[], t :: ts, [(t.kind, stem c t.lexeme)], rfl, by simp,
        .longer hcloser (endsWith_iff.mp hend).1 (stem_append hc hend), ?_⟩
      have hremnant : piecesOf [] ++ [(t.kind, stem c t.lexeme)] = [(t.kind, stem c t.lexeme)] := rfl
      rw [hremnant, spreadFrom_cons, spreadFrom_nil, String.join_cons, String.join_cons, String.join_nil,
        String.append_assoc]
    | word hline hcloser hpipe hend run =>
      rw [run]
      obtain ⟨front, tail, remnant, rfl, hfront, hending, htext⟩ := ih (some t.kind)
      have hends : ¬ c.Ends t := fun h => (ends_iff.mp h).elim hcloser hend
      refine ⟨t :: front, tail, remnant, rfl, List.forall_mem_cons.mpr ⟨⟨hline, hends⟩, hfront⟩, hending, ?_⟩
      rw [piecesOf, List.filter_cons_of_pos (by simpa using hpipe), List.map_cons, List.cons_append,
        spreadFrom_cons, ← piecesOf, ← htext, String.join_cons, String.join_cons, String.append_assoc]

theorem inked_append (s t : String) : inked (s ++ t) = inked s ++ inked t := by
  simp [inked]

/-- Spaces between the pieces are all that their row adds to them. -/
theorem inked_spreadAfter (last : TokenKind) (ps : List (TokenKind × String)) :
    inked (spreadAfter last ps) = ps.flatMap fun p => inked p.2 := by
  induction ps generalizing last with
  | nil => rfl
  | cons p more ih =>
    have hgap : inked (if hugsRight last || hugsLeft p.1 then "" else " ") = [] := by
      split <;> rfl
    rw [spreadAfter, inked_append, inked_append, hgap, ih, List.nil_append, List.flatMap_cons]

theorem inked_spread (ps : List (TokenKind × String)) :
    inked (spread ps) = ps.flatMap fun p => inked p.2 := by
  cases ps with
  | nil => rfl
  | cons p more => rw [spread, inked_append, inked_spreadAfter, List.flatMap_cons]

theorem inked_stripped (s : String) : inked (Text.stripped s) = inked s := by
  rw [inked, inked, Text.stripped, String.toList_ofList, Text.filter_strip]

/-- A closed text ends at the token before those that are left. -/
theorem Ending.exists_ends {tail rest : List Token} {remnant : List (TokenKind × String)}
    (h : Ending c tail remnant true rest) : ∃ t, tail = t :: rest ∧ c.Ends t := by
  cases h with
  | closer h => exact ⟨_, rfl, .inl h⟩
  | longer hother hcloses h => exact ⟨_, rfl, .inr ⟨hcloses, by simp [h]⟩⟩

/-- A text is closed just where a token of its line ends it. -/
theorem Ending.closed_iff {front tail rest : List Token} {remnant : List (TokenKind × String)} {closed : Bool}
    (h : Ending c tail remnant closed rest) (hfront : ∀ t ∈ front, t.kind ≠ .newline ∧ ¬ c.Ends t)
    (hc : c.kind ≠ .newline) :
    closed = true ↔ ∃ t ∈ (front ++ tail).takeWhile (·.kind != .newline), c.Ends t := by
  have hline : (front ++ tail).takeWhile (·.kind != .newline) = front ++ tail.takeWhile (·.kind != .newline) :=
    List.takeWhile_append_of_pos fun t ht => by simpa using (hfront t ht).1
  rw [hline]
  constructor
  · rintro rfl
    obtain ⟨t, rfl, ht⟩ := h.exists_ends
    have hkind : t.kind ≠ .newline := by
      rintro hkind
      exact ht.elim (fun h => hc (h.symm.trans hkind)) (by simp [hkind, TokenKind.closesShape])
    exact ⟨t, by simp [hkind], ht⟩
  · rintro ⟨t, ht, hends⟩
    cases h with
    | lineEnd hend =>
      have hnone : tail.takeWhile (·.kind != .newline) = [] := by
        cases tail with
        | nil => rfl
        | cons u us => simp [hend u rfl]
      rw [hnone, List.append_nil] at ht
      exact absurd hends (hfront t ht).2
    | closer | longer => rfl

/-- The text of a shape is closed where a token of its line ends it, by the first one that does, and goes
on behind that token; else it goes on at the end of the line. It consists of all that stands before, pipes
apart, with what a longer delimiter has before the closing text. Single spaces are added where the two
tokens allow for one, and white space is lost at the ends. -/
theorem reads_whole {opening : TokenKind} {shape : NodeShape} (h : shape? opening = some (shape, c))
    (ts : List Token) :
    ∃ front tail remnant, ts = front ++ tail ∧ (∀ t ∈ front, t.kind ≠ .newline ∧ ¬ c.Ends t) ∧
      let ((text, closed), rest) := read c ts
      Ending c tail remnant closed rest ∧
      (closed = true ↔ ∃ t ∈ ts.takeWhile (·.kind != .newline), c.Ends t) ∧
      text = Text.stripped (spread (piecesOf front ++ remnant)) ∧
      inked text = (piecesOf front ++ remnant).flatMap fun p => inked p.2 := by
  obtain ⟨hcloses, hc⟩ := closer_of_shape? h
  obtain ⟨front, tail, remnant, rfl, hfront, hending, htext⟩ := pieces_run hc none ts
  have hkind : c.kind ≠ .newline := by
    rintro hkind
    simp [hkind, TokenKind.closesShape] at hcloses
  have hspread : String.join (pieces c none (front ++ tail)).1 = spread (piecesOf front ++ remnant) := htext
  refine ⟨front, tail, remnant, rfl, hfront, hending, hending.closed_iff hfront hkind, ?_, ?_⟩
  · rw [hspread]
  · rw [inked_stripped, hspread, inked_spread]

/-- A text with parentheses, closed together with the last of them, and a word behind it. -/
def nestedText : List Token := (Stream.ofText "x (y | z)] w").tokens

theorem reads_whole_nestedText :
    shape? .openSquare = some (.rectangle, .square) ∧
    (read .square nestedText).1 = ("x (y z)", true) ∧
    (read .square nestedText).2.map (·.lexeme) = ["w"] ∧
    ∃ front tail remnant, nestedText = front ++ tail ∧
      (∀ t ∈ front, t.kind ≠ .newline ∧ ¬ Closer.square.Ends t) ∧
      let ((text, closed), rest) := read .square nestedText
      Ending .square tail remnant closed rest ∧
      (closed = true ↔ ∃ t ∈ nestedText.takeWhile (·.kind != .newline), Closer.square.Ends t) ∧
      text = Text.stripped (spread (piecesOf front ++ remnant)) ∧
      inked text = (piecesOf front ++ remnant).flatMap fun p => inked p.2 := by
  have hshape : shape? .openSquare = some (.rectangle, .square) := rfl
  exact ⟨hshape, by decide +kernel, by decide +kernel, reads_whole hshape nestedText⟩

end NodeText
end Mermaid.Flowchart
