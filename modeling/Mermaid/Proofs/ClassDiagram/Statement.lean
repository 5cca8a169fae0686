import Mermaid.ClassDiagram.Basic
import Mermaid.Proofs.Token.Phrase

/-! The statements of a class diagram, and the lines on which they are written. -/
namespace Mermaid.ClassDiagram
open Lexicon

/-- The mark of a visibility, right before a member. -/
inductive Marker
  | plus | minus | hash | tilde
  deriving DecidableEq, Repr

def Marker.sign : Marker → Sign
  | plus => ⟨"+", .plus, by decide⟩
  | minus => ⟨"-", .minus, by decide⟩
  | hash => ⟨"#", .hash, by decide⟩
  | tilde => ⟨"~", .tilde, by decide⟩

/-- A type before a name, which may be the type of an array. -/
structure TypeTerm where
  word : Word
  isArray : Bool := false

/-- What can stand between the parentheses of a method. -/
inductive Parameter
  | word (w : Word)
  | comma

/-- What follows the name of a member. -/
inductive Tail
  | plain
  | method (parameters : List Parameter) (returned : List Word)
  | typed (first : Word) (more : List Word)

structure MemberTerm where
  marker : Option Marker := none
  type : Option TypeTerm := none
  name : Word
  tail : Tail := .plain

/-- What a line of a class says, or what stands behind the name of a class and a colon. -/
inductive MemberText
  | stereotype (ws : List Word)
  | member (m : MemberTerm)

/-- Whether a text begins with the word that declares a class. -/
def MemberText.declares : MemberText → Bool
  | stereotype _ => false
  | member m =>
    m.marker.isNone && TokenKind.ofWord ((m.type.map (·.word)).getD m.name).text == .classWord

/-- A line between the braces of a class. -/
structure BodyLine where
  text : MemberText
  free : text.declares = false

structure RelationTerm where
  source : Name
  sourceCardinality : Option Quotation := none
  link : LinkText
  targetCardinality : Option Quotation := none
  target : Name
  label : Option (List Word) := none

inductive Statement
  | title (ws : List Word)
  | declare (name : Name)
  | define (name : Name) (body : List BodyLine)
  | describe (name : Name) (text : MemberText)
  | annotate (ws : List Word) (name : Name)
  | mention (name : Name)
  | relate (r : RelationTerm)

/-- Where guillemets are attached to what they enclose, and commas to what precedes them. -/
structure Spacing where
  stereotypes : Bool := true
  commas : Bool := true
  deriving DecidableEq, Repr

section lines

def colon : Sign := ⟨":", .colon, by decide⟩

def openGuillemet : Sign := ⟨"<<", .openGuillemet, by decide⟩

def closeGuillemet : Sign := ⟨">>", .closeGuillemet, by decide⟩

def wordsLine (ws : List Word) : Line := spread (ws.map .word)

variable (spacing : Spacing)

def stereotypeLine (b : Bool) (ws : List Word) : Line :=
  ⟨b, .sign openGuillemet⟩ :: enclosed spacing.stereotypes (ws.map .word) closeGuillemet

def Parameter.piece : Parameter → Piece
  | word w => .word w
  | comma => .sign .comma

/-- A parameter behind another one. -/
def Parameter.placed : Parameter → Placed
  | word w => ⟨true, .word w⟩
  | comma => ⟨!spacing.commas, .sign .comma⟩

def parametersLine : List Parameter → Line
  | [] => [⟨false, .sign .closeRound⟩]
  | p :: ps => ⟨false, p.piece⟩ :: (ps.map (·.placed spacing) ++ [⟨false, .sign .closeRound⟩])

def Tail.line : Tail → Line
  | plain => []
  | method parameters returned =>
    ⟨false, .sign .openRound⟩ :: (parametersLine spacing parameters ++ wordsLine returned)
  | typed first more => ⟨true, .sign colon⟩ :: wordsLine (first :: more)

/-- A name, with a type before it or without. -/
def typedLine (b : Bool) (name : Word) : Option TypeTerm → Line
  | none => [⟨b, .word name⟩]
  | some ⟨w, isArray⟩ => ⟨b, .word w⟩ ::
      ((if isArray then [⟨false, .sign .openSquare⟩, ⟨false, .sign .closeSquare⟩] else []) ++
        [⟨true, .word name⟩])

def MemberTerm.line (b : Bool) (m : MemberTerm) : Line :=
  match m.marker with
  | none => typedLine b m.name m.type ++ m.tail.line spacing
  | some mark => ⟨b, .sign mark.sign⟩ :: (typedLine false m.name m.type ++ m.tail.line spacing)

def MemberText.line (b : Bool) : MemberText → Line
  | stereotype ws => stereotypeLine spacing b ws
  | member m => m.line spacing b

def cardinalityLine (q : Option Quotation) : Line :=
  q.toList.map fun q => ⟨true, .quotation q⟩

def labelLine : Option (List Word) → Line
  | none => []
  | some ws => ⟨true, .sign colon⟩ :: wordsLine ws

def RelationTerm.line (r : RelationTerm) : Line :=
  ⟨false, .word r.source.toWord⟩ :: (cardinalityLine r.sourceCardinality ++
    ⟨true, .link r.link⟩ :: (cardinalityLine r.targetCardinality ++
      ⟨true, .word r.target.toWord⟩ :: labelLine r.label))

def declareLine (name : Name) : Line :=
  [⟨false, .word .classWord⟩, ⟨true, .word name.toWord⟩]

/-- The lines of a statement: one, or one for each line of a class and two around them. -/
def Statement.lines : Statement → List Line
  | title ws => [⟨false, .word (.spelled "title")⟩ :: wordsLine ws]
  | declare name => [declareLine name]
  | define name body => (declareLine name ++ [⟨true, .sign .openCurly⟩]) ::
      (body.map (·.text.line spacing false) ++ [[⟨false, .sign .closeCurly⟩]])
  | describe name text =>
    [⟨false, .word name.toWord⟩ :: ⟨true, .sign colon⟩ :: text.line spacing true]
  | annotate ws name => [stereotypeLine spacing false ws ++ [⟨true, .word name.toWord⟩]]
  | mention name => [[⟨false, .word name.toWord⟩]]
  | relate r => [r.line]

def headerLine : Line := [⟨false, .word (.spelled "classDiagram")⟩]

/-- The text of a class diagram. -/
def render (ss : List Statement) : String :=
  textOf (headerLine :: ss.flatMap (·.lines spacing))

end lines

section fits
open Piece

theorem fits_wordsLine (ws : List Word) : (wordsLine ws).Fits '\n' := by
  apply Line.fits_spread
  intro p hp
  obtain ⟨w, _, rfl⟩ := List.mem_map.mp hp
  exact stops_newline rfl

theorem first_wordsLine (ws : List Word) : Ends ((wordsLine ws).first '\n') := by
  cases ws with
  | nil => exact .inr rfl
  | cons w ws => exact .inl rfl

private theorem fits_stereotypeLine (spacing : Spacing) (b : Bool) (ws : List Word) {c : Char}
    (hc : Ends c) : (stereotypeLine spacing b ws).Fits c := by
  apply Line.fits_enclosed _ (by decide) (by decide) (sign_stops_ends _ hc)
  simp [isText]

namespace Parameter

/-- What follows a parameter: a space, a comma or the closing parenthesis. -/
private def Follows (c : Char) : Prop := c = ' ' ∨ c = ',' ∨ c = ')'

private theorem stops {c : Char} (h : Follows c) (p : Parameter) : p.piece.Stops c := by
  cases p with
  | word w => rcases h with rfl | rfl | rfl <;> exact ⟨by decide, by decide, by decide⟩
  | comma =>
    rcases h with rfl | rfl | rfl
    · exact stops_space _
    · exact (by decide : (sign .comma).Stops ',')
    · exact (by decide : (sign .comma).Stops ')')

private theorem first_placed (spacing : Spacing) (p : Parameter) :
    Follows (p.placed spacing).first := by
  cases p with
  | word w => exact .inl rfl
  | comma =>
    rw [placed]
    cases spacing.commas with
    | true => exact .inr (.inl rfl)
    | false => exact .inl rfl

private theorem fits_placed (spacing : Spacing) (ps : List Parameter) :
    Line.Fits ')' (ps.map (·.placed spacing)) ∧
      Follows (Line.first ')' (ps.map (·.placed spacing))) := by
  induction ps with
  | nil => exact ⟨trivial, .inr (.inr rfl)⟩
  | cons p ps ih =>
    have hpiece : (p.placed spacing).piece = p.piece := by cases p <;> rfl
    exact ⟨⟨hpiece ▸ p.stops ih.2, ih.1⟩, p.first_placed spacing⟩

end Parameter

private theorem fits_parametersLine (spacing : Spacing) (ps : List Parameter) {c : Char}
    (hc : Ends c) : Line.Fits c (⟨false, .sign .openRound⟩ :: parametersLine spacing ps) := by
  cases ps with
  | nil =>
    have hclose : (sign .openRound).Stops ')' := by decide
    exact ⟨hclose, sign_stops_ends _ hc, trivial⟩
  | cons p ps =>
    obtain ⟨hfits, hfirst⟩ := Parameter.fits_placed spacing ps
    refine ⟨?_, ?_, (Line.fits_append _ _ _).mpr ⟨hfits, sign_stops_ends _ hc, trivial⟩⟩
    · cases p with
      | word w => exact sign_stops_text .openRound (p := word w) rfl
      | comma => exact (by decide : (sign .openRound).Stops ',')
    · rw [Line.first_append]
      exact p.stops hfirst

private theorem Tail.fits_line (spacing : Spacing) (t : Tail) : (t.line spacing).Fits '\n' := by
  cases t with
  | plain => trivial
  | method parameters returned =>
    rw [line, ← List.cons_append, Line.fits_append]
    exact ⟨fits_parametersLine spacing parameters (first_wordsLine returned),
      fits_wordsLine returned⟩
  | typed first more => exact ⟨stops_space _, fits_wordsLine (first :: more)⟩

private theorem Tail.stops_line (spacing : Spacing) (t : Tail) (w : Word) :
    (word w).Stops ((t.line spacing).first '\n') := by
  cases t with
  | plain => exact stops_newline rfl
  | method parameters returned =>
    have hopen : (word w).Stops '(' := ⟨by decide, by decide, by decide⟩
    exact hopen
  | typed first more => exact stops_space _

private theorem fits_typedLine (b : Bool) (name : Word) (type : Option TypeTerm) {c : Char}
    (hc : (word name).Stops c) : (typedLine b name type).Fits c := by
  match type with
  | none => exact ⟨hc, trivial⟩
  | some ⟨w, false⟩ => exact ⟨stops_space _, hc, trivial⟩
  | some ⟨w, true⟩ =>
    have hopen : (word w).Stops '[' := ⟨by decide, by decide, by decide⟩
    have hclose : (sign .openSquare).Stops ']' := by decide
    exact ⟨hopen, hclose, stops_space _, hc, trivial⟩

private theorem MemberTerm.fits_line (spacing : Spacing) (b : Bool) (m : MemberTerm) :
    (m.line spacing b).Fits '\n' := by
  have htyped : ∀ b, Line.Fits '\n' (typedLine b m.name m.type ++ m.tail.line spacing) := by
    intro b
    rw [Line.fits_append]
    exact ⟨fits_typedLine b m.name m.type (m.tail.stops_line spacing m.name),
      m.tail.fits_line spacing⟩
  rw [line]
  cases m.marker with
  | none => exact htyped b
  | some mark =>
    refine ⟨?_, htyped false⟩
    match m.type with
    | none => exact sign_stops_text mark.sign (p := word m.name) rfl
    | some ⟨w, _⟩ => exact sign_stops_text mark.sign (p := word w) rfl

private theorem MemberTerm.first_line (spacing : Spacing) (m : MemberTerm) :
    Line.first '\n' (m.line spacing true) = ' ' := by
  rw [line]
  cases m.marker with
  | some mark => rfl
  | none => cases m.type <;> rfl

theorem MemberText.fits_line (spacing : Spacing) (b : Bool) (t : MemberText) :
    (t.line spacing b).Fits '\n' := by
  cases t with
  | stereotype ws => exact fits_stereotypeLine spacing b ws (.inr rfl)
  | member m => exact m.fits_line spacing b

theorem fits_cardinalityLine (q : Option Quotation) :
    (cardinalityLine q).Fits ' ' ∧ (cardinalityLine q).first ' ' = ' ' := by
  cases q with
  | none => exact ⟨trivial, rfl⟩
  | some q => exact ⟨⟨trivial, trivial⟩, rfl⟩

private theorem RelationTerm.fits_line (r : RelationTerm) : r.line.Fits '\n' := by
  have hlabel : Line.Fits '\n' (labelLine r.label) ∧ Ends (Line.first '\n' (labelLine r.label)) := by
    cases r.label with
    | none => exact ⟨trivial, .inr rfl⟩
    | some ws => exact ⟨⟨sign_stops_ends _ (first_wordsLine ws), fits_wordsLine ws⟩, .inl rfl⟩
  obtain ⟨hsource, hsource'⟩ := fits_cardinalityLine r.sourceCardinality
  obtain ⟨htarget, htarget'⟩ := fits_cardinalityLine r.targetCardinality
  have hspace : ∀ (p : Piece) (l : Line), Line.first '\n' (⟨true, p⟩ :: l) = ' ' := fun _ _ => rfl
  rw [line]
  simp only [Line.Fits, Line.fits_append, Line.first_append, hspace, hsource', htarget']
  exact ⟨stops_space _, hsource, stops_space _, htarget, stops_ends rfl hlabel.2, hlabel.1⟩

/-- The lines of a statement fit. -/
theorem Statement.fits_lines (spacing : Spacing) (s : Statement) :
    ∀ l ∈ s.lines spacing, l.Fits '\n' := by
  have hname : ∀ (name : Name) {c : Char}, Ends c → (declareLine name).Fits c :=
    fun name _ hc => ⟨stops_space _, stops_ends rfl hc, trivial⟩
  cases s with
  | title ws =>
    refine List.forall_mem_singleton.mpr ⟨?_, fits_wordsLine ws⟩
    exact stops_ends rfl (first_wordsLine ws)
  | declare name => exact List.forall_mem_singleton.mpr (hname name (.inr rfl))
  | define name body =>
    rw [lines, List.forall_mem_cons, List.forall_mem_append, List.forall_mem_map,
      List.forall_mem_singleton]
    refine ⟨?_, fun line _ => line.text.fits_line spacing false, sign_stops_newline _, trivial⟩
    exact (Line.fits_append _ _ _).mpr ⟨hname name (.inl rfl), sign_stops_newline _, trivial⟩
  | describe name text =>
    have hfirst : Line.first '\n' (text.line spacing true) = ' ' := by
      cases text with
      | stereotype ws => rfl
      | member m => exact m.first_line spacing
    refine List.forall_mem_singleton.mpr ⟨stops_space _, ?_, text.fits_line spacing true⟩
    rw [hfirst]
    exact stops_space _
  | annotate ws name =>
    refine List.forall_mem_singleton.mpr ((Line.fits_append _ _ _).mpr ⟨?_, stops_newline rfl, trivial⟩)
    exact fits_stereotypeLine spacing false ws (.inl rfl)
  | mention name => exact List.forall_mem_singleton.mpr ⟨stops_newline rfl, trivial⟩
  | relate r => exact List.forall_mem_singleton.mpr r.fits_line

/-- The text of a class diagram is read as the tokens of its lines. -/
theorem ofText_render (spacing : Spacing) (ss : List Statement) :
    (Stream.ofText (render spacing ss)).tokens =
      tokensOf 1 (headerLine :: ss.flatMap (·.lines spacing)) := by
  apply Stream.ofText_textOf
  rw [List.forall_mem_cons]
  refine ⟨⟨stops_newline rfl, trivial⟩, fun l hl => ?_⟩
  obtain ⟨s, _, hl⟩ := List.mem_flatMap.mp hl
  exact s.fits_lines spacing l hl

end fits
end Mermaid.ClassDiagram
