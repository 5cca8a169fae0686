import Mermaid.Flowchart.Delimiter
import Mermaid.Proofs.Token.Phrase

/-! The statements of a flowchart, as trees, and the lines on which they are written. -/
namespace Mermaid.Flowchart
open Lexicon

/-- What stands between the delimiters of a node: words, or a quoted string. -/
inductive Caption
  | words (ws : List Word)
  | quoted (q : Quotation)

namespace Caption

def pieces : Caption → List Piece
  | words ws => ws.map .word
  | quoted q => [.quotation q]

/-- The words with single spaces, or the string without the blanks at its ends. -/
def text : Caption → String
  | words ws => wordsText ws
  | quoted q => Text.stripped q.text

end Caption

/-- The delimiters of a shape. -/
def delimiters : NodeShape → Sign × Sign
  | .rectangle => (.openSquare, .closeSquare)
  | .rounded => (.openRound, .closeRound)
  | .stadium => (⟨"([", .openRoundSquare, by decide⟩, ⟨"])", .closeSquareRound, by decide⟩)
  | .subroutine => (⟨"[[", .openDoubleSquare, by decide⟩, ⟨"]]", .closeDoubleSquare, by decide⟩)
  | .cylinder => (⟨"[(", .openSquareRound, by decide⟩, ⟨")]", .closeRoundSquare, by decide⟩)
  | .circle => (⟨"((", .openDoubleRound, by decide⟩, ⟨"))", .closeDoubleRound, by decide⟩)
  | .doubleCircle => (⟨"(((", .openTripleRound, by decide⟩, ⟨")))", .closeTripleRound, by decide⟩)
  | .asymmetric => (⟨">", .greater, by decide⟩, .closeSquare)
  | .rhombus => (.openCurly, .closeCurly)
  | .hexagon =>
    (⟨"\x7b\x7b", .openDoubleCurly, by decide⟩, ⟨"\x7d\x7d", .closeDoubleCurly, by decide⟩)
  | .parallelogram => (⟨"[/", .openSquareSlash, by decide⟩, ⟨"/]", .closeSlashSquare, by decide⟩)
  | .trapezoid =>
    (⟨"[\\", .openSquareBackslash, by decide⟩, ⟨"\\]", .closeBackslashSquare, by decide⟩)

def opener (s : NodeShape) : Sign := (delimiters s).1

def closer (s : NodeShape) : Sign := (delimiters s).2

/-- A node by its id, or with its shape and its text as well. -/
structure NodeTerm where
  id : Name
  body : Option (NodeShape × Caption) := none

/-- The arrows of a flowchart. -/
inductive LinkForm
  | solidArrow | solidOpen | solidCross | solidCircle | solidLine
  | dottedArrow | dottedOpen | dottedCross | dottedLine
  | thickArrow | thickLine | invisibleLink
  deriving DecidableEq, Repr

namespace LinkForm

def kind : LinkForm → TokenKind
  | solidArrow => .solidArrow
  | solidOpen => .solidOpen
  | solidCross => .solidCross
  | solidCircle => .solidCircle
  | solidLine => .solidLine
  | dottedArrow => .dottedArrow
  | dottedOpen => .dottedOpen
  | dottedCross => .dottedCross
  | dottedLine => .dottedLine
  | thickArrow => .thickArrow
  | thickLine => .thickLine
  | invisibleLink => .invisibleLink

def style : LinkForm → EdgeStyle
  | solidArrow | solidOpen | solidCross | solidCircle | solidLine => .solid
  | dottedArrow | dottedOpen | dottedCross | dottedLine => .dotted
  | thickArrow | thickLine => .thick
  | invisibleLink => .invisible

def head : LinkForm → ArrowHead
  | solidArrow | dottedArrow | thickArrow => .normal
  | solidOpen | dottedOpen => .openHead
  | solidCross | dottedCross => .cross
  | solidCircle => .circle
  | solidLine | dottedLine | thickLine | invisibleLink => .noHead

/-- How an arrow is written whose length is `extra` more than the least. -/
def chars (extra : Nat) : LinkForm → List Char
  | solidArrow => List.replicate (extra + 2) '-' ++ ['>']
  | solidOpen => List.replicate (extra + 2) '-' ++ [')']
  | solidCross => List.replicate (extra + 2) '-' ++ ['x']
  | solidCircle => List.replicate (extra + 2) '-' ++ ['o']
  | solidLine => List.replicate (extra + 3) '-'
  | dottedArrow => '-' :: List.replicate (extra + 1) '.' ++ ['-', '>']
  | dottedOpen => '-' :: List.replicate (extra + 1) '.' ++ ['-', ')']
  | dottedCross => '-' :: List.replicate (extra + 1) '.' ++ ['-', 'x']
  | dottedLine => '-' :: List.replicate (extra + 1) '.' ++ ['-']
  | thickArrow => List.replicate (extra + 2) '=' ++ ['>']
  | thickLine => List.replicate (extra + 3) '='
  | invisibleLink => List.replicate (extra + 3) '~'

private theorem dotted_spells (extra : Nat) :
    dotted.Spells ('-' :: List.replicate (extra + 1) '.' ++ ['-']) :=
  ⟨_, ['-'], ⟨['-'], _, rfl, ⟨extra, rfl⟩, rfl⟩, rfl, rfl⟩

private theorem letter_spells (s : String) : (letter s).Spells s.toList :=
  ⟨s.toList, [], rfl, rfl, (List.append_nil _).symm⟩

private theorem append_head (c d : Char) (s : List Char) :
    c :: s ++ ['-', d] = (c :: s ++ ['-']) ++ [d] := by
  simp

theorem chars_spelled (f : LinkForm) (extra : Nat) :
    ∃ p, (p, f.kind) ∈ links ∧ p.Spells (f.chars extra) := by
  cases f with
  | solidArrow => exact ⟨dashes ++ ">", by simp [links, kind], _, _, ⟨extra, rfl⟩, rfl, rfl⟩
  | solidOpen => exact ⟨dashes ++ ")", by simp [links, kind], _, _, ⟨extra, rfl⟩, rfl, rfl⟩
  | solidCross =>
    exact ⟨dashes ++ letter "x", by simp [links, kind], _, _, ⟨extra, rfl⟩, letter_spells "x", rfl⟩
  | solidCircle =>
    exact ⟨dashes ++ letter "o", by simp [links, kind], _, _, ⟨extra, rfl⟩, letter_spells "o", rfl⟩
  | solidLine => exact ⟨.run '-' 3, by simp [links, kind], extra, rfl⟩
  | dottedArrow =>
    exact ⟨dotted ++ ">", by simp [links, kind], _, _, dotted_spells extra, rfl, append_head ..⟩
  | dottedOpen =>
    exact ⟨dotted ++ ")", by simp [links, kind], _, _, dotted_spells extra, rfl, append_head ..⟩
  | dottedCross =>
    exact ⟨dotted ++ letter "x", by simp [links, kind], _, _, dotted_spells extra,
      letter_spells "x", append_head ..⟩
  | dottedLine => exact ⟨dotted, by simp [links, kind], dotted_spells extra⟩
  | thickArrow => exact ⟨Pattern.run '=' 2 ++ ">", by simp [links, kind], _, _, ⟨extra, rfl⟩, rfl, rfl⟩
  | thickLine => exact ⟨.run '=' 3, by simp [links, kind], extra, rfl⟩
  | invisibleLink => exact ⟨.run '~' 3, by simp [links, kind], extra, rfl⟩

end LinkForm

/-- An arrow of any length, with a label or without. -/
structure Link where
  form : LinkForm
  extra : Nat := 0
  label : Option (List Word) := none

def Link.text (l : Link) : LinkText := ⟨l.form.chars l.extra, l.form.kind, l.form.chars_spelled _⟩

/-- A label without words counts as none. -/
def labelText : Option (List Word) → Option String
  | none | some [] => none
  | some ws => some (wordsText ws)

/-- A word for a direction. -/
inductive DirectionWord
  | td | tb | bt | lr | rl
  deriving DecidableEq, Repr

namespace DirectionWord

def word : DirectionWord → Word
  | td => .spelled "TD"
  | tb => .spelled "TB"
  | bt => .spelled "BT"
  | lr => .spelled "LR"
  | rl => .spelled "RL"

def direction : DirectionWord → Direction
  | td | tb => .topDown
  | bt => .bottomUp
  | lr => .leftRight
  | rl => .rightLeft

end DirectionWord

/-- A statement on a line of its own. -/
inductive Statement
  | chain (source : NodeTerm) (targets : List (Link × NodeTerm))
  | styleClass (name : Name)
  | assign (first : Name) (more : List Name) (className : Name)

inductive Title
  | bracketed (c : Caption)
  | quoted (q : Quotation)

def Title.text : Title → String
  | bracketed c => c.text
  | quoted q => q.text

/-- What a subgraph begins with: its first line, and a line with its direction. -/
structure Heading where
  id : Name
  title : Option Title := none
  direction : Option DirectionWord := none

/-- Statements one after the other. -/
inductive Block
  | nil
  | line (s : Statement) (rest : Block)
  | subgraph (h : Heading) (body rest : Block)

/-- How deep subgraphs are nested. -/
def Block.height : Block → Nat
  | nil => 0
  | line _ rest => rest.height
  | subgraph _ body rest => max (body.height + 1) rest.height

/-- Where delimiters are attached to what they enclose, and commas to what they separate. -/
structure Spacing where
  labels : Bool := true
  titles : Bool := true
  lists : Bool := true
  deriving DecidableEq, Repr

section lines

def pipe : Sign := ⟨"|", .pipe, by decide⟩

@[simp] theorem kind_pipe : pipe.kind = .pipe := rfl

def bodyLine : Option (NodeShape × Caption) → Line
  | none => []
  | some (s, c) => ⟨false, .sign (opener s)⟩ :: enclosed true c.pieces (closer s)

def NodeTerm.line (spaced : Bool) (t : NodeTerm) : Line :=
  ⟨spaced, .word t.id.toWord⟩ :: bodyLine t.body

section tight
variable (tight : Bool)

def labelLine : Option (List Word) → Line
  | none => []
  | some ws => ⟨true, .sign pipe⟩ :: enclosed tight (ws.map .word) pipe

def Link.line (l : Link) : Line := ⟨true, .link l.text⟩ :: labelLine tight l.label

def targetsLine (targets : List (Link × NodeTerm)) : Line :=
  targets.flatMap fun (l, t) => l.line tight ++ t.line true

def furtherLine (ids : List Name) : Line :=
  ids.flatMap fun id => [⟨!tight, .sign .comma⟩, ⟨!tight, .word id.toWord⟩]

def titleLine : Option Title → Line
  | none => []
  | some (.bracketed c) =>
    ⟨true, .sign (opener .rectangle)⟩ :: enclosed tight c.pieces (closer .rectangle)
  | some (.quoted q) => [⟨true, .quotation q⟩]

end tight

variable (spacing : Spacing)

def Statement.line : Statement → Line
  | chain source targets => source.line false ++ targetsLine spacing.labels targets
  | styleClass name => [⟨false, .word (.spelled "classDef")⟩, ⟨true, .word name.toWord⟩]
  | assign first more className =>
    ⟨false, .word .classWord⟩ :: ⟨true, .word first.toWord⟩ ::
      (furtherLine spacing.lists more ++ [⟨true, .word className.toWord⟩])

def Heading.line (h : Heading) : Line :=
  ⟨false, .word (.spelled "subgraph")⟩ :: ⟨true, .word h.id.toWord⟩ ::
    titleLine spacing.titles h.title

/-- The word that begins the head of a subgraph. -/
def subgraphWord : Word := .spelled "subgraph"

def directionLine (d : DirectionWord) : Line :=
  [⟨false, .word (.spelled "direction")⟩, ⟨true, .word d.word⟩]

def Heading.lines (h : Heading) : List Line :=
  h.line spacing :: (h.direction.map directionLine).toList

def endLine : Line := [⟨false, .word (.spelled "end")⟩]

/-- One statement a line. -/
def Block.lines : Block → List Line
  | nil => []
  | line s rest => s.line spacing :: rest.lines
  | subgraph h body rest => h.lines spacing ++ (body.lines ++ endLine :: rest.lines)

def headerLine (d : DirectionWord) : Line :=
  [⟨false, .word (.spelled "flowchart")⟩, ⟨true, .word d.word⟩]

/-- The text of a flowchart. -/
def render (d : DirectionWord) (b : Block) : String := textOf (headerLine d :: b.lines spacing)

end lines

section fits
open Piece

theorem Caption.isText {c : Caption} : ∀ p ∈ c.pieces, p.isText := by
  cases c <;> simp [pieces, Piece.isText]

theorem opener_endsWord (s : NodeShape) : (opener s).EndsWord := by cases s <;> decide

theorem closer_endsWord (s : NodeShape) : (closer s).EndsWord := by cases s <;> decide

theorem opener_stops (s : NodeShape) : (sign (opener s)).Stops (sign (closer s)).first := by
  cases s <;> decide

theorem NodeTerm.fits_line (t : NodeTerm) (b : Bool) {c : Char} (hc : Ends c) :
    (t.line b).Fits c := by
  rw [line]
  cases t.body with
  | none => exact ⟨stops_ends rfl hc, trivial⟩
  | some body =>
    obtain ⟨s, caption⟩ := body
    refine ⟨?_, Line.fits_enclosed Caption.isText (closer_endsWord s) (opener_stops s)
      (sign_stops_ends _ hc) false true⟩
    rw [bodyLine, Line.first_cons]
    exact stops_of_endsWord rfl (opener_endsWord s)

private theorem words_isText (ws : List Word) : ∀ p ∈ ws.map Piece.word, p.isText := by
  simp [Piece.isText]

theorem Link.fits_line (tight : Bool) (l : Link) : (l.line tight).Fits ' ' := by
  rw [line]
  cases l.label with
  | none => exact ⟨rfl, trivial⟩
  | some ws => exact ⟨rfl, Line.fits_enclosed (words_isText ws) (by decide) (by decide)
      (stops_space _) true tight⟩

theorem NodeTerm.first_line (t : NodeTerm) (c : Char) : (t.line true).first c = ' ' := rfl

theorem Link.first_line (tight : Bool) (l : Link) (c : Char) : (l.line tight).first c = ' ' := rfl

private theorem fits_targetsLine (tight : Bool) (targets : List (Link × NodeTerm)) {c : Char}
    (hc : Ends c) : (targetsLine tight targets).Fits c ∧
      Ends ((targetsLine tight targets).first c) := by
  induction targets with
  | nil => exact ⟨trivial, hc⟩
  | cons target targets ih =>
    obtain ⟨l, t⟩ := target
    rw [targetsLine, List.flatMap_cons, ← targetsLine]
    simp only [Line.fits_append, Line.first_append, l.first_line, t.first_line]
    exact ⟨⟨⟨l.fits_line tight, t.fits_line true ih.2⟩, ih.1⟩, .inl rfl⟩

private theorem fits_furtherLine (tight : Bool) (ids : List Name) :
    (furtherLine tight ids).Fits ' ' ∧
      ∀ w : Word, (word w).Stops ((furtherLine tight ids).first ' ') := by
  induction ids with
  | nil => exact ⟨trivial, fun w => stops_space _⟩
  | cons id ids ih =>
    rw [furtherLine, List.flatMap_cons, ← furtherLine]
    simp only [Line.fits_append, Line.first_append]
    refine ⟨⟨⟨?_, ih.2 _, trivial⟩, ih.1⟩, fun w => ?_⟩
    all_goals
      rw [Line.first_cons]
      cases tight
    · exact stops_space _
    · exact sign_stops_text .comma (p := word id.toWord) rfl
    · exact stops_space _
    · exact stops_of_endsWord rfl (by decide)

theorem Statement.fits_line (spacing : Spacing) (s : Statement) : (s.line spacing).Fits '\n' := by
  cases s with
  | chain source targets =>
    obtain ⟨htargets, hends⟩ := fits_targetsLine spacing.labels targets (.inr rfl)
    exact (Line.fits_append _ _ _).mpr ⟨source.fits_line false hends, htargets⟩
  | styleClass name => exact ⟨stops_space _, stops_newline rfl, trivial⟩
  | assign first more className =>
    obtain ⟨hmore, hfirst⟩ := fits_furtherLine spacing.lists more
    refine ⟨stops_space _, ?_, (Line.fits_append _ _ _).mpr ⟨hmore, stops_newline rfl, trivial⟩⟩
    rw [Line.first_append]
    exact hfirst _

private theorem Heading.fits_line (spacing : Spacing) (h : Heading) : (h.line spacing).Fits '\n' := by
  rw [line]
  cases h.title with
  | none => exact ⟨stops_space _, stops_newline rfl, trivial⟩
  | some title =>
    cases title with
    | bracketed c => exact ⟨stops_space _, stops_space _, Line.fits_enclosed Caption.isText
        (closer_endsWord _) (opener_stops _) (sign_stops_newline _) true spacing.titles⟩
    | quoted q => exact ⟨stops_space _, stops_space _, trivial, trivial⟩

theorem Heading.fits_lines (spacing : Spacing) (h : Heading) :
    ∀ l ∈ h.lines spacing, l.Fits '\n' := by
  rw [lines, List.forall_mem_cons]
  refine ⟨h.fits_line spacing, ?_⟩
  cases h.direction with
  | none => simp
  | some d =>
    simp only [Option.map_some, Option.toList_some, List.forall_mem_cons]
    exact ⟨⟨stops_space _, stops_newline rfl, trivial⟩, by simp⟩

theorem Block.fits_lines (spacing : Spacing) (b : Block) : ∀ l ∈ b.lines spacing, l.Fits '\n' := by
  induction b with
  | nil => simp [lines]
  | line s rest ih => exact List.forall_mem_cons.mpr ⟨s.fits_line spacing, ih⟩
  | subgraph h body rest ihb ihr =>
    rw [lines, List.forall_mem_append, List.forall_mem_append, List.forall_mem_cons]
    exact ⟨h.fits_lines spacing, ihb, ⟨stops_newline rfl, trivial⟩, ihr⟩

/-- The text of a flowchart is read as the tokens of its lines. -/
theorem ofText_render (spacing : Spacing) (d : DirectionWord) (b : Block) :
    (Stream.ofText (render spacing d b)).tokens = tokensOf 1 (headerLine d :: b.lines spacing) := by
  apply Stream.ofText_textOf
  rw [List.forall_mem_cons]
  exact ⟨⟨stops_space _, stops_newline rfl, trivial⟩, b.fits_lines spacing⟩

end fits
end Mermaid.Flowchart
