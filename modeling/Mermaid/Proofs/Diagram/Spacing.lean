import Mermaid.Proofs.ClassDiagram.Comments
import Mermaid.Proofs.ClassDiagram.Moving
import Mermaid.Proofs.Flowchart.Comments
import Mermaid.Proofs.Flowchart.Moving

/-! Indentation and spacing do not show in a diagram: white space at the ends of a line says nothing, and
inside a line any amount of it says what one space does. -/
namespace Mermaid
open Rule

theorem Diagnostic.sameLine_moved (column : Position → Int) (d : Diagnostic) :
    d.SameLine (d.moved column) := ⟨rfl, rfl⟩

theorem Outcome.alike_map (o : Outcome Unit) : o.Alike Eq (o.map id) := by
  cases o with
  | done => exact .done rfl
  | failed m => exact .failed m
  | tooDeep => exact .tooDeep

namespace Slice
variable {before : Option Char} {slices : List Slice}

/-- Where there is no carriage return, only white space inside a line is kept. -/
theorem respaced_inside (h : ∀ s ∈ slices, '\r' ∉ s.span) (hbefore : before ≠ some '\r') :
    respaced inside before slices = respaced parting before slices := by
  induction slices generalizing before with
  | nil => rfl
  | cons s slices ih =>
    obtain ⟨hs, hslices⟩ := List.forall_mem_cons.mp h
    have hlast : s.span.getLast? ≠ some '\r' := fun hlast => hs (List.mem_of_getLast? hlast)
    have hkept : ∀ behind, parting before behind = inside before behind := by simp [parting, hbefore]
    rw [respaced, respaced, ih hslices hlast, hkept]

end Slice

namespace Flowchart

/-- A stream with its tokens moved within their lines has the chart of the stream, but for the columns of
diagnostics. -/
theorem alike_moved (limit : Limit) {column : Position → Int} {s : Stream}
    (hgaps : s.tokens.IsChain (Token.SameGap column)) :
    (ofStreamWithin limit s).Alike Eq (ofStreamWithin limit (s.moved column)) := by
  have hmoves := Grammar.moves_document hgaps limit.depth
  have hevent : ∀ e : Event, e.Alike Eq (Movable.moved column e) := by
    intro e
    cases e with
    | fault d => exact .fault (d.sameLine_moved column)
    | recovered d => exact .recovered (d.sameLine_moved column)
    | _ => exact .same _
  have hreply : Grammar.document limit.depth (s.moved column) (s.moved column).tokens =
      (Grammar.document limit.depth s s.tokens).moved column id := hmoves.run s.tokens (List.suffix_refl _)
  rw [ofStreamWithin, ofStreamWithin, hreply]
  refine alike_ofReply (fun _ => rfl) limit.reason ?_ (Outcome.alike_map _)
  exact List.forall₂_map_right_iff.mpr (List.forall₂_same.mpr fun e _ => hevent e)

end Flowchart

namespace ClassDiagram

/-- A stream with its tokens moved within their lines has the diagram of the stream, but for the columns
of diagnostics. -/
theorem alike_moved (column : Position → Int) (s : Stream) :
    (ofStream s).Alike (Eq ·.type) Eq (ofStream (s.moved column)) := by
  have hmoves : Moves s column id Grammar.document Grammar.document := Grammar.moves_document
  have hevent : ∀ e : Event, e.Alike (Eq ·.type) Eq (Movable.moved column e) := by
    intro e
    cases e with
    | fault d => exact .fault (d.sameLine_moved column)
    | recovered d => exact .recovered (d.sameLine_moved column)
    | stereotype owner text => exact .stereotype rfl
    | member owner m => exact .member rfl
    | _ => exact .same rfl
  have hreply : Grammar.document (s.moved column) (s.moved column).tokens =
      (Grammar.document s s.tokens).moved column id := hmoves.run s.tokens (List.suffix_refl _)
  rw [ofStream, ofStream, hreply]
  refine .ofReply ?_ (Outcome.alike_map _)
  exact List.forall₂_map_right_iff.mpr (List.forall₂_same.mpr fun e _ => hevent e)

end ClassDiagram

/-- A text that ends with a line break, if with anything, is read to the same diagrams with its white space
cut down: with one space for every run of it inside a line, and with none at the ends of a line. The only
white space that is kept there is what alone parts a carriage return from a line feed, so there is none in
a text without carriage returns. The faults are the same in the same order, on the same lines. -/
theorem spacing_invisible (limit : Flowchart.Limit) {text : String} (h : Ended text.toList) :
    let plain := thinned Slice.parting text
    ('\r' ∉ text.toList → plain = thinned Slice.inside text) ∧
    (let chart := Flowchart.ofStreamWithin limit (.ofText text)
      let chart' := Flowchart.ofStreamWithin limit (.ofText plain)
      chart' = { chart with diagnostics := chart'.diagnostics } ∧
        List.Forall₂ Diagnostic.SameLine chart.diagnostics chart'.diagnostics) ∧
    let diagram := ClassDiagram.parse text
    let diagram' := ClassDiagram.parse plain
    diagram' = { diagram with diagnostics := diagram'.diagnostics } ∧
      List.Forall₂ Diagnostic.SameLine diagram.diagnostics diagram'.diagnostics := by
  intro plain
  obtain ⟨column, hmoved, hgaps⟩ := Stream.exists_moved h
  have hchart := Flowchart.alike_moved limit hgaps
  have hdiagram := ClassDiagram.alike_moved column (.ofText text)
  rw [← hmoved] at hchart hdiagram
  refine ⟨fun hreturn => ?_, ⟨hchart.eq, hchart.diagnostics⟩, hdiagram.eq, hdiagram.diagnostics⟩
  have hspans : ∀ s ∈ Slice.ofText text.toList, '\r' ∉ s.span := fun s hs hmem =>
    hreturn ((Slice.tiles_ofText text.toList).1 ▸ List.mem_flatMap_of_mem hs hmem)
  have hkept : Slice.respaced Slice.inside none (Slice.ofText text.toList) =
      Slice.respaced Slice.parting none (Slice.ofText text.toList) :=
    Slice.respaced_inside hspans (by simp)
  simp only [plain, thinned, Slice.respell, hkept]

/-- White space of all kinds, some of it in a string and in a comment. -/
def spacedText : String :=
  "\t flowchart  TD\n  A[\"x  y\"] -->\tB  %% a  b \n classDef  hot   fill : red \n\n  class\t, B \n"

theorem spacing_invisible_spacedText :
    Ended spacedText.toList ∧
    thinned Slice.inside spacedText =
      "flowchart TD\nA[\"x  y\"] --> B %% a  b \nclassDef hot fill : red\n\nclass , B\n" ∧
    let chart := Flowchart.parse spacedText
    let chart' := Flowchart.parse (thinned Slice.inside spacedText)
    chart' = { chart with diagnostics := chart'.diagnostics } ∧
      List.Forall₂ Diagnostic.SameLine chart.diagnostics chart'.diagnostics := by
  have hended : Ended spacedText.toList := by decide
  obtain ⟨hinside, hchart, -⟩ := spacing_invisible {} hended
  rw [← hinside (by decide)]
  exact ⟨hended, by decide +kernel, hchart⟩

/-- White space that alone parts a carriage return from a line feed, and a node below. -/
def partedText : String := "flowchart TD\r \nA\n"

/-- Without that white space there is one line break less. -/
theorem not_spacing_invisible :
    Ended partedText.toList ∧ thinned Slice.inside partedText = "flowchart TD\r\nA\n" ∧
      (Flowchart.parse partedText).nodes.values.map (·.line) = [3] ∧
      (Flowchart.parse (thinned Slice.inside partedText)).nodes.values.map (·.line) = [2] := by
  refine ⟨?_, ?_, ?_, ?_⟩ <;> decide +kernel

end Mermaid
