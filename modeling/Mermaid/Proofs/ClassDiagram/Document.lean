import Mermaid.Proofs.ClassDiagram.Reading

/-! Whole class diagrams: what is written on well-formed lines is read to its end, and means what
its statements add up to. -/
namespace Mermaid.ClassDiagram
open Rule

variable {s : Stream}

namespace Grammar

theorem length_lines (spacing : Spacing) (st : Statement) : (st.lines spacing).length = st.size := by
  cases st with
  | define name body => simp [Statement.lines, Statement.size]
  | _ => rfl

/-- The statements are read one after the other, up to the end of the text. -/
theorem iterate_statements (spacing : Spacing) (ss : List Statement) (n : Int) :
    iterate (fun t => some t.kind != none) (fun _ => round statement) () s
      (tokensOf n (ss.flatMap (·.lines spacing))) = ⟨eventsOf n ss, .done (), []⟩ := by
  induction ss generalizing n with
  | nil => exact iterate_nil ()
  | cons st ss ih =>
    obtain ⟨left, hrun, hleft, hlength⟩ := statement_run (s := s) spacing st n
      (opens_statements spacing ss (n + st.size))
    obtain ⟨t, u, us, ht, _⟩ := exists_tokens_statement spacing st n
    rw [ht, List.cons_append] at hrun
    have hround := round_done hrun (by simp only [List.length_append, List.length_cons]; omega)
    rw [hleft] at hround
    rw [List.flatMap_cons, tokensOf_append, length_lines, ht, List.cons_append,
      iterate_cons rfl hround (by simp only [List.length_append, List.length_cons]; omega), ih,
      Reply.after_mk, eventsOf]

private theorem ofWord_classDiagram : TokenKind.ofWord "classDiagram" = .classDiagram := by decide

/-- The document of a class diagram is read to the end of the text. -/
theorem document_run (spacing : Spacing) (ss : List Statement) :
    document s (tokensOf 1 (headerLine :: ss.flatMap (·.lines spacing))) =
      ⟨eventsOf 2 ss, .done (), []⟩ := by
  obtain ⟨close, hlines, hclose⟩ := Line.exists_tokensOf_cons 1 headerLine
    (ss.flatMap (·.lines spacing))
  obtain ⟨t, k, ht, hword, _⟩ := Line.exists_tokens_cons 1 1
    ⟨false, .word (.spelled "classDiagram")⟩ []
  have hkind : t.kind = .classDiagram := hword.1.trans (Piece.kind_spelled ofWord_classDiagram)
  have hblank : separates t = false := by simp [separates, hkind]
  have htwo : (1 + 1 : Int) = 2 := rfl
  rw [hlines, headerLine, ht]
  simp only [document, header, Line.tokens, List.cons_append, List.nil_append, bind_run,
    skipBlankLines_run, List.dropWhile_cons, hblank, Bool.false_eq_true, if_false,
    Reply.follow_done, accept_cons hkind, if_true, pure_run, Reply.after_nil, block_run,
    dropWhile_close hclose, (opens_statements spacing ss _).dropWhile, htwo, iterate_statements]

end Grammar

/-- A well-formed class diagram is read as the diagram that it means, without diagnostics. -/
theorem parse_render_statements (spacing : Spacing) (ss : List Statement) :
    parse (render spacing ss) = diagramOf ss ∧ (parse (render spacing ss)).diagnostics = [] := by
  have hparse : parse (render spacing ss) = diagramOf ss := by
    rw [parse, ofStream, ofText_render, Grammar.document_run, ofReply_of_done rfl]
    exact applyAll_eventsOf 2 empty ss
  exact ⟨hparse, (congrArg (·.diagnostics) hparse).trans (addAll_diagnostics 2 empty ss)⟩

/-- A class with a body, and a relation with cardinalities and a label. -/
def sampleStatements : List Statement :=
  let name (s : String) (h : s.toList ≠ [] ∧ s.toList.all Text.isWord)
      (hf : TokenKind.ofWord (Word.spelled s h).text = .identifier) : Name := ⟨.spelled s h, hf⟩
  let shape := name "Shape" (by decide) (by decide)
  let side := name "Side" (by decide) (by decide)
  [.define shape [
      ⟨.stereotype [.spelled "abstract"], rfl⟩,
      ⟨.member ⟨some .minus, some ⟨.spelled "int", true⟩, .spelled "sizes", .plain⟩, rfl⟩,
      ⟨.member ⟨some .plus, none, .spelled "scale",
        .method [.word (.spelled "x"), .comma, .word (.spelled "y")] [.spelled "bool"]⟩, rfl⟩],
    .describe side (.member ⟨none, none, .spelled "length", .typed (.spelled "float") []⟩),
    .relate ⟨side, some ⟨"3".toList, by simp⟩, ⟨"--|>".toList, .inheritance,
      Lexicon.dashes ++ "|>", by simp [Lexicon.links], _, _, ⟨0, rfl⟩, rfl, rfl⟩, none, shape,
      some [.spelled "of"]⟩]

example : render {} sampleStatements =
    "classDiagram\nclass Shape \x7b\n<<abstract>>\n-int[] sizes\n+scale(x, y) bool\n\x7d\n" ++
      "Side : length : float\nSide \"3\" --|> Shape : of\n" := by
  decide +kernel

end Mermaid.ClassDiagram
