import Mermaid.Proofs.Token.Places

/-! The tokens of two texts, one below the other: those of the upper text, and those of the lower one
with their lines counted on. -/
namespace Mermaid
open Lexicon Text

/-- The same place in a text that has `n` more lines above. -/
def Position.below (n : Nat) (p : Position) : Position := ⟨p.line + n, p.column⟩

def Token.below (n : Nat) (t : Token) : Token := { t with position := t.position.below n }

namespace Slice

/-- Behind a line feed the cut of a text begins anew. -/
theorem cut_append_line {c : Char} {s l : List Char} (hs : c :: s = l ++ ['\n'])
    (rest : List Char) : cut c (s ++ rest) = cut c s := by
  cases l with
  | nil =>
    obtain ⟨rfl, rfl⟩ := List.cons.inj hs
    rfl
  | cons d l =>
    rw [List.cons_append, List.cons.injEq] at hs
    obtain ⟨rfl, rfl⟩ := hs
    rw [List.append_assoc, List.singleton_append]
    cases hc : isBreak c with
    | false => exact (cut_break hc (by decide) (by decide) rest []).1
    | true =>
      simp only [isBreak, Bool.or_eq_true, beq_iff_eq] at hc
      obtain rfl | rfl := hc
      · -- The break of a carriage return may take one character more, and the line has one.
        by_cases hl : (l ++ ['\n']).head? = some '\n'
        · obtain ⟨more, hmore⟩ := List.head?_eq_some_iff.mp hl
          have hmore' : l ++ '\n' :: rest = '\n' :: (more ++ rest) := by
            rw [List.append_cons, hmore, List.cons_append]
          rw [hmore, hmore']
          rfl
        · have hl' : (l ++ '\n' :: rest).head? ≠ some '\n' := by
            rwa [List.append_cons, List.head?_append_of_ne_nil _ (by simp)]
          rw [cut_return hl, cut_return hl']
      · rfl

/-- What stands behind a line feed has slices of its own. -/
theorem ofText_append_line (l rest : List Char) :
    ofText (l ++ ['\n'] ++ rest) = ofText (l ++ ['\n']) ++ ofText rest := by
  have hjoin : ∀ s : List Char, (s = [] ∨ ∃ l, s = l ++ ['\n']) →
      ofText (s ++ rest) = ofText s ++ ofText rest := by
    intro s hs
    induction s using cut_induction with
    | nil => rfl
    | tile c s left hspan htile ih =>
      obtain hnil | ⟨l, hl⟩ := hs
      · cases hnil
      have hcut := cut_append_line hl rest
      have hleft : left = [] ∨ ∃ l, left = l ++ ['\n'] := by
        obtain rfl | hne := eq_or_ne left []
        · exact .inl rfl
        · have hlast : left.getLast? = some '\n' := by
            rw [← List.getLast?_append_of_ne_nil (cut c s).span hne, hspan, hl]
            exact List.getLast?_concat
          exact .inr (List.getLast?_eq_some_iff.mp hlast)
      have hlonger : (cut c (s ++ rest)).span ++ (left ++ rest) = c :: (s ++ rest) := by
        rw [hcut, ← List.append_assoc, hspan, List.cons_append]
      rw [List.cons_append, ofText_cons hlonger, hcut, ofText_cons hspan, ih hleft, List.cons_append]
  exact hjoin _ (.inr ⟨l, rfl⟩)

end Slice

namespace Mark

/-- Further down in a text, slices have the same tokens further down. -/
theorem tokens_below {n : Nat} {m m' : Mark} (h : m.position = m'.position.below n)
    (slices : List Slice) : m.tokens slices = (m'.tokens slices).map (·.below n) ∧
      (slices.foldl past m).position = (slices.foldl past m').position.below n := by
  induction slices generalizing m m' with
  | nil => exact ⟨rfl, h⟩
  | cons s slices ih =>
    have hpast : (m.past s).position = (m'.past s).position.below n := by
      by_cases hk : ∀ said ∈ s.token?, said.1 ≠ .newline
      · rw [position_past_inLine hk, position_past_inLine hk, h]
        rfl
      · push Not at hk
        obtain ⟨⟨kind, lexeme⟩, hsaid, rfl⟩ := hk
        rw [position_past_newline hsaid, position_past_newline hsaid, h]
        simp only [Position.below, Position.mk.injEq, and_true]
        omega
    have hfirst : (m.token? s).toList = (m'.token? s).toList.map (·.below n) := by
      rw [token?, token?, h]
      cases s.token? <;> rfl
    obtain ⟨htokens, hfinish⟩ := ih hpast
    rw [tokens, tokens, List.map_append, hfirst, htokens]
    exact ⟨rfl, hfinish⟩

end Mark

/-- The tokens of a text behind a line feed are those it has on its own, below the lines before it:
nothing but the number of the line is carried across a line feed. -/
theorem scan_append_line (a b : String) :
    scan (a ++ "\n" ++ b) = (scan (a ++ "\n")).dropLast ++
      (scan b).map (·.below (breakCount (a ++ "\n").toList)) := by
  have hupper : (a ++ "\n").toList = a.toList ++ ['\n'] := String.toList_append
  let upper := Slice.ofText (a.toList ++ ['\n'])
  have hfinish : (upper.foldl Mark.past Mark.start).position = .behind ([] ++ (a.toList ++ ['\n'])) :=
    (Mark.tokens_behind _ (by simp [Apart]) rfl).2
  have hbelow : (upper.foldl Mark.past Mark.start).position =
      Mark.start.position.below (breakCount (a.toList ++ ['\n'])) := by
    rw [hfinish, List.nil_append, Position.behind, List.rtakeWhile_concat_neg _ _ _ (by decide)]
    simp only [Position.below, Mark.start, Mark.position, Mark.column, Position.mk.injEq,
      List.length_nil]
    omega
  obtain ⟨htokens, hend⟩ := Mark.tokens_below hbelow (Slice.ofText b.toList)
  have hslices : Slice.ofText (a ++ "\n" ++ b).toList = upper ++ Slice.ofText b.toList := by
    rw [String.toList_append, hupper, Slice.ofText_append_line]
  have hscan : scan (a ++ "\n") = Mark.start.tokens upper ++ [(Stream.ofText (a ++ "\n")).endToken] := by
    rw [scan, Stream.toList, Stream.ofText, hupper]
  rw [hscan, List.dropLast_concat, scan, Stream.toList, Stream.ofText, Stream.endToken,
    Stream.finalMark, hslices, Mark.tokens_append, List.foldl_append, htokens, hend,
    List.append_assoc, hupper, scan, Stream.toList, List.map_append]
  rfl

end Mermaid
