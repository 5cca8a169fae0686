import Mermaid.Proofs.Token.Places

/-! A text has the tokens that it has with every line break written as a line feed: to the lexicon a
carriage return ends whatever a line feed ends. -/
namespace Mermaid
open Lexicon Text

namespace Slice

private theorem exists_unifyBreaks_break {b : Char} (hb : isBreak b) (rest : List Char) :
    ∃ more, unifyBreaks (b :: rest) = '\n' :: more := by
  simp only [isBreak, Bool.or_eq_true, beq_iff_eq] at hb
  rcases hb with rfl | rfl
  · by_cases hrest : rest.head? = some '\n'
    · obtain ⟨more, rfl⟩ := List.head?_eq_some_iff.mp hrest
      exact ⟨unifyBreaks more, rfl⟩
    · exact ⟨_, unifyBreaks_return hrest⟩
  · exact ⟨_, unifyBreaks_cons (by decide) rest⟩

/-- The first slice of a text does not depend on how the breaks behind it are written. -/
theorem cut_unifyBreaks {c : Char} (hc : isBreak c = false) (s : List Char) :
    cut c (unifyBreaks s) = cut c s := by
  have hline : Unbroken (s.takeWhile (!isBreak ·)) := fun d hd => by
    simpa using List.mem_takeWhile_imp hd
  have hsplit := List.takeWhile_append_dropWhile (p := (!isBreak ·)) (l := s)
  have hhead := List.head?_dropWhile_not (!isBreak ·) s
  generalize s.takeWhile (!isBreak ·) = l at hline hsplit
  generalize s.dropWhile (!isBreak ·) = rest at hsplit hhead
  obtain rfl := hsplit
  cases rest with
  | nil => rw [List.append_nil, unifyBreaks_eq_self hline.not_mem.1]
  | cons b rest =>
    have hb : isBreak b := by simpa using hhead
    have happart : Apart l (b :: rest) := fun hlast =>
      absurd (List.mem_of_getLast? hlast) hline.not_mem.1
    obtain ⟨more, hmore⟩ := exists_unifyBreaks_break hb rest
    rw [unifyBreaks_append happart, unifyBreaks_eq_self hline.not_mem.1, hmore]
    exact (cut_break hc (by decide) hb more rest).1

/-- The first slice of a text, with the breaks of the text written as line feeds: it says the same,
and leads to the same place. -/
theorem exists_cut_unifyBreaks {c : Char} {s rest : List Char}
    (hspan : (cut c s).span ++ rest = c :: s) (hlined : (cut c s).Lined rest) :
    ∃ slice, ofText (unifyBreaks (c :: s)) = slice :: ofText (unifyBreaks rest) ∧
      slice.token? = (cut c s).token? ∧ ∀ m m' : Mark, m.position = m'.position →
        (m.past slice).position = (m'.past (cut c s)).position := by
  have happart := hlined.apart
  generalize hslice : cut c s = slice at *
  cases hlined with
  | inLine hne h hk =>
    have hc : isBreak c = false := by
      obtain ⟨d, span, hd⟩ := List.exists_cons_of_ne_nil hne
      rw [hd] at hspan h
      obtain ⟨rfl, -⟩ := List.cons.inj hspan
      exact h d List.mem_cons_self
    have hreturn : c ≠ '\r' := by
      rintro rfl
      exact absurd hc (by decide)
    refine ⟨slice, ?_, rfl, fun m m' hm => ?_⟩
    · have hunified : (cut c (unifyBreaks s)).span ++ unifyBreaks rest = c :: unifyBreaks s := by
        rw [cut_unifyBreaks hc, hslice, ← unifyBreaks_cons hreturn, ← hspan,
          unifyBreaks_append happart, unifyBreaks_eq_self h.not_mem.1]
      rw [unifyBreaks_cons hreturn, ofText_cons hunified, cut_unifyBreaks hc, hslice]
    · rw [Mark.position_past_inLine hk, Mark.position_past_inLine hk, hm]
  | @lineBreak span _ h =>
    refine ⟨lineFeed, ?_, rfl, fun m m' hm => ?_⟩
    · have hunified : unifyBreaks span = ['\n'] := by
        simp only [List.mem_cons, List.not_mem_nil, or_false] at h
        rcases h with rfl | rfl | rfl <;> rfl
      rw [← hspan, unifyBreaks_append happart, hunified]
      exact newline_leads _
    · rw [Mark.position_past_newline rfl, Mark.position_past_newline rfl, hm]

end Slice

/-- From one place on, a text has the tokens that it has with its breaks written as line feeds. -/
theorem Mark.tokens_unifyBreaks {m m' : Mark} (hm : m.position = m'.position) (s : List Char) :
    m.tokens (Slice.ofText (unifyBreaks s)) = m'.tokens (Slice.ofText s) ∧
      ((Slice.ofText (unifyBreaks s)).foldl past m).position =
        ((Slice.ofText s).foldl past m').position := by
  induction s using Slice.cut_induction generalizing m m' with
  | nil => exact ⟨rfl, hm⟩
  | tile c s rest hspan htile ih =>
    obtain ⟨slice, hslices, hsaid, hpast⟩ :=
      Slice.exists_cut_unifyBreaks hspan (Slice.lined_cut hspan htile)
    obtain ⟨htokens, hfinish⟩ := ih (hpast m m' hm)
    rw [hslices, Slice.ofText_cons hspan, tokens, tokens, htokens, token?, token?, hsaid, hm]
    exact ⟨rfl, hfinish⟩

theorem Stream.ofText_unifyBreaks (text : String) :
    ofText (String.ofList (unifyBreaks text.toList)) = ofText text := by
  have hstart : Mark.start.position = Mark.start.position := rfl
  obtain ⟨htokens, hfinish⟩ := Mark.tokens_unifyBreaks hstart text.toList
  rw [ofText, ofText, finalMark, finalMark, String.toList_ofList, htokens, hfinish]

end Mermaid
