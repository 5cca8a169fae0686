import Mermaid.Proofs.Token.PieceLeading
import Mermaid.Proofs.Token.Tiling

/-! The word at the head of a text. What the lexicon takes for a word is one, and no longer word begins
the text. -/
namespace Mermaid
open Lexicon Text

theorem Letters.exists_append {s : List Char} (h : s.head?.any isWord) :
    ∃ (l : Letters) (rest : List Char), s = l.chars ++ rest ∧ rest.head?.all (!isWord ·) := by
  obtain ⟨c, t, rfl⟩ : ∃ c t, s = c :: t := List.exists_cons_of_ne_nil (by rintro rfl; cases h)
  have hc : isWord c = true := by simpa using h
  refine ⟨⟨(c :: t).takeWhile isWord, by simp [hc], fun d hd => List.mem_takeWhile_imp hd⟩,
    (c :: t).dropWhile isWord, List.takeWhile_append_dropWhile.symm, ?_⟩
  have hhead := List.head?_dropWhile_not isWord (c :: t)
  cases hrest : ((c :: t).dropWhile isWord).head? <;> simp_all

namespace Word

/-- A text that begins with a word character begins with letters joined by hyphens, behind which no
more can be joined. -/
private theorem exists_stem {s : List Char} (h : s.head?.any isWord) :
    ∃ (first : Letters) (more : List Letters) (rest : List Char),
      s = first.chars ++ (more.flatMap hyphened ++ rest) ∧ wordLength rest = 0 := by
  induction hn : s.length using Nat.strongRecOn generalizing s with
  | ind n ih =>
    obtain ⟨first, rest, rfl, hrest⟩ := Letters.exists_append h
    cases rest with
    | nil => exact ⟨first, [], [], rfl, rfl⟩
    | cons d t =>
      have hd : isWord d = false := by simpa using hrest
      by_cases hmore : d = '-' ∧ t.head?.any isWord
      · obtain ⟨rfl, ht⟩ := hmore
        rw [List.length_append, List.length_cons] at hn
        obtain ⟨next, more, rest, rfl, hlength⟩ := ih t.length (by omega) ht rfl
        exact ⟨first, next :: more, rest, by simp [hyphened], hlength⟩
      · refine ⟨first, [], d :: t, rfl, ?_⟩
        simpa [wordLength, hd] using hmore

/-- What the lexicon takes for a type argument is one. -/
private theorem exists_argument (s : List Char) : ∃ (a : Option Letters) (rest : List Char),
    s = argumentChars a ++ rest ∧ argumentLength s = (argumentChars a).length := by
  rw [argumentLength.eq_def]
  split
  · rename_i t
    simp only
    split
    · rename_i h
      rw [Bool.and_eq_true, beq_iff_eq, decide_eq_true_eq] at h
      obtain ⟨hpos, hclose⟩ := h
      obtain ⟨hlt, hget⟩ := List.getElem?_eq_some_iff.mp hclose
      have hsplit : t = t.takeWhile isWord ++ '~' :: t.drop ((t.takeWhile isWord).length + 1) := by
        have htake := List.prefix_iff_eq_take.mp (List.takeWhile_prefix (l := t) isWord)
        rw [← hget, ← List.drop_eq_getElem_cons hlt]
        nth_rewrite 1 [htake]
        exact (List.take_append_drop _ t).symm
      refine ⟨some ⟨t.takeWhile isWord, List.ne_nil_of_length_pos hpos, fun d hd => List.mem_takeWhile_imp hd⟩,
        t.drop ((t.takeWhile isWord).length + 1), ?_, by simp [argumentChars]⟩
      simpa [argumentChars] using hsplit
    · exact ⟨none, _, rfl, rfl⟩
  · exact ⟨none, s, rfl, rfl⟩

/-- Begins the text, and no longer word does. -/
def Longest (w : Word) (s : List Char) : Prop :=
  w.chars <+: s ∧ ∀ v : Word, v.chars <+: s → v.chars.length ≤ w.chars.length

/-- The lexicon takes no less than any word that the text begins with. -/
private theorem exists_length {v : Word} {s : List Char} (h : v.chars <+: s) :
    ∃ n, Lexicon.word.length? s = some n ∧ v.chars.length ≤ n := by
  obtain ⟨rest, rfl⟩ := h
  rw [chars, List.append_assoc, List.append_assoc]
  refine ⟨_, length?_stem _ _ _, ?_⟩
  rw [← List.append_assoc, List.length_append]
  refine Nat.add_le_add_left ?_ _
  cases v.argument with
  | none => exact Nat.zero_le _
  | some l =>
    have hnone : wordLength (argumentChars (some l) ++ rest) = 0 :=
      wordLength_none (by simp [argumentChars, isWord_tilde])
    have hsome : some l = none → rest.head? ≠ some '~' := fun h => absurd h (Option.some_ne_none l)
    rw [hnone, Nat.zero_add, List.drop_zero, argumentLength_argumentChars (some l) hsome]

private theorem exists_longest {s : List Char} {n : Nat} (h : Lexicon.word.length? s = some n) :
    ∃ w : Word, w.Longest s ∧ w.chars.length = n := by
  have hhead : s.head?.any isWord := by
    rw [Lexicon.word] at h
    exact (Option.ite_none_right_eq_some.mp h).1
  obtain ⟨first, more, rest, rfl, hnone⟩ := exists_stem hhead
  obtain ⟨argument, rest, rfl, hargument⟩ := exists_argument rest
  let w : Word := ⟨first, more, argument⟩
  have hn : w.chars.length = n := by
    rw [length?_stem, hnone, Nat.zero_add, List.drop_zero, hargument] at h
    rw [← Option.some.inj h]
    simp [w, chars, Nat.add_assoc]
  refine ⟨w, ⟨⟨rest, by simp [w, chars]⟩, fun v hv => ?_⟩, hn⟩
  obtain ⟨m, hm, hle⟩ := exists_length hv
  rwa [hn, Option.some.inj (h.symm.trans hm)]

/-- What the lexicon takes for a word is the longest one that the text begins with. -/
theorem length?_eq_some_iff {s : List Char} {n : Nat} :
    Lexicon.word.length? s = some n ↔ ∃ w : Word, w.Longest s ∧ w.chars.length = n := by
  refine ⟨exists_longest, ?_⟩
  rintro ⟨w, hw, rfl⟩
  obtain ⟨m, hm, hle⟩ := exists_length hw.1
  obtain ⟨v, hv, rfl⟩ := exists_longest hm
  rw [hm, Nat.le_antisymm hle (hw.2 v hv.1)]

end Word
end Mermaid
