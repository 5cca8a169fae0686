import Mermaid.Proofs.Token.Line

/-! The kinds of the tokens of a text. None of them stands for the end of a text. -/
namespace Mermaid
open Lexicon

namespace Lexicon

/-- What an entry reads is of a kind that a piece can have, unless it is a comment. -/
theorem eq_comment_or_read_kind {e : Entry} (he : e ∈ entries) (span : List Char) :
    e = comment ∨ (e.read span).1 ∈ Piece.kinds := by
  simp only [entries, List.mem_append, List.mem_cons, List.mem_map] at he
  rcases he with (rfl | rfl | ⟨⟨p, k⟩, hp, rfl⟩) | rfl | ⟨⟨x, k⟩, hx, rfl⟩
  · exact .inl rfl
  · exact .inr (by simp [string, Piece.kinds])
  · have hk := List.mem_map_of_mem (f := (·.2)) hp
    refine .inr ?_
    simp only [ofPattern, Piece.kinds, List.mem_cons, List.mem_append, hk, or_true]
  · refine .inr ?_
    rcases List.mem_cons.mp (Piece.ofWord_mem (String.ofList span)) with h | h
    · simp [word, Piece.kinds, h]
    · simp only [word, Piece.kinds, List.mem_cons, List.mem_append, h, true_or, or_true]
  · have hk := List.mem_map_of_mem (f := (·.2)) hx
    refine .inr ?_
    simp only [ofPattern, Piece.kinds, List.mem_cons, List.mem_append, hk, true_or, or_true]

/-- What an entry reads is a comment, or of a kind that a piece can have. -/
theorem read_kind {e : Entry} (he : e ∈ entries) (span : List Char) :
    (e.read span).1 ∈ TokenKind.comment :: Piece.kinds := by
  rcases eq_comment_or_read_kind he span with rfl | hk
  · exact List.mem_cons_self
  · exact List.mem_cons_of_mem _ hk

end Lexicon

namespace Slice

/-- A slice that is neither white space, nor a line break, nor a character on its own is what an entry
takes. -/
theorem exists_entry {c : Char} {s : List Char} {said : TokenKind × List Char}
    (h : (cut c s).token? = some said) (hnewline : said.1 ≠ .newline) (hunknown : said.1 ≠ .unknown) :
    ∃ e ∈ entries, ∃ n, e.length? (c :: s) = some n ∧
      cut c s = ⟨(c :: s).take n, some (e.read ((c :: s).take n))⟩ := by
  rw [cut] at h ⊢
  split at h
  · cases h
  · rename_i hgap
    rw [if_neg hgap]
    split at h
    · cases h
      exact absurd rfl hnewline
    · cases hs : spelled? (c :: s) with
      | none =>
        rw [hs] at h
        cases h
        exact absurd rfl hunknown
      | some slice =>
        obtain ⟨e, he, hread⟩ := List.exists_of_findSome?_eq_some hs
        obtain ⟨n, hn, rfl⟩ := Option.map_eq_some_iff.mp hread
        exact ⟨e, he, n, hn, rfl⟩

theorem kind_ne_eof {c : Char} {s : List Char} {t : TokenKind × List Char}
    (h : (cut c s).token? = some t) : t.1 ≠ .eof := by
  intro hk
  obtain ⟨e, he, n, -, hcut⟩ := exists_entry h (by simp [hk]) (by simp [hk])
  rw [hcut] at h
  cases h
  rcases List.mem_cons.mp (read_kind he ((c :: s).take n)) with hcomment | hpiece
  · simp [hk] at hcomment
  · exact (Piece.kinds_ne _ hpiece).2.2 hk

theorem exists_cut_of_mem {skip : Nat} {s : List Char} {slice : Slice}
    (h : slice ∈ ofTextAfter skip s) : ∃ c t, slice = cut c t := by
  induction s generalizing skip with
  | nil => cases skip <;> cases h
  | cons c s ih =>
    cases skip with
    | succ skip => exact ih h
    | zero =>
      rcases List.mem_cons.mp h with rfl | h
      · exact ⟨c, s, rfl⟩
      · exact ih h

end Slice

theorem Mark.exists_token?_of_mem {m : Mark} {slices : List Slice} {t : Token}
    (h : t ∈ m.tokens slices) : ∃ n : Mark, ∃ s ∈ slices, n.token? s = some t := by
  induction slices generalizing m with
  | nil => cases h
  | cons s slices ih =>
    rcases List.mem_append.mp h with h | h
    · exact ⟨m, s, List.mem_cons_self, Option.mem_toList.mp h⟩
    · obtain ⟨n, s', hs, ht⟩ := ih h
      exact ⟨n, s', List.mem_cons_of_mem s hs, ht⟩

/-- No token of a text is of the kind that stands for its end. -/
theorem Stream.kind_ne_eof (text : String) : ∀ t ∈ (ofText text).tokens, t.kind ≠ .eof := by
  intro t ht
  obtain ⟨m, s, hs, hm⟩ := Mark.exists_token?_of_mem ht
  obtain ⟨c, rest, rfl⟩ := Slice.exists_cut_of_mem hs
  obtain ⟨⟨kind, lexeme⟩, htoken, rfl⟩ := Option.map_eq_some_iff.mp hm
  exact Slice.kind_ne_eof htoken

end Mermaid
