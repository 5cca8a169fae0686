import Mermaid.Proofs.Token.Tiling

/-! The parentheses of a text, counted by its tokens: a token of each kind but comments and strings
opens as many of them, less those that it closes, wherever it stands. -/
namespace Mermaid
open Lexicon Text

/-- How many parentheses a text opens, less those that it closes. -/
def rounds (l : List Char) : Int := l.count '(' - l.count ')'

theorem rounds_append (l l' : List Char) : rounds (l ++ l') = rounds l + rounds l' := by
  simp only [rounds, List.count_append]
  omega

theorem rounds_eq_zero {l : List Char} (h : ∀ c ∈ l, c ≠ '(' ∧ c ≠ ')') : rounds l = 0 := by
  have hopen : '(' ∉ l := fun hc => (h _ hc).1 rfl
  have hclose : ')' ∉ l := fun hc => (h _ hc).2 rfl
  rw [rounds, List.count_eq_zero.mpr hopen, List.count_eq_zero.mpr hclose]
  rfl

/-- How many parentheses a token of this kind opens, less those that it closes. -/
def TokenKind.rounds : TokenKind → Int
  | .openRound | .openRoundSquare | .openSquareRound => 1
  | .openDoubleRound => 2
  | .openTripleRound => 3
  | .closeRound | .closeSquareRound | .closeRoundSquare | .solidOpen | .dottedOpen => -1
  | .closeDoubleRound => -2
  | .closeTripleRound => -3
  | _ => 0

namespace Pattern

/-- The parentheses of a match, where all matches have the same. -/
def rounds? : Pattern → Option Int
  | text chars => some (Mermaid.rounds chars)
  | run c _ => if c = '(' ∨ c = ')' then none else some 0
  | ahead _ | notAhead _ => some 0
  | seq p q => p.rounds?.bind fun m => q.rounds?.map (m + ·)
  | either p q => if p.rounds? = q.rounds? then p.rounds? else none

theorem rounds_take {p : Pattern} {k : Int} (hp : p.rounds? = some k) {s : List Char} {n : Nat}
    (h : p.length? s = some n) : Mermaid.rounds (s.take n) = k := by
  induction p generalizing k s n with
  | text chars =>
    simp only [length?, Option.ite_none_right_eq_some, Option.some.injEq] at h
    obtain ⟨hstart, rfl⟩ := h
    rw [← List.prefix_iff_eq_take.mp (List.isPrefixOf_iff_prefix.mp hstart)]
    exact Option.some.inj hp
  | run c least =>
    simp only [rounds?, Option.ite_none_left_eq_some, Option.some.injEq, not_or] at hp
    obtain ⟨hc, rfl⟩ := hp
    simp only [length?, Option.ite_none_right_eq_some, Option.some.injEq] at h
    obtain ⟨-, rfl⟩ := h
    rw [← List.prefix_iff_eq_take.mp (List.takeWhile_prefix _)]
    refine rounds_eq_zero fun d hd => ?_
    have hd : (d == c) = true := List.mem_takeWhile_imp (p := (· == c)) hd
    exact beq_iff_eq.mp hd ▸ hc
  | ahead inClass =>
    simp only [length?, Option.ite_none_right_eq_some, Option.some.injEq] at h
    obtain ⟨-, rfl⟩ := h
    exact Option.some.inj hp
  | notAhead inClass =>
    simp only [length?, Option.ite_none_left_eq_some, Option.some.injEq] at h
    obtain ⟨-, rfl⟩ := h
    exact Option.some.inj hp
  | seq p q ihp ihq =>
    obtain ⟨j, hj, hq⟩ := Option.bind_eq_some_iff.mp hp
    obtain ⟨j', hj', rfl⟩ := Option.map_eq_some_iff.mp hq
    have hseq : (p.length? s).bind (fun n => (q.length? (s.drop n)).map (n + ·)) = some n :=
      (length?_append p q s).symm.trans h
    obtain ⟨m, hm, hq⟩ := Option.bind_eq_some_iff.mp hseq
    obtain ⟨m', hm', rfl⟩ := Option.map_eq_some_iff.mp hq
    rw [List.take_add, rounds_append, ihp hj hm, ihq hj' hm']
  | either p q ihp ihq =>
    simp only [rounds?, Option.ite_none_right_eq_some] at hp
    obtain ⟨heq, hp⟩ := hp
    rw [length?, Option.or_eq_some_iff] at h
    rcases h with h | ⟨-, h⟩
    · exact ihp hp h
    · exact ihq (heq ▸ hp) h

end Pattern

namespace Lexicon

theorem links_rounds : ∀ e ∈ links, e.1.rounds? = some e.2.rounds := by decide

theorem punctuation_rounds : ∀ e ∈ punctuation, (e.1 : Pattern).rounds? = some e.2.rounds := by decide

private theorem words_rounds : ∀ k ∈ TokenKind.identifier :: TokenKind.reserved.map (·.2), k.rounds = 0 := by
  decide

private theorem word_rounds {s : List Char} {n : Nat} (h : word.length? s = some n) :
    Mermaid.rounds (s.take n) = 0 := by
  have hopen : ¬ InWord '(' := by simp [InWord, (by decide : isWord '(' = false)]
  have hclose : ¬ InWord ')' := by simp [InWord, (by decide : isWord ')' = false)]
  refine rounds_eq_zero fun c hc => ⟨?_, ?_⟩
  · rintro rfl
    exact hopen (inWord_of_word h _ hc)
  · rintro rfl
    exact hclose (inWord_of_word h _ hc)

theorem entry_rounds {e : Entry} (he : e ∈ entries) {s : List Char} {n : Nat} (h : e.length? s = some n) :
    let kind := (e.read (s.take n)).1
    kind = .comment ∨ kind = .string ∨ Mermaid.rounds (s.take n) = kind.rounds := by
  simp only [entries, List.mem_append, List.mem_cons, List.mem_map] at he
  rcases he with (rfl | rfl | ⟨e, hp, rfl⟩) | rfl | ⟨e, hx, rfl⟩
  · exact .inl rfl
  · exact .inr (.inl rfl)
  · exact .inr (.inr (Pattern.rounds_take (links_rounds e hp) h))
  · exact .inr (.inr ((word_rounds h).trans (words_rounds _ (Piece.ofWord_mem _)).symm))
  · exact .inr (.inr (Pattern.rounds_take (punctuation_rounds e hx) h))

end Lexicon

namespace Slice

/-- A parenthesis is never left as an unknown character. -/
theorem spelled?_ne_none {c : Char} (hc : c = '(' ∨ c = ')') (s : List Char) : spelled? (c :: s) ≠ none := by
  intro hnone
  have hentry : ∀ x ∈ punctuation, (x.1 : Pattern).length? (c :: s) = none := by
    intro x hx
    have hentry : ofPattern x.2 x.1 ∈ entries :=
      List.mem_append_right _ (List.mem_cons_of_mem _ (List.mem_map_of_mem hx))
    exact Option.map_eq_none_iff.mp (List.findSome?_eq_none_iff.mp hnone _ hentry)
  rcases hc with rfl | rfl
  · exact absurd (hentry ("(", .openRound) (by decide)) (by simp [Pattern.length?])
  · exact absurd (hentry (")", .closeRound) (by decide)) (by simp [Pattern.length?])

/-- The parentheses of a slice are those of its kind, unless it is a comment or a string. -/
theorem rounds_cut {c : Char} {s : List Char}
    (h : ∀ said ∈ (cut c s).token?, said.1 ≠ .comment ∧ said.1 ≠ .string) :
    Mermaid.rounds (cut c s).span = ((cut c s).token?.map (·.1.rounds)).getD 0 := by
  rw [cut] at h ⊢
  split
  · rename_i hc
    have hgaps : ∀ d ∈ c :: s.takeWhile isGap, isGap d = true :=
      List.forall_mem_cons.mpr ⟨hc, fun _ hd => List.mem_takeWhile_imp hd⟩
    refine rounds_eq_zero fun d hd => ⟨?_, ?_⟩
    · rintro rfl
      exact absurd (hgaps _ hd) (by decide)
    · rintro rfl
      exact absurd (hgaps _ hd) (by decide)
  · rename_i hc
    rw [if_neg hc] at h
    split
    · rename_i n hn
      unfold breakLength? at hn
      split at hn <;> cases hn <;> simp_all [Mermaid.rounds, TokenKind.rounds]
    · rename_i hn
      simp only [hn] at h
      cases hs : spelled? (c :: s) with
      | none =>
        refine rounds_eq_zero fun d hd => ?_
        obtain rfl := List.mem_singleton.mp hd
        exact ⟨fun hd => spelled?_ne_none (.inl hd) s hs, fun hd => spelled?_ne_none (.inr hd) s hs⟩
      | some slice =>
        rw [hs] at h
        obtain ⟨e, he, hread⟩ := List.exists_of_findSome?_eq_some hs
        obtain ⟨n, hn, rfl⟩ := Option.map_eq_some_iff.mp hread
        obtain ⟨hcomment, hstring⟩ := h _ rfl
        exact ((entry_rounds he hn).resolve_left hcomment).resolve_left hstring

end Slice
end Mermaid
