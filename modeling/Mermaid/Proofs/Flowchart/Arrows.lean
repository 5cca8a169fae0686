import Mathlib.Data.List.TakeWhile
import Mermaid.Flowchart.Delimiter
import Mermaid.Proofs.Token.Kinds

/-! The spellings of arrows. Whatever arrow a text has, its lexeme is as long as the shortest form, and
so the length of the edge is one more than the characters that it has beyond that. -/
namespace Mermaid

namespace Pattern

/-- How often a character stands in what the pattern takes, at least. -/
def leastOf (c : Char) : Pattern → Nat
  | text chars => chars.count c
  | run d n => if d = c then n else 0
  | ahead _ | notAhead _ => 0
  | seq p q => p.leastOf c + q.leastOf c
  | either p q => min (p.leastOf c) (q.leastOf c)

theorem leastOf_le_count (c : Char) {p : Pattern} {s : List Char} {n : Nat} (h : p.length? s = some n) :
    p.leastOf c ≤ (s.take n).count c := by
  induction p generalizing s n with
  | text chars =>
    rw [length?] at h
    split at h
    · rename_i hprefix
      obtain rfl := Option.some.inj h
      rw [leastOf, ← List.prefix_iff_eq_take.mp (List.isPrefixOf_iff_prefix.mp hprefix)]
    · cases h
  | run d shortest =>
    rw [length?] at h
    split at h
    · rename_i hshortest
      obtain rfl := Option.some.inj h
      rw [leastOf, ← List.prefix_iff_eq_take.mp (List.takeWhile_prefix (· == d))]
      split
      · rename_i hd
        have hcount : (s.takeWhile (· == d)).count c = (s.takeWhile (· == d)).length :=
          List.count_eq_length.mpr fun x hx => by
            have hx : (x == d) = true := List.mem_takeWhile_imp (p := (· == d)) hx
            rw [← hd, eq_of_beq hx]
        rw [hcount]
        exact hshortest
      · exact Nat.zero_le _
    · cases h
  | ahead | notAhead => exact Nat.zero_le _
  | seq p q ihp ihq =>
    rw [length?] at h
    obtain ⟨m, hm, h⟩ := Option.bind_eq_some_iff.mp h
    obtain ⟨l, hl, h⟩ := Option.bind_eq_some_iff.mp h
    obtain rfl := Option.some.inj h
    rw [leastOf, List.take_add, List.count_append]
    exact Nat.add_le_add (ihp hm) (ihq hl)
  | either p q ihp ihq =>
    rw [length?, Option.or_eq_some_iff] at h
    rcases h with h | ⟨-, h⟩
    · exact (Nat.min_le_left _ _).trans (ihp h)
    · exact (Nat.min_le_right _ _).trans (ihq h)

end Pattern

namespace Flowchart
open Lexicon

/-- Has no fewer of the characters that make an arrow longer than the shortest form has. -/
def ReachesLeast (kind : TokenKind) (lexeme : List Char) : Prop :=
  ∀ a ∈ arrow? kind, a.least ≤ lexeme.count a.char

theorem reachesLeast_read {e : Entry} (he : e ∈ entries) {s : List Char} {n : Nat}
    (hn : e.length? s = some n) : ReachesLeast (e.read (s.take n)).1 (e.read (s.take n)).2 := by
  have hlinks : ∀ e ∈ links, ∀ a ∈ arrow? e.2, a.least ≤ e.1.leastOf a.char := by decide
  have hwords : ∀ k ∈ TokenKind.identifier :: TokenKind.reserved.map (·.2), arrow? k = none := by decide
  have hmarks : ∀ x ∈ punctuation, arrow? x.2 = none := by decide
  simp only [entries, List.mem_append, List.mem_cons, List.mem_map] at he
  rcases he with (rfl | rfl | ⟨⟨p, k⟩, hp, rfl⟩) | rfl | ⟨⟨x, k⟩, hx, rfl⟩
  · exact fun a ha => by cases ha
  · exact fun a ha => by cases ha
  · exact fun a ha => (hlinks (p, k) hp a ha).trans (Pattern.leastOf_le_count a.char hn)
  · intro a ha
    rw [word, hwords _ (Piece.ofWord_mem _)] at ha
    cases ha
  · intro a ha
    rw [ofPattern, hmarks _ hx] at ha
    cases ha

/-- The arrows of a text are no shorter than the shortest form. -/
theorem reachesLeast_ofText (text : String) :
    ∀ t ∈ (Stream.ofText text).tokens, ReachesLeast t.kind t.lexeme.toList := by
  intro t ht
  obtain ⟨m, slice, hslice, hm⟩ := Mark.exists_token?_of_mem ht
  obtain ⟨c, rest, rfl⟩ := Slice.exists_cut_of_mem hslice
  obtain ⟨⟨kind, lexeme⟩, hsaid, rfl⟩ := Option.map_eq_some_iff.mp hm
  rw [String.toList_ofList]
  by_cases harrow : arrow? kind = none
  · intro a ha
    rw [harrow] at ha
    cases ha
  · obtain ⟨e, he, n, hn, hcut⟩ := Slice.exists_entry hsaid
      (fun hk => harrow (by rw [show kind = .newline from hk]; rfl))
      (fun hk => harrow (by rw [show kind = .unknown from hk]; rfl))
    rw [hcut] at hsaid
    have hreaches := reachesLeast_read he hn
    rw [Option.some.inj hsaid] at hreaches
    exact hreaches

end Flowchart
end Mermaid
