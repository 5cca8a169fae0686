import Mathlib.Data.List.Chain
import Mermaid.Proofs.Token.Order

/-! How the tokens of a text stand on its lines. A token is on the line of the one before it, unless
that is a line break; and a comment is the last token of its line. -/
namespace Mermaid
open Lexicon

/-- How a token stands before the next one. -/
structure Token.Before (t u : Token) : Prop where
  line : t.kind ≠ .newline → u.position.line = t.position.line
  comment : t.kind = .comment → u.kind = .newline ∨ u.kind = .eof

namespace Slice

private theorem drop_comment {s : List Char} {n : Nat} (h : comment.length? s = some n) :
    (s.drop n).head?.all isBreak := by
  simp only [comment] at h
  split at h
  · rename_i t
    obtain rfl := Option.some.inj h
    have hhead := List.head?_dropWhile_not (!isBreak ·) t
    have hsplit := List.takeWhile_append_dropWhile (p := (!isBreak ·)) (l := t)
    generalize t.takeWhile (!isBreak ·) = remark at hsplit
    generalize t.dropWhile (!isBreak ·) = rest at hsplit hhead
    obtain rfl := hsplit
    rw [← List.drop_drop, List.drop_succ_cons, List.drop_succ_cons, List.drop_zero, List.drop_left]
    cases rest with
    | nil => rfl
    | cons d rest => simpa using hhead
  · cases h

/-- What follows a comment is the end of its line. -/
theorem head?_of_comment {c : Char} {s rest remark : List Char}
    (hspan : (cut c s).span ++ rest = c :: s) (h : (cut c s).token? = some (.comment, remark)) :
    rest.head?.all isBreak := by
  obtain ⟨e, he, n, hn, hcut⟩ := exists_entry h (by simp) (by simp)
  rw [hcut] at h hspan
  have hkind : (e.read ((c :: s).take n)).1 = .comment := congrArg Prod.fst (Option.some.inj h)
  rcases eq_comment_or_read_kind he ((c :: s).take n) with rfl | hpiece
  · have hrest : rest = (c :: s).drop n :=
      List.append_cancel_left (hspan.trans (List.take_append_drop n _).symm)
    exact hrest ▸ drop_comment hn
  · exact absurd hkind (Piece.kinds_ne _ hpiece).2.1

theorem token?_of_isBreak {c : Char} (hc : isBreak c) (s : List Char) :
    (cut c s).token? = some (.newline, ['\n']) := by
  simp only [isBreak, Bool.or_eq_true, beq_iff_eq] at hc
  rcases hc with rfl | rfl
  · cases s with
    | nil => rfl
    | cons d s => by_cases hd : d = '\n' <;> simp [cut, isGap, breakLength?, hd]
  · simp [cut, isGap, breakLength?]

end Slice

namespace Mark

/-- The tokens of a text and the one for its end stand one before the other on their lines, from the
line of the mark on. -/
theorem isChain_tokens (m : Mark) (s : List Char) :
    let slices := Slice.ofText s
    let all := m.tokens slices ++ [⟨.eof, "", (slices.foldl past m).position⟩]
    all.IsChain Token.Before ∧ ∀ t ∈ all.head?, t.position.line = m.line ∧
      (s.head?.all isBreak → t.kind = .newline ∨ t.kind = .eof) := by
  induction s using Slice.cut_induction generalizing m with
  | nil =>
    refine ⟨List.isChain_singleton _, fun t ht => ?_⟩
    obtain rfl := Option.some.inj ht
    exact ⟨rfl, fun _ => .inr rfl⟩
  | tile c s rest hspan htile ih =>
    obtain ⟨hchain, hhead⟩ := ih (m.past (Slice.cut c s))
    simp only [Slice.ofText_cons hspan, tokens, List.foldl_cons, List.append_assoc]
    cases hsaid : (Slice.cut c s).token? with
    | none =>
      have htoken : m.token? (Slice.cut c s) = none := by simp [token?, hsaid]
      have hline : (m.past (Slice.cut c s)).line = m.line := line_past (by simp [hsaid])
      rw [htoken]
      refine ⟨hchain, fun t ht => ⟨(hhead t ht).1.trans hline, fun hc => ?_⟩⟩
      rw [Slice.token?_of_isBreak (by simpa using hc)] at hsaid
      cases hsaid
    | some said =>
      have htoken : m.token? (Slice.cut c s) = some ⟨said.1, String.ofList said.2, m.position⟩ := by
        simp [token?, hsaid]
      rw [htoken]
      refine ⟨List.isChain_cons.mpr ⟨fun u hu => ⟨fun hk => ?_, fun hk => ?_⟩, hchain⟩, fun t ht => ?_⟩
      · have hline : (m.past (Slice.cut c s)).line = m.line :=
          line_past (by simpa [hsaid] using hk)
        exact (hhead u hu).1.trans hline
      · have hkind : said.1 = .comment := hk
        obtain ⟨kind, remark⟩ := said
        obtain rfl : kind = .comment := hkind
        exact (hhead u hu).2 (Slice.head?_of_comment hspan hsaid)
      · obtain rfl := Option.some.inj ht
        refine ⟨rfl, fun hc => ?_⟩
        rw [Slice.token?_of_isBreak (by simpa using hc)] at hsaid
        obtain rfl := Option.some.inj hsaid
        exact .inl rfl

end Mark

namespace Stream

/-- The tokens stand one before the other on their lines, and the end, and nothing like it, behind
them. -/
structure InLines (s : Stream) : Prop where
  chain : s.toList.IsChain Token.Before
  kind_ne_eof : ∀ t ∈ s.tokens, t.kind ≠ .eof

theorem inLines_ofText (text : String) : (ofText text).InLines where
  chain := (Mark.start.isChain_tokens text.toList).1
  kind_ne_eof := Stream.kind_ne_eof text

private theorem line_of_isChain {t : Token} {ts : List Token} (h : (t :: ts).IsChain Token.Before)
    (hline : ∀ u ∈ t :: ts, u.kind ≠ .newline) : ∀ u ∈ t :: ts, u.position.line = t.position.line := by
  induction ts generalizing t with
  | nil => exact List.forall_mem_singleton.mpr rfl
  | cons u ts ih =>
    obtain ⟨hbefore, hchain⟩ := List.isChain_cons_cons.mp h
    obtain ⟨ht, hline⟩ := List.forall_mem_cons.mp hline
    exact List.forall_mem_cons.mpr ⟨rfl, fun v hv => (ih hchain hline v hv).trans (hbefore.line ht)⟩

/-- Tokens between which no line breaks are on one line. -/
theorem InLines.line_eq {s : Stream} (h : s.InLines) {tokens : List Token} (hts : tokens <:+: s.tokens)
    (hline : ∀ t ∈ tokens, t.kind ≠ .newline) :
    ∀ t ∈ tokens, ∀ u ∈ tokens, u.position.line = t.position.line := by
  intro t ht u hu
  cases tokens with
  | nil => cases ht
  | cons first tokens =>
    have hchain : (first :: tokens).IsChain Token.Before :=
      h.chain.infix (hts.trans (List.prefix_append _ _).isInfix)
    exact (line_of_isChain hchain hline u hu).trans (line_of_isChain hchain hline t ht).symm

end Stream
end Mermaid
