import Mermaid.Proofs.Grammar.Running
import Mermaid.Proofs.Token.Adjacent

/-! Streams without their comments. What remains of such a stream is what remains of the stream with
its comments, less these. -/
namespace Mermaid
open Rule

/-- The tokens that are no comments. -/
def Token.uncommented (ts : List Token) : List Token := ts.filter (·.kind != .comment)

open Token

/-- The stream without its comments. -/
def Stream.uncommented (s : Stream) : Stream := { s with tokens := Token.uncommented s.tokens }

namespace Token
variable {t : Token} {ts : List Token}

theorem uncommented_cons_comment (h : t.kind = .comment) (ts : List Token) :
    uncommented (t :: ts) = uncommented ts := by
  simp [uncommented, h]

theorem uncommented_cons (h : t.kind ≠ .comment) (ts : List Token) :
    uncommented (t :: ts) = t :: uncommented ts := by
  simp [uncommented, h]

theorem uncommented_append (ts us : List Token) :
    uncommented (ts ++ us) = uncommented ts ++ uncommented us := List.filter_append ..

theorem uncommented_eq_self (h : ¬ ∃ t ∈ ts, t.kind = .comment) : uncommented ts = ts :=
  List.filter_eq_self.mpr fun t ht => by simpa using fun hc => h ⟨t, ht, hc⟩

/-- What goes on at comments stops at the same token without them. -/
theorem uncommented_takeWhile {p : Token → Bool} (hp : ∀ t, t.kind = .comment → p t) (ts : List Token) :
    uncommented (ts.takeWhile p) = (uncommented ts).takeWhile p ∧
      uncommented (ts.dropWhile p) = (uncommented ts).dropWhile p := by
  induction ts with
  | nil => exact ⟨rfl, rfl⟩
  | cons t ts ih =>
    by_cases ht : t.kind = .comment
    · rw [List.takeWhile_cons_of_pos (hp t ht), List.dropWhile_cons_of_pos (hp t ht),
        uncommented_cons_comment ht, uncommented_cons_comment ht]
      exact ih
    · cases hpt : p t with
      | true => simp [uncommented_cons ht, hpt, ih]
      | false =>
        rw [List.takeWhile_cons_of_neg (by simp [hpt]), List.dropWhile_cons_of_neg (by simp [hpt]),
          uncommented_cons ht, List.takeWhile_cons_of_neg (by simp [hpt]),
          List.dropWhile_cons_of_neg (by simp [hpt])]
        exact ⟨rfl, rfl⟩

theorem uncommented_dropWhile_separates (ts : List Token) :
    uncommented (ts.dropWhile separates) = (uncommented ts).dropWhile separates :=
  (uncommented_takeWhile (fun t ht => by simp [separates, ht]) ts).2

/-- The text of a line is that of its tokens but for the comment. -/
private theorem joinAfter_uncommented (edge : Int) (ts : List Token) :
    joinAfter edge (uncommented ts) = joinAfter edge ts := by
  induction ts generalizing edge with
  | nil => rfl
  | cons t ts ih =>
    by_cases ht : t.kind = .comment
    · simp [uncommented_cons_comment ht, joinAfter, ht, ih]
    · simp [uncommented_cons ht, joinAfter, ht, ih]

theorem joinSource_uncommented (ts : List Token) : joinSource (uncommented ts) = joinSource ts := by
  induction ts with
  | nil => rfl
  | cons t ts ih =>
    by_cases ht : t.kind = .comment
    · simp [uncommented_cons_comment ht, joinSource, ht, ih]
    · simp [uncommented_cons ht, joinSource, ht, joinAfter_uncommented]

/-- The kind of the first token of what is left of a line; at its end, and at a comment, that of its
break. -/
def lineKind : List Token → TokenKind
  | [] => .newline
  | t :: _ => if t.kind = .comment then .newline else t.kind

theorem lineKind_cons_eq_iff {k : TokenKind} (hn : k ≠ .newline) (hc : k ≠ .comment) :
    lineKind (t :: ts) = k ↔ t.kind = k := by
  rw [lineKind]
  split
  · rename_i ht
    exact ⟨fun h => absurd h.symm hn, fun h => absurd (h.symm.trans ht) hc⟩
  · exact Iff.rfl

/-- At the end of a line stands what stands between lines. -/
theorem separates_of_lineKind (h : lineKind (t :: ts) = .newline) : separates t := by
  rw [lineKind] at h
  split at h <;> simp_all [separates]

/-- Inside a line the first token is no comment. -/
theorem exists_cons_of_lineKind {k : TokenKind} (hk : k ≠ .newline) (h : lineKind ts = k) :
    ∃ t us, ts = t :: us ∧ t.kind = k ∧ k ≠ .comment ∧ uncommented ts = t :: uncommented us := by
  cases ts with
  | nil => exact absurd h.symm hk
  | cons t us =>
    rw [lineKind] at h
    split at h
    · exact absurd h.symm hk
    · rename_i ht
      exact ⟨t, us, rfl, h, h ▸ ht, uncommented_cons ht us⟩

end Token

namespace Stream
variable {s : Stream} {t : Token} {ts us : List Token}

theorem previous?_of_append {taken : List Token} (h : taken ++ ts = s.tokens) :
    s.previous? ts = taken.getLast? := by
  have hindex : s.index ts = taken.length := by
    rw [index, ← h, List.length_append, Nat.add_sub_cancel]
  rcases List.eq_nil_or_concat taken with rfl | ⟨init, t, rfl⟩
  · rw [previous?, hindex]
    rfl
  · rw [previous?, hindex, List.concat_eq_append, List.length_append, List.length_singleton]
    simp [← h]

/-- The tokens are what remains of a stream whose tokens stand on lines. -/
structure Remains (s : Stream) (ts : List Token) : Prop where
  inLines : s.InLines
  suffix : ts <:+ s.tokens

namespace Remains

theorem after (h : s.Remains ts) (hus : us <:+ ts) : s.Remains us := ⟨h.inLines, hus.trans h.suffix⟩

theorem tail (h : s.Remains (t :: ts)) : s.Remains ts := h.after (ts.suffix_cons t)

theorem tail_of_eq (h : s.Remains ts) (hts : ts = t :: us) : s.Remains us := (hts ▸ h).tail

theorem before (h : s.Remains (t :: ts)) : t.Before (s.current ts) := by
  obtain ⟨taken, htaken⟩ := h.suffix
  have hchain := h.inLines.chain
  rw [toList, ← htaken, List.append_assoc, List.cons_append] at hchain
  have hnext := (List.isChain_append.mp hchain).2.1
  cases ts with
  | nil => exact (List.isChain_cons_cons.mp hnext).1
  | cons u us => exact (List.isChain_cons_cons.mp hnext).1

/-- What comes behind a comment is a line break or the end. -/
theorem head_of_comment (h : s.Remains (t :: ts)) (ht : t.kind = .comment) :
    ∀ u ∈ ts.head?, u.kind = .newline := by
  intro u hu
  have hmem : u ∈ s.tokens := h.tail.suffix.subset (List.mem_of_mem_head? hu)
  have hnext := h.before.comment ht
  rw [current, List.headD_eq_head?_getD, hu] at hnext
  exact hnext.resolve_right (h.inLines.kind_ne_eof u hmem)

/-- Words of a line with a comment among them go on to the end of the line. -/
theorem head_dropWhile_of_comment {p : Token → Bool} (hp : ∀ t, t.kind = .newline → p t = false)
    (h : s.Remains ts) (hc : ∃ w ∈ ts.takeWhile p, w.kind = .comment) :
    ∀ u ∈ (ts.dropWhile p).head?, u.kind = .newline := by
  induction ts with
  | nil => exact fun u hu => by cases hu
  | cons t ts ih =>
    obtain ⟨w, hw, hwc⟩ := hc
    cases hpt : p t with
    | false => simp [hpt] at hw
    | true =>
      rw [List.takeWhile_cons_of_pos hpt] at hw
      rw [List.dropWhile_cons_of_pos hpt]
      rcases List.mem_cons.mp hw with rfl | hw
      · have hnext := h.head_of_comment hwc
        cases ts with
        | nil => exact fun u hu => by cases hu
        | cons v ts =>
          have hv : v.kind = .newline := hnext v rfl
          rw [List.dropWhile_cons_of_neg (by simp [hp v hv])]
          exact hnext
      · exact ih h.tail ⟨w, hw, hwc⟩

/-- At the end of a line the break comes next, or nothing, if it were not for a comment. -/
theorem head_uncommented (h : s.Remains ts) (hk : lineKind ts = .newline) :
    ∀ u ∈ (Token.uncommented ts).head?, u.kind = .newline := by
  cases ts with
  | nil => exact fun u hu => by cases hu
  | cons t ts =>
    by_cases ht : t.kind = .comment
    · have hnext := h.head_of_comment ht
      rw [uncommented_cons_comment ht]
      cases ts with
      | nil => exact fun u hu => by cases hu
      | cons v ts =>
        have hv : v.kind = .newline := hnext v rfl
        rw [uncommented_cons (by simp [hv])]
        exact fun u hu => Option.some.inj hu ▸ hv
    · rw [lineKind, if_neg ht] at hk
      rw [uncommented_cons ht]
      exact fun u hu => Option.some.inj hu ▸ hk

theorem lineKind_uncommented (h : s.Remains ts) : lineKind (Token.uncommented ts) = lineKind ts := by
  by_cases hk : lineKind ts = .newline
  · have hhead := h.head_uncommented hk
    cases hless : Token.uncommented ts with
    | nil => exact hk.symm
    | cons u us =>
      rw [hless] at hhead
      rw [lineKind, hhead u rfl, hk, if_neg (by simp)]
  · obtain ⟨t, us, rfl, ht, hc, hless⟩ := exists_cons_of_lineKind hk rfl
    rw [hless, lineKind, if_neg (ht ▸ hc), ht]

/-- The next token is on the same line with the comments and without them. -/
theorem current_uncommented (h : s.Remains ts) :
    (s.uncommented.current (Token.uncommented ts)).position.line = (s.current ts).position.line := by
  cases ts with
  | nil => rfl
  | cons t ts =>
    by_cases ht : t.kind = .comment
    · have hline := h.before.line (by simp [ht])
      have hnext := h.head_of_comment ht
      rw [uncommented_cons_comment ht]
      cases ts with
      | nil => exact hline
      | cons v ts =>
        have hv : v.kind = .newline := hnext v rfl
        rw [uncommented_cons (by simp [hv])]
        exact hline
    · rw [uncommented_cons ht]
      rfl

/-- The token before what remains, unless that is a comment. -/
theorem previous?_uncommented (h : s.Remains ts) :
    s.uncommented.previous? (Token.uncommented ts) = s.previous? ts ∨
      ∃ t, s.previous? ts = some t ∧ t.kind = .comment ∧ s.Remains (t :: ts) := by
  obtain ⟨taken, htaken⟩ := h.suffix
  have hless : Token.uncommented taken ++ Token.uncommented ts = s.uncommented.tokens := by
    rw [← uncommented_append, htaken]
    rfl
  rw [previous?_of_append htaken, previous?_of_append hless]
  rcases List.eq_nil_or_concat taken with rfl | ⟨init, t, rfl⟩
  · exact .inl rfl
  · by_cases ht : t.kind = .comment
    · refine .inr ⟨t, by simp, ht, h.inLines, init, ?_⟩
      rw [← htaken]
      simp
    · refine .inl ?_
      rw [List.concat_eq_append, uncommented_append, uncommented_cons ht]
      simp [Token.uncommented]

end Remains
end Stream
end Mermaid
