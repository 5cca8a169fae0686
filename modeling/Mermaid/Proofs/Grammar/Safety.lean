import Mermaid.Proofs.Grammar.Progress

/-! What it is for a stream to be parsed safely, and why a grammar of statements does so. -/
namespace Mermaid

namespace Stream
variable {s : Stream} {ts us : List Token}

theorem index_lt_length (s : Stream) (ts : List Token) : s.index ts < s.toList.length := by
  rw [index, toList, List.length_append, List.length_singleton]
  omega

/-- The cursor is on the first of the remaining tokens. -/
theorem drop_index (h : ts <:+ s.tokens) : s.toList.drop (s.index ts) = ts ++ [s.endToken] := by
  obtain ⟨taken, htaken⟩ := h
  have hindex : s.index ts = taken.length := by
    rw [index, ← htaken, List.length_append]
    omega
  rw [hindex, toList, ← htaken, List.append_assoc, List.drop_left]

theorem index_le_index (h : us <:+ ts) : s.index ts ≤ s.index us := by
  have hlength := h.length_le
  rw [index, index]
  omega

theorem index_lt_index {t : Token} (hts : t :: ts <:+ s.tokens) (h : us <:+ ts) :
    s.index (t :: ts) < s.index us := by
  have hlength := h.length_le
  have htokens := hts.length_le
  rw [List.length_cons] at htokens
  rw [index, index, List.length_cons]
  omega

/-- The cursor stays only where no token is taken. -/
theorem eq_of_index_eq (hts : ts <:+ s.tokens) (h : us <:+ ts) (hindex : s.index us = s.index ts) : us = ts := by
  cases ts with
  | nil => exact List.suffix_nil.mp h
  | cons t ts =>
    rcases List.suffix_cons_iff.mp h with heq | h
    · exact heq
    · exact absurd hindex (Nat.ne_of_gt (index_lt_index hts h))

end Stream

namespace Rule
variable {ε : Type} [Recovers ε] {deep : Prop}

/-- The moves of the cursor that grammars have in common. -/
inductive Move : (α : Type) → Rule ε α → Prop
  | advance : Move Token advance
  | accept (kind : TokenKind) : Move Bool (accept kind)
  | expect (kind : TokenKind) (m : Expectation) : Move Token (expect kind m)
  | skipBlankLines : Move Unit skipBlankLines
  | skipLine : Move (List Token) skipLine
  | synchronize : Move Unit synchronize
  | progressPast (before : Nat) : Move Unit (progressPast before)

theorem Move.steady {α : Type} {r : Rule ε α} (h : Move α r) : Steady deep r := by
  cases h with
  | advance => exact .advance
  | accept kind => exact .accept kind
  | expect kind m => exact .expect kind m
  | skipBlankLines => exact .skipBlankLines
  | skipLine => exact .skipLine
  | synchronize => exact .synchronize
  | progressPast before => exact .progressPast before

/-- A stream is parsed safely by a document, whose operations and statements are these. -/
structure ParsesSafely (Operation : (α : Type) → Rule ε α → Prop) (Statement : Rule ε Unit → Prop)
    (document : Rule ε Unit) (s : Stream) : Prop where
  /-- The last token, and no other, stands for the end of the text. -/
  last : s.toList.getLast? = some s.endToken ∧ s.endToken.kind = .eof ∧
    ∀ t ∈ s.tokens, t.kind ≠ .eof
  /-- The cursor is always on a token, the first of those that remain. -/
  cursor : ∀ ts, Reached Operation s ts →
    s.index ts < s.toList.length ∧ s.toList.drop (s.index ts) = ts ++ [s.endToken]
  /-- No operation takes the cursor back. -/
  forward : ∀ ts, Reached Operation s ts → ∀ α r, Operation α r →
    s.index ts ≤ s.index (r s ts).rest
  /-- A block enters a statement at a token that can begin one, and the statement takes it. -/
  entered : ∀ ts, Reached Operation s ts → ∀ statement, Statement statement → ∀ stop us,
    Entered statement stop s ts us → ∃ t vs, us = t :: vs ∧
      t.kind ∉ [TokenKind.eof, .newline, .comment] ∧ some t.kind ≠ stop ∧
        s.index us < s.index (statement s us).rest
  /-- These are all the places that matter to a block. -/
  only : ∀ statement, Statement statement → ∀ statement' stop ts,
    (∀ us, Entered statement stop s ts us → statement' s us = statement s us) →
      block statement' stop s ts = block statement stop s ts
  /-- No fault is left to the caller. -/
  handled : ∀ m, (document s s.tokens).outcome ≠ .failed m
  /-- What is read is read to the end. -/
  finished : (document s s.tokens).outcome = .done () →
    s.index (document s s.tokens).rest + 1 = s.toList.length

/-- A document of a header and a block of statements parses safely. -/
theorem ParsesSafely.of_block {Operation : (α : Type) → Rule ε α → Prop}
    {Statement : Rule ε Unit → Prop} {header statement : Rule ε Unit} {s : Stream}
    (hoperation : ∀ α r, Operation α r → Steady deep r)
    (hstatement : ∀ r, Statement r → Takes deep r) (hown : Statement statement)
    (hheader : Sure header)
    (heof : ∀ t ∈ s.tokens, t.kind ≠ .eof) :
    ParsesSafely Operation Statement (do header; block statement none) s where
  last := ⟨by simp [Stream.toList], rfl, heof⟩
  cursor ts h := ⟨s.index_lt_length ts, Stream.drop_index (h.suffix hoperation)⟩
  forward ts _ α r hr := Stream.index_le_index ((hoperation α r hr).rest s ts)
  entered ts h r hr stop us hus := by
    obtain ⟨hsuffix, t, vs, rfl, hblank, hstop⟩ := hus.exists_cons (hstatement r hr)
    have htokens := hsuffix.trans (h.suffix hoperation)
    have hkind := heof t (htokens.subset List.mem_cons_self)
    simp only [separates, Bool.or_eq_false_iff, beq_eq_false_iff_ne] at hblank
    exact ⟨t, vs, rfl, by simp [hkind, hblank.1, hblank.2], hstop,
      Stream.index_lt_index htokens ((hstatement r hr).taken s t vs)⟩
  only _ _ _ _ _ h := block_congr h
  handled m := by
    obtain ⟨_, ho⟩ := hheader s s.tokens
    rw [bind_run, Reply.follow]
    simp only [ho]
    exact block_outcome m
  finished hd := by
    obtain ⟨_, ho⟩ := hheader s s.tokens
    rw [bind_run, Reply.follow] at hd ⊢
    simp only [ho] at hd ⊢
    have hrest := block_rest (hstatement _ hown) hd
    cases hr : (block statement none s (header s s.tokens).rest).rest with
    | nil =>
      have hafter : ((block statement none s (header s s.tokens).rest).after
          (header s s.tokens).events).rest = [] := hr
      simp [hafter, Stream.index, Stream.toList]
    | cons t ts =>
      rw [hr] at hrest
      cases hrest t rfl

end Rule
end Mermaid
