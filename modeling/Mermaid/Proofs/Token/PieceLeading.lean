import Mathlib.Data.List.Find
import Mermaid.Proofs.Token.Piece

/-! Every piece leads a text that goes on with a character it stops at. -/
namespace Mermaid
open Lexicon Text

theorem wordLength_append {l : List Char} (hl : ∀ c ∈ l, isWord c) (rest : List Char) :
    wordLength (l ++ rest) = l.length + wordLength rest := by
  induction l with
  | nil => simp
  | cons c l ih =>
    have hc : isWord c = true := hl c (by simp)
    have ht := ih fun d hd => hl d (List.mem_cons_of_mem c hd)
    simp only [List.cons_append, wordLength, hc, Bool.true_or, if_true, ht, List.length_cons]
    omega

theorem wordLength_none {s : List Char} (h : ∀ c ∈ s.head?, isWord c = false ∧ c ≠ '-') :
    wordLength s = 0 := by
  cases s with
  | nil => rfl
  | cons c s =>
    obtain ⟨hw, hh⟩ := h c rfl
    simp [wordLength, hw, hh]

namespace Letters

theorem exists_cons (l : Letters) : ∃ c s, l.chars = c :: s ∧ isWord c := by
  obtain ⟨c, s, hl⟩ := List.exists_cons_of_ne_nil l.ne_nil
  exact ⟨c, s, hl, l.all c (by simp [hl])⟩

theorem takeWhile_append (l : Letters) {s : List Char} (h : ∀ c ∈ s.head?, isWord c = false) :
    (l.chars ++ s).takeWhile isWord = l.chars := by
  rw [List.takeWhile_append_of_pos l.all]
  cases s with
  | nil => simp
  | cons c s => simp [h c rfl]

end Letters

namespace Word

private theorem wordLength_hyphened (l : Letters) (rest : List Char) :
    wordLength (hyphened l ++ rest) = (hyphened l).length + wordLength rest := by
  obtain ⟨c, s, hl, hc⟩ := l.exists_cons
  have hh : (l.chars ++ rest).head?.any isWord = true := by simp [hl, hc]
  simp only [hyphened, List.cons_append, wordLength, hh, beq_self_eq_true, Bool.and_self,
    Bool.or_true, if_true, wordLength_append l.all, List.length_cons]
  omega

theorem wordLength_more (ls : List Letters) (rest : List Char) :
    wordLength (ls.flatMap hyphened ++ rest) = (ls.flatMap hyphened).length + wordLength rest := by
  induction ls with
  | nil => simp
  | cons l ls ih =>
    rw [List.flatMap_cons, List.append_assoc, wordLength_hyphened, ih, List.length_append]
    omega

theorem isWord_tilde : isWord '~' = false := by decide

theorem argumentLength_argumentChars (a : Option Letters) {s : List Char}
    (h : a = none → s.head? ≠ some '~') : argumentLength (argumentChars a ++ s) = (argumentChars a).length := by
  cases a with
  | none =>
    cases s with
    | nil => rfl
    | cons c s =>
      rw [argumentChars, List.nil_append, argumentLength]
      · rfl
      · rintro _ ⟨rfl, _⟩
        exact h rfl rfl
  | some l =>
    have hl : (l.chars ++ '~' :: s).takeWhile isWord = l.chars :=
      l.takeWhile_append (by simp [isWord_tilde])
    have hp : 0 < l.chars.length := List.length_pos_of_ne_nil l.ne_nil
    simp only [argumentChars, List.cons_append, List.append_assoc, List.nil_append, argumentLength,
      hl, hp, decide_true, Bool.true_and, List.length_append, List.length_cons, List.length_nil]
    simp

private theorem head?_argumentChars {a : Option Letters} {c : Char} {s : List Char}
    (h : isWord c = false ∧ c ≠ '-') :
    ∀ d ∈ (argumentChars a ++ c :: s).head?, isWord d = false ∧ d ≠ '-' := by
  cases a with
  | none => simpa [argumentChars] using h
  | some l => simp [argumentChars, isWord_tilde]

theorem exists_cons (w : Word) : ∃ c s, w.chars = c :: s ∧ isWord c := by
  obtain ⟨c, s, hl, hc⟩ := w.first.exists_cons
  exact ⟨c, s ++ (w.more.flatMap hyphened ++ argumentChars w.argument), by simp [chars, hl], hc⟩

/-- Letters joined by hyphens are part of a word, whatever comes behind them. -/
theorem length?_stem (first : Letters) (more : List Letters) (rest : List Char) :
    Lexicon.word.length? (first.chars ++ (more.flatMap hyphened ++ rest)) =
      some ((first.chars ++ more.flatMap hyphened).length +
        (wordLength rest + argumentLength (rest.drop (wordLength rest)))) := by
  obtain ⟨c, s, hc, hw⟩ := first.exists_cons
  have hhead : (first.chars ++ (more.flatMap hyphened ++ rest)).head?.any isWord := by simp [hc, hw]
  have hlength : wordLength (first.chars ++ (more.flatMap hyphened ++ rest)) =
      (first.chars ++ more.flatMap hyphened).length + wordLength rest := by
    rw [wordLength_append first.all, wordLength_more, List.length_append, Nat.add_assoc]
  simp only [Lexicon.word, hhead, if_true, hlength]
  rw [← List.append_assoc, ← List.drop_drop, List.drop_left, Nat.add_assoc]

theorem length?_chars (w : Word) {c : Char} (h : isWord c = false ∧ c ≠ '-' ∧ c ≠ '~')
    (rest : List Char) : Lexicon.word.length? (w.chars ++ c :: rest) = some w.chars.length := by
  have hn : wordLength (argumentChars w.argument ++ c :: rest) = 0 :=
    wordLength_none (head?_argumentChars ⟨h.1, h.2.1⟩)
  have ha := argumentLength_argumentChars w.argument (s := c :: rest) fun _ => by simpa using h.2.2
  rw [chars, List.append_assoc, List.append_assoc, length?_stem, hn, List.drop_zero, ha]
  simp [Nat.add_assoc]

/-- A word never begins as a link does: behind a letter `o` there are no two hyphens. -/
theorem link?_chars (w : Word) {c : Char} (h : c ≠ '-') (rest : List Char) :
    link? (w.chars ++ c :: rest) = none := by
  obtain ⟨d, s, hl, hd⟩ := w.first.exists_cons
  have hw : w.chars ++ c :: rest =
      d :: (s ++ (w.more.flatMap hyphened ++ (argumentChars w.argument ++ c :: rest))) := by
    simp [chars, hl]
  rw [hw]
  apply link?_of_isWord hd
  intro r hr
  rcases s with _ | ⟨e, s⟩
  · cases hm : w.more with
    | nil => cases ha : w.argument <;> simp_all [argumentChars]
    | cons l ls =>
      obtain ⟨f, t, hf, hfw⟩ := l.exists_cons
      have hfe : f = '-' := by simp_all [hyphened]
      rw [hfe] at hfw
      exact absurd hfw (by decide)
  · have he : isWord e = true := w.first.all e (by simp [hl])
    have hh : e = '-' := by simp_all
    rw [hh] at he
    exact absurd he (by decide)

end Word

namespace Sign

private theorem head_mem : ∀ e ∈ punctuation, e.1.toList.head?.any fun c =>
    !Slice.isGap c && !isBreak c && c != '"' && !isWord c := by
  decide

theorem exists_cons (x : Sign) : ∃ c s, x.text.toList = c :: s ∧ Slice.isGap c = false ∧
    isBreak c = false ∧ c ≠ '"' ∧ isWord c = false := by
  have h := head_mem _ x.mem
  cases hx : x.text.toList with
  | nil => simp [hx] at h
  | cons c s =>
    simp only [hx, List.head?_cons, Option.any_some, Bool.and_eq_true, Bool.not_eq_true',
      bne_iff_ne] at h
    exact ⟨c, s, rfl, h.1.1.1, h.1.1.2, h.1.2, h.2⟩

private theorem find?_self : ∀ e ∈ punctuation,
    punctuation.find? (fun x => x.1.toList.isPrefixOf e.1.toList) = some e := by
  decide +kernel

theorem sign?_append (x : Sign) {c : Char} (h : ¬ RunsOn (x.text.toList ++ [c]))
    (rest : List Char) : sign? (x.text.toList ++ c :: rest) = some (x.text, x.kind) := by
  rw [sign?, ← find?_self _ x.mem]
  apply List.find?_congr
  intro e he
  rw [Bool.eq_iff_iff, List.isPrefixOf_iff_prefix, List.isPrefixOf_iff_prefix]
  constructor
  · intro hp
    have hc : x.text.toList ++ [c] <+: x.text.toList ++ c :: rest := ⟨rest, by simp⟩
    rcases List.prefix_or_prefix_of_prefix hp hc with hp | hp
    · rcases List.prefix_concat_iff.mp hp with hp | hp
      · exact absurd (.inl ⟨e, he, hp ▸ List.prefix_rfl⟩) h
      · exact hp
    · exact absurd (.inl ⟨e, he, hp⟩) h
  · exact fun hp => hp.trans (List.prefix_append _ _)

end Sign

theorem Quotation.slice?_append (q : Quotation) (rest : List Char) :
    string.slice? ('"' :: (q.chars ++ ['"'] ++ rest)) =
      some ⟨'"' :: (q.chars ++ ['"']), some (.string, q.chars)⟩ := by
  have hin : ∀ d ∈ q.chars, inString d := fun d hd => by
    simpa [inString, isBreak] using q.all d hd
  have hquote : inString '"' = false := rfl
  have ht : ∀ s, (q.chars ++ '"' :: s).takeWhile inString = q.chars := fun s => by
    simp [List.takeWhile_append_of_pos hin, hquote]
  have hd : (q.chars ++ '"' :: rest).dropWhile inString = '"' :: rest := by
    simp [List.dropWhile_append_of_pos hin, hquote]
  have hlen : string.length? ('"' :: (q.chars ++ ['"'] ++ rest)) =
      some ('"' :: (q.chars ++ ['"'])).length := by
    simp only [string, List.append_assoc, List.singleton_append, ht, hd, List.head?_cons,
      beq_self_eq_true, if_true, List.length_cons, List.length_append, List.length_nil,
      Option.some.injEq]
    omega
  have htake : ('"' :: (q.chars ++ ['"'] ++ rest)).take ('"' :: (q.chars ++ ['"'])).length =
      '"' :: (q.chars ++ ['"']) := List.take_left
  rw [Entry.slice?, hlen, Option.map_some, htake]
  simp only [string, List.drop_one, List.tail_cons, ht]

namespace LinkText

theorem opensLink_chars (l : LinkText) (rest : List Char) :
    opensLink (l.chars ++ ' ' :: rest) := by
  obtain ⟨p, hp, hg⟩ := l.spelled
  have hs := link?_of_spells rest _ hp _ hg
  by_contra h
  rw [link?_none (Bool.eq_false_iff.mpr h)] at hs
  cases hs

private theorem of_opensLink {s : List Char} (h : opensLink s) :
    ∃ a b t, s = a :: b :: t ∧ a ∈ ['<', '.', '*', 'o', '-', '=', '~'] ∧
      b ∈ ['|', '.', '-', '=', '~'] := by
  match s with
  | a :: b :: t => exact ⟨a, b, t, rfl, by simpa [opensLink] using h⟩

private theorem head_of_mem : ∀ a ∈ ['<', '.', '*', 'o', '-', '=', '~'],
    Slice.isGap a = false ∧ isBreak a = false ∧ a ≠ '"' ∧ a ≠ '%' := by
  simp [Slice.isGap, isBreak]

theorem exists_cons (l : LinkText) : ∃ c s, l.chars = c :: s ∧ Slice.isGap c = false ∧
    isBreak c = false ∧ c ≠ '"' ∧ c ≠ '%' := by
  obtain ⟨a, b, t, ht, ha, hb⟩ := of_opensLink (l.opensLink_chars [])
  cases hl : l.chars with
  | nil =>
    rw [hl, List.nil_append, List.cons.injEq] at ht
    rw [← ht.1] at ha
    exact absurd ha (by decide)
  | cons c s =>
    rw [hl, List.cons_append, List.cons.injEq] at ht
    exact ⟨c, s, rfl, ht.1 ▸ head_of_mem a ha⟩

end LinkText

namespace Piece

private theorem head_of_isWord {c : Char} (h : isWord c) :
    Slice.isGap c = false ∧ isBreak c = false ∧ c ≠ '"' ∧ c ≠ '%' := by
  have hnone : [' ', '\t', '\x0c', '\x0b', '\r', '\n', '"', '%'].all (!isWord ·) := by decide
  have hne : ∀ d ∈ [' ', '\t', '\x0c', '\x0b', '\r', '\n', '"', '%'], c ≠ d := by
    rintro d hd rfl
    simpa [h] using List.all_eq_true.mp hnone c hd
  simp only [List.forall_mem_cons] at hne
  simp [Slice.isGap, isBreak, hne]

private theorem not_comment {c : Char} (h : c ≠ '%') (s : List Char) :
    "%%".toList.isPrefixOf (c :: s) = false := by
  have hc : ('%' == c) = false := beq_eq_false_iff_ne.mpr h.symm
  change ('%' == c && _) = false
  rw [hc, Bool.false_and]

/-- How a piece begins, for what stands before it. -/
theorem exists_cons (p : Piece) :
    ∃ c s, p.chars = c :: s ∧ Slice.isGap c = false ∧ isBreak c = false := by
  cases p with
  | word w =>
    obtain ⟨c, s, hc, hw⟩ := w.exists_cons
    obtain ⟨hg, hb, _, _⟩ := head_of_isWord hw
    exact ⟨c, s, hc, hg, hb⟩
  | quotation q => exact ⟨'"', q.chars ++ ['"'], rfl, rfl, rfl⟩
  | sign x =>
    obtain ⟨c, s, hc, hg, hb, _, _⟩ := x.exists_cons
    exact ⟨c, s, hc, hg, hb⟩
  | link l =>
    obtain ⟨c, s, hc, hg, hb, _, _⟩ := l.exists_cons
    exact ⟨c, s, hc, hg, hb⟩

theorem leads (p : Piece) {c : Char} (h : p.Stops c) (rest : List Char) :
    p.slice.Leads (c :: rest) := by
  cases p with
  | word w =>
    obtain ⟨d, s, hw, hd⟩ := w.exists_cons
    obtain ⟨hg, hb, hq, hp⟩ := head_of_isWord hd
    have hlink := w.link?_chars h.2.1 rest
    have hword := w.length?_chars h rest
    rw [hw, List.cons_append] at hlink hword
    have hs : (word w).slice = ⟨d :: s, some (TokenKind.ofWord w.text, d :: s)⟩ := by
      simp [slice, chars, kind, lexeme, Word.text, hw]
    rw [hs]
    apply Slice.leads_of_spelled hg hb
    rw [spelled?_eq (not_comment hp _) hq, hlink, Entry.slice?, hword]
    simp [Lexicon.word, Word.text, hw]
  | quotation q =>
    have hs : (quotation q).slice = ⟨'"' :: (q.chars ++ ['"']), some (.string, q.chars)⟩ := by
      simp [slice, chars, kind, lexeme, Quotation.text]
    rw [hs]
    apply Slice.leads_of_spelled rfl rfl
    have hc : comment.slice? ('"' :: (q.chars ++ ['"'] ++ c :: rest)) = none := rfl
    have he : Slice.spelled? ('"' :: (q.chars ++ ['"'] ++ c :: rest)) =
        entries.findSome? (Entry.slice? · ('"' :: (q.chars ++ ['"'] ++ c :: rest))) := rfl
    rw [he, entries, List.cons_append, List.findSome?_cons, hc, List.cons_append,
      List.findSome?_cons, q.slice?_append]
  | sign x =>
    obtain ⟨d, s, hx, hg, hb, hq, hw⟩ := x.exists_cons
    have hsign := x.sign?_append h rest
    have hs : (sign x).slice = ⟨d :: s, some (x.kind, d :: s)⟩ := by
      simp [slice, chars, kind, lexeme, hx]
    have hlink : link? (x.text.toList ++ c :: rest) = none := by
      apply link?_none
      rw [← Bool.not_eq_true]
      intro ho
      refine h (.inr (.inl ?_))
      rw [hx] at ho ⊢
      rcases s with _ | ⟨e, s⟩ <;> exact ho
    have hcomment : "%%".toList.isPrefixOf (x.text.toList ++ c :: rest) = false := by
      rw [← Bool.not_eq_true, List.isPrefixOf_iff_prefix]
      intro hp
      refine h (.inr (.inr ?_))
      have hc : x.text.toList ++ [c] <+: x.text.toList ++ c :: rest := ⟨rest, by simp⟩
      refine List.prefix_of_prefix_length_le hp hc ?_
      simp [hx]
    have hword : Lexicon.word.length? (d :: (s ++ c :: rest)) = none := by
      simp [Lexicon.word, hw]
    rw [hx, List.cons_append] at hsign hlink hcomment
    rw [hs]
    apply Slice.leads_of_spelled hg hb
    rw [spelled?_eq hcomment hq, hlink, Entry.slice?, hword, hsign]
    simp [hx]
  | link l =>
    obtain ⟨d, s, hl, hg, hb, hq, hp⟩ := l.exists_cons
    obtain ⟨p, hp', hspell⟩ := l.spelled
    have hlink := link?_of_spells rest _ hp' _ hspell
    rw [hl, List.cons_append] at hlink
    have hs : (link l).slice = ⟨d :: s, some (l.kind, d :: s)⟩ := by
      simp [slice, chars, kind, lexeme, hl]
    rw [hs, show c = ' ' from h]
    apply Slice.leads_of_spelled hg hb
    rw [spelled?_eq (not_comment hp _) hq, hlink]
    simp

end Piece
end Mermaid
