import Mathlib.Data.List.TakeWhile
import Mermaid.Proofs.Text.Strip
import Mermaid.Proofs.Token.Kinds

/-! The slices of a text tile it: each takes one character at least, together they are the whole
text, and what a token says is what its slice shows. -/
namespace Mermaid
open Lexicon Text

namespace Pattern

/-- Spells characters of this class only. -/
def within (inClass : Char → Bool) : Pattern → Bool
  | text chars => chars.all inClass
  | run c _ => inClass c
  | ahead _ | notAhead _ => true
  | seq p q | either p q => p.within inClass && q.within inClass

/-- Spells no line break. -/
def plain (p : Pattern) : Bool := p.within (!isBreak ·)

/-- How many characters a match has at least. -/
def least : Pattern → Nat
  | text chars => chars.length
  | run _ least => least
  | ahead _ | notAhead _ => 0
  | seq p q => p.least + q.least
  | either p q => min p.least q.least

/-- The parts of a match that spells one pattern behind another. -/
private theorem exists_of_seq {p q : Pattern} {s : List Char} {n : Nat}
    (h : (p.seq q).length? s = some n) :
    ∃ m k, p.length? s = some m ∧ q.length? (s.drop m) = some k ∧ m + k = n := by
  have hseq : (p.length? s).bind (fun n => (q.length? (s.drop n)).map (n + ·)) = some n :=
    (length?_append p q s).symm.trans h
  obtain ⟨m, hm, hq⟩ := Option.bind_eq_some_iff.mp hseq
  obtain ⟨k, hk, hn⟩ := Option.map_eq_some_iff.mp hq
  exact ⟨m, k, hm, hk, hn⟩

/-- A match lies within the text. -/
theorem length?_spec {p : Pattern} {s : List Char} {n : Nat} (h : p.length? s = some n) :
    p.least ≤ n ∧ n ≤ s.length := by
  induction p generalizing s n with
  | text chars =>
    simp only [length?, Option.ite_none_right_eq_some, Option.some.injEq] at h
    obtain ⟨hstart, rfl⟩ := h
    exact ⟨le_refl _, (List.isPrefixOf_iff_prefix.mp hstart).length_le⟩
  | run c least =>
    simp only [length?, Option.ite_none_right_eq_some, Option.some.injEq] at h
    obtain ⟨hleast, rfl⟩ := h
    exact ⟨hleast, (List.takeWhile_prefix _).length_le⟩
  | ahead inClass =>
    simp only [length?, Option.ite_none_right_eq_some, Option.some.injEq] at h
    obtain ⟨_, rfl⟩ := h
    simp [Pattern.least]
  | notAhead inClass =>
    simp only [length?, Option.ite_none_left_eq_some, Option.some.injEq] at h
    obtain ⟨_, rfl⟩ := h
    simp [Pattern.least]
  | seq p q ihp ihq =>
    obtain ⟨m, k, hm, hk, rfl⟩ := exists_of_seq h
    obtain ⟨hleast, hlength⟩ := ihp hm
    obtain ⟨hleast', hlength'⟩ := ihq hk
    rw [List.length_drop] at hlength'
    exact ⟨Nat.add_le_add hleast hleast', by omega⟩
  | either p q ihp ihq =>
    rw [length?, Option.or_eq_some_iff] at h
    rcases h with h | ⟨_, h⟩
    · exact ⟨(min_le_left _ _).trans (ihp h).1, (ihp h).2⟩
    · exact ⟨(min_le_right _ _).trans (ihq h).1, (ihq h).2⟩

/-- The characters of a match are those that the pattern spells. -/
theorem forall_mem_take {inClass : Char → Bool} {p : Pattern} {s : List Char} {n : Nat}
    (hp : p.within inClass) (h : p.length? s = some n) : ∀ c ∈ s.take n, inClass c := by
  induction p generalizing s n with
  | text chars =>
    simp only [length?, Option.ite_none_right_eq_some, Option.some.injEq] at h
    obtain ⟨hstart, rfl⟩ := h
    rw [← List.prefix_iff_eq_take.mp (List.isPrefixOf_iff_prefix.mp hstart)]
    simpa [within] using hp
  | run c least =>
    simp only [length?, Option.ite_none_right_eq_some, Option.some.injEq] at h
    obtain ⟨-, rfl⟩ := h
    rw [← List.prefix_iff_eq_take.mp (List.takeWhile_prefix (l := s) (· == c))]
    intro d hd
    have hd : (d == c) = true := List.mem_takeWhile_imp (p := (· == c)) hd
    rw [beq_iff_eq] at hd
    simpa [within, hd] using hp
  | ahead inClass =>
    simp only [length?, Option.ite_none_right_eq_some, Option.some.injEq] at h
    obtain ⟨_, rfl⟩ := h
    simp
  | notAhead inClass =>
    simp only [length?, Option.ite_none_left_eq_some, Option.some.injEq] at h
    obtain ⟨_, rfl⟩ := h
    simp
  | seq p q ihp ihq =>
    rw [within, Bool.and_eq_true] at hp
    obtain ⟨m, k, hm, hk, rfl⟩ := exists_of_seq h
    rw [List.take_add]
    exact List.forall_mem_append.mpr ⟨ihp hp.1 hm, ihq hp.2 hk⟩
  | either p q ihp ihq =>
    rw [within, Bool.and_eq_true] at hp
    rw [length?, Option.or_eq_some_iff] at h
    rcases h with h | ⟨_, h⟩
    · exact ihp hp.1 h
    · exact ihq hp.2 h

end Pattern

namespace Slice

/-- The kinds of token whose lexeme is not what their slice shows. -/
def editedKinds : List TokenKind := [.newline, .comment, .string, .eof]

/-- What a slice can be where `rest` follows it. -/
inductive Tile : Slice → List Char → Prop
  | gap {span rest : List Char} (hne : span ≠ []) (h : ∀ c ∈ span, isGap c) : Tile ⟨span, none⟩ rest
  | lineBreak {span rest : List Char} (h : span ∈ [['\r', '\n'], ['\n'], ['\r']]) :
      Tile ⟨span, some (.newline, ['\n'])⟩ rest
  | comment {remark rest : List Char} (h : ∀ c ∈ remark, isBreak c = false) :
      Tile ⟨'%' :: '%' :: remark, some (.comment, strip remark)⟩ rest
  | closed {text rest : List Char} (h : ∀ c ∈ text, inString c) :
      Tile ⟨'"' :: (text ++ ['"']), some (.string, text)⟩ rest
  /-- A string without its second mark, at the end of its line. -/
  | unclosed {text rest : List Char} (h : ∀ c ∈ text, inString c) (hrest : rest.head?.all isBreak) :
      Tile ⟨'"' :: text, some (.string, text)⟩ rest
  | verbatim {kind : TokenKind} {span rest : List Char} (hk : kind ∉ editedKinds) (hne : span ≠ [])
      (h : ∀ c ∈ span, isBreak c = false) : Tile ⟨span, some (kind, span)⟩ rest

namespace Tile
variable {slice : Slice} {rest : List Char}

theorem span_ne_nil (h : slice.Tile rest) : slice.span ≠ [] := by
  cases h with
  | gap hne => exact hne
  | lineBreak h =>
    rintro rfl
    simp at h
  | comment | closed | unclosed => exact List.cons_ne_nil _ _
  | verbatim _ hne => exact hne

theorem length_pos (h : slice.Tile rest) : 0 < slice.span.length :=
  List.length_pos_of_ne_nil h.span_ne_nil

/-- Only a line break reaches into the next line. -/
theorem unbroken (h : slice.Tile rest) {kind : TokenKind} {lexeme : List Char}
    (ht : slice.token? = some (kind, lexeme)) (hk : kind ≠ .newline) :
    ∀ c ∈ slice.span ++ lexeme, isBreak c = false := by
  have hmark : isBreak '"' = false ∧ isBreak '%' = false := by decide
  have hstring : ∀ {text : List Char}, (∀ c ∈ text, inString c) → ∀ c ∈ text, isBreak c = false := by
    intro text h c hc
    have hin := h c hc
    simp only [inString, Bool.and_eq_true, Bool.not_eq_true'] at hin
    exact hin.2
  cases h with
  | gap => cases ht
  | lineBreak =>
    cases ht
    exact absurd rfl hk
  | comment h =>
    cases ht
    simp only [List.forall_mem_append, List.forall_mem_cons]
    exact ⟨⟨hmark.2, hmark.2, h⟩, fun c hc => h c (mem_of_mem_strip hc)⟩
  | closed h =>
    cases ht
    simp only [List.forall_mem_append, List.forall_mem_cons]
    exact ⟨⟨hmark.1, hstring h, hmark.1, List.forall_mem_nil _⟩, hstring h⟩
  | unclosed h =>
    cases ht
    simp only [List.forall_mem_append, List.forall_mem_cons]
    exact ⟨⟨hmark.1, hstring h⟩, hstring h⟩
  | verbatim _ _ h =>
    cases ht
    exact List.forall_mem_append.mpr ⟨h, h⟩

/-- A slice without a character that breaks lines is no line break. -/
theorem kind_ne_newline (h : slice.Tile rest) (hspan : ∀ c ∈ slice.span, isBreak c = false) :
    ∀ said ∈ slice.token?, said.1 ≠ .newline := by
  intro said hsaid
  cases h with
  | gap => cases hsaid
  | lineBreak h =>
    simp only [List.mem_cons, List.not_mem_nil, or_false] at h
    rcases h with rfl | rfl | rfl <;> simp [isBreak] at hspan
  | comment | closed | unclosed =>
    cases hsaid
    simp
  | verbatim hk =>
    cases hsaid
    rintro rfl
    exact hk List.mem_cons_self

end Tile
end Slice

namespace Lexicon
open Slice

/-- What the entry takes from the head of a text is a tile in front of what it leaves. -/
def Entry.Tiles (e : Entry) : Prop :=
  ∀ s n, e.length? s = some n → (⟨s.take n, some (e.read (s.take n))⟩ : Slice).Tile (s.drop n)

private theorem tiles_comment : comment.Tiles := by
  intro s n h
  simp only [comment] at h
  split at h
  · rename_i t
    obtain rfl := Option.some.inj h
    have htake := List.prefix_iff_eq_take.mp (List.takeWhile_prefix (l := t) (!isBreak ·))
    have hremark : ∀ c ∈ t.takeWhile (!isBreak ·), isBreak c = false := fun c hc => by
      simpa using List.mem_takeWhile_imp hc
    rw [Nat.add_comm 2, List.take_succ_cons, List.take_succ_cons, ← htake]
    exact .comment hremark
  · cases h

private theorem tiles_string : string.Tiles := by
  intro s n h
  simp only [string] at h
  split at h
  · rename_i t
    obtain rfl := Option.some.inj h
    have htext : ∀ c ∈ t.takeWhile inString, inString c := fun c hc => List.mem_takeWhile_imp hc
    have hsplit := List.takeWhile_append_dropWhile (p := inString) (l := t)
    have hhead := List.head?_dropWhile_not inString t
    generalize t.takeWhile inString = text at htext hsplit
    generalize t.dropWhile inString = rest at hsplit hhead
    obtain rfl := hsplit
    have hread : text.takeWhile inString = text := List.takeWhile_eq_self_iff.mpr htext
    cases rest with
    | nil => simpa [string, hread, Nat.add_comm 1] using
        @Tile.unclosed text [] htext rfl
    | cons c rest =>
      have hc : inString c = false := by simpa using hhead
      by_cases hclosed : c = '"'
      · subst hclosed
        have htake : (text ++ '"' :: rest).take (text.length + 1) = text ++ ['"'] := by
          rw [List.take_append, List.take_of_length_le (Nat.le_succ _)]
          simp
        have hcut : (text ++ ['"']).takeWhile inString = text := by
          rw [List.takeWhile_append_of_pos htext]
          simp [hc]
        have hdrop : (text ++ '"' :: rest).drop (text.length + 1) = rest := by
          simp [List.drop_append]
        have hlength : 1 + text.length + 1 = text.length + 1 + 1 := by omega
        simpa [string, hlength, htake, hcut, hdrop] using @Tile.closed text rest htext
      · have hbreak : isBreak c = true := by simpa [inString, hclosed] using hc
        simpa [string, hclosed, hread, Nat.add_comm 1] using
          @Tile.unclosed text (c :: rest) htext (by simpa using hbreak)
  · cases h

/-- A text that a pattern takes is read as it stands. -/
private theorem tiles_ofPattern {p : Pattern} {kind : TokenKind} (hp : p.plain) (hleast : 0 < p.least)
    (hk : kind ∉ editedKinds) : (ofPattern kind p).Tiles := by
  intro s n h
  obtain ⟨hn, hlength⟩ := Pattern.length?_spec h
  refine .verbatim hk ?_ fun c hc => by simpa using Pattern.forall_mem_take hp h c hc
  intro hnil
  have hzero := congrArg List.length hnil
  rw [List.length_take, List.length_nil] at hzero
  omega

theorem links_plain : ∀ e ∈ links, e.1.plain ∧ 0 < e.1.least ∧ e.2 ∉ editedKinds := by decide

theorem punctuation_plain : ∀ e ∈ punctuation,
    (e.1 : Pattern).plain ∧ 0 < (e.1 : Pattern).least ∧ e.2 ∉ editedKinds := by
  decide

theorem isBreak_of_isWord {c : Char} (h : isWord c) : isBreak c = false := by
  have hbreaks : isWord '\r' = false ∧ isWord '\n' = false := by decide
  rw [← Bool.not_eq_true]
  intro hc
  simp only [isBreak, Bool.or_eq_true, beq_iff_eq] at hc
  rcases hc with rfl | rfl
  · rw [hbreaks.1] at h
    cases h
  · rw [hbreaks.2] at h
    cases h

/-- Can be in a word with its type argument. -/
def InWord (c : Char) : Prop := isWord c ∨ c = '-' ∨ c = '~'

theorem isBreak_of_inWord {c : Char} (h : InWord c) : isBreak c = false := by
  rcases h with hword | rfl | rfl
  · exact isBreak_of_isWord hword
  · decide
  · decide

theorem take_wordLength (s : List Char) :
    wordLength s ≤ s.length ∧ ∀ c ∈ s.take (wordLength s), InWord c := by
  induction s with
  | nil => simp [wordLength]
  | cons c s ih =>
    rw [wordLength]
    split
    · rename_i hc
      have hword : InWord c := by
        rcases Bool.or_eq_true_iff.mp hc with hw | hh
        · exact .inl hw
        · exact .inr (.inl (by simpa using (Bool.and_eq_true_iff.mp hh).1))
      rw [Nat.add_comm 1, List.take_succ_cons, List.length_cons]
      exact ⟨Nat.succ_le_succ ih.1, List.forall_mem_cons.mpr ⟨hword, ih.2⟩⟩
    · simp

theorem take_argumentLength (s : List Char) :
    argumentLength s ≤ s.length ∧ ∀ c ∈ s.take (argumentLength s), InWord c := by
  have htilde : InWord '~' := .inr (.inr rfl)
  rw [argumentLength.eq_def]
  split
  · rename_i t
    simp only
    split
    · rename_i h
      rw [Bool.and_eq_true, beq_iff_eq] at h
      have hword : ∀ c ∈ t.takeWhile isWord, InWord c := fun c hc => .inl (List.mem_takeWhile_imp hc)
      have htake := List.prefix_iff_eq_take.mp (List.takeWhile_prefix (l := t) isWord)
      obtain ⟨hn, _⟩ := List.getElem?_eq_some_iff.mp h.2
      refine ⟨Nat.succ_le_succ hn, ?_⟩
      rw [List.take_succ_cons, List.take_add_one, h.2, ← htake]
      simp only [List.forall_mem_cons, List.forall_mem_append]
      exact ⟨htilde, hword, by simpa using htilde⟩
    · simp
  · simp

theorem inWord_of_word {s : List Char} {n : Nat} (h : word.length? s = some n) :
    ∀ c ∈ s.take n, InWord c := by
  simp only [word, Option.ite_none_right_eq_some, Option.some.injEq] at h
  obtain ⟨-, rfl⟩ := h
  rw [List.take_add]
  exact List.forall_mem_append.mpr ⟨(take_wordLength s).2, (take_argumentLength _).2⟩

private theorem word_kinds :
    ∀ k ∈ TokenKind.identifier :: TokenKind.reserved.map (·.2), k ∉ editedKinds := by
  decide

private theorem tiles_word : word.Tiles := by
  intro s n h
  have hchars := inWord_of_word h
  simp only [word, Option.ite_none_right_eq_some, Option.some.injEq] at h
  obtain ⟨hhead, rfl⟩ := h
  refine .verbatim (word_kinds _ (Piece.ofWord_mem _)) ?_ fun c hc => isBreak_of_inWord (hchars c hc)
  cases s with
  | nil => simp at hhead
  | cons c s =>
    have hc : isWord c = true := by simpa using hhead
    have hpos : 0 < wordLength (c :: s) := by
      simp only [wordLength, hc, Bool.true_or, if_true]
      omega
    intro hnil
    have hzero := congrArg List.length hnil
    rw [List.length_take, List.length_nil, List.length_cons] at hzero
    omega

theorem tiles_entries : ∀ e ∈ entries, e.Tiles := by
  intro e he
  simp only [entries, List.mem_append, List.mem_cons, List.mem_map] at he
  rcases he with (rfl | rfl | ⟨⟨p, k⟩, hp, rfl⟩) | rfl | ⟨⟨x, k⟩, hx, rfl⟩
  · exact tiles_comment
  · exact tiles_string
  · obtain ⟨hplain, hleast, hk⟩ := links_plain _ hp
    exact tiles_ofPattern hplain hleast hk
  · exact tiles_word
  · obtain ⟨hplain, hleast, hk⟩ := punctuation_plain _ hx
    exact tiles_ofPattern hplain hleast hk

theorem comment_length_le {s : List Char} {n : Nat} (h : comment.length? s = some n) : n ≤ s.length := by
  simp only [comment] at h
  split at h
  · rename_i s
    obtain rfl := Option.some.inj h
    have := (List.takeWhile_prefix (l := s) (!isBreak ·)).length_le
    simp only [List.length_cons]
    omega
  · cases h

theorem string_length_le {s : List Char} {n : Nat} (h : string.length? s = some n) : n ≤ s.length := by
  simp only [string] at h
  split at h
  · rename_i s
    obtain rfl := Option.some.inj h
    have hsplit := congrArg List.length (List.takeWhile_append_dropWhile (p := inString) (l := s))
    rw [List.length_append] at hsplit
    have hend : (if (s.dropWhile inString).head? == some '"' then 1 else 0) ≤
        (s.dropWhile inString).length := by
      cases s.dropWhile inString with
      | nil => simp
      | cons d rest => split <;> simp
    simp only [List.length_cons]
    omega
  · cases h

theorem word_length_le {s : List Char} {n : Nat} (h : word.length? s = some n) : n ≤ s.length := by
  simp only [word, Option.ite_none_right_eq_some, Option.some.injEq] at h
  have hlength := (take_wordLength s).1
  have hargument := (take_argumentLength (s.drop (wordLength s))).1
  rw [List.length_drop] at hargument
  omega

/-- An entry takes no more of a text than there is. -/
theorem length_le {e : Entry} (he : e ∈ entries) {s : List Char} {n : Nat} (h : e.length? s = some n) :
    n ≤ s.length := by
  simp only [entries, List.mem_append, List.mem_cons, List.mem_map] at he
  rcases he with (rfl | rfl | ⟨e, hp, rfl⟩) | rfl | ⟨e, hx, rfl⟩
  · exact comment_length_le h
  · exact string_length_le h
  · exact (Pattern.length?_spec h).2
  · exact word_length_le h
  · exact (Pattern.length?_spec h).2

/-- No entry but that of words reads identifiers and reserved words. -/
theorem eq_word_of_kind {e : Entry} (he : e ∈ entries) {span : List Char}
    (h : (e.read span).1 ∈ TokenKind.identifier :: TokenKind.reserved.map (·.2)) : e = word := by
  have hlinks : ∀ e ∈ links, e.2 ∉ TokenKind.identifier :: TokenKind.reserved.map (·.2) := by decide
  have hpunctuation : ∀ e ∈ punctuation,
      e.2 ∉ TokenKind.identifier :: TokenKind.reserved.map (·.2) := by decide
  simp only [entries, List.mem_append, List.mem_cons (a := e), List.mem_map] at he
  rcases he with (rfl | rfl | ⟨e, hp, rfl⟩) | rfl | ⟨e, hx, rfl⟩
  · exact absurd h (by simp [comment, TokenKind.reserved])
  · exact absurd h (by simp [string, TokenKind.reserved])
  · exact absurd h (hlinks e hp)
  · rfl
  · exact absurd h (hpunctuation e hx)

end Lexicon

namespace Slice

/-- The first slice of a text is a tile in front of the rest of the text. -/
theorem exists_tile_cut (c : Char) (s : List Char) :
    ∃ rest, (cut c s).span ++ rest = c :: s ∧ (cut c s).Tile rest := by
  rw [cut]
  split
  · rename_i hc
    refine ⟨s.dropWhile isGap, ?_, .gap (List.cons_ne_nil c _) ?_⟩
    · rw [List.cons_append, List.takeWhile_append_dropWhile]
    · exact List.forall_mem_cons.mpr ⟨hc, fun d hd => List.mem_takeWhile_imp hd⟩
  · split
    · rename_i n hn
      refine ⟨(c :: s).drop n, List.take_append_drop n _, .lineBreak ?_⟩
      unfold breakLength? at hn
      split at hn
      · rename_i hs
        obtain rfl := Option.some.inj hn
        simp [hs]
      · rename_i hs
        obtain rfl := Option.some.inj hn
        simp [hs]
      · rename_i hs
        obtain rfl := Option.some.inj hn
        simp [hs]
      · cases hn
    · rename_i hn
      cases hs : spelled? (c :: s) with
      | none =>
        refine ⟨s, rfl, .verbatim (by decide) (List.cons_ne_nil c _) ?_⟩
        have hc : isBreak c = false := by
          rw [← Bool.not_eq_true]
          intro hbreak
          simp only [isBreak, Bool.or_eq_true, beq_iff_eq] at hbreak
          rcases hbreak with rfl | rfl
          · cases s with
            | nil => cases hn
            | cons d s =>
              unfold breakLength? at hn
              split at hn <;> simp_all
          · cases hn
        simpa using hc
      | some slice =>
        obtain ⟨e, he, hread⟩ := List.exists_of_findSome?_eq_some hs
        obtain ⟨n, hn, rfl⟩ := Option.map_eq_some_iff.mp hread
        exact ⟨(c :: s).drop n, List.take_append_drop n _, tiles_entries e he _ n hn⟩

theorem ofText_cons {c : Char} {s rest : List Char} (h : (cut c s).span ++ rest = c :: s) :
    ofText (c :: s) = cut c s :: ofText rest := by
  obtain ⟨_, _, htile⟩ := exists_tile_cut c s
  obtain ⟨d, t, ht⟩ := List.exists_cons_of_ne_nil htile.span_ne_nil
  have hfirst : ofText (c :: s) = cut c s :: ofTextAfter ((cut c s).span.length - 1) s := rfl
  rw [ht, List.cons_append, List.cons.injEq] at h
  rw [hfirst, ofTextAfter_eq, ht, ← h.2, List.length_cons, Nat.add_sub_cancel, List.drop_left]

/-- Induction over the slices of a text, from its end on: each is a tile in front of the text behind it. -/
@[elab_as_elim]
theorem cut_induction {motive : List Char → Prop} (nil : motive [])
    (tile : ∀ c s rest, (cut c s).span ++ rest = c :: s → (cut c s).Tile rest → motive rest →
      motive (c :: s)) (s : List Char) : motive s := by
  induction hn : s.length using Nat.strongRecOn generalizing s with
  | ind n ih =>
    cases s with
    | nil => exact nil
    | cons c s =>
      obtain ⟨rest, hspan, htile⟩ := exists_tile_cut c s
      have hlength := congrArg List.length hspan
      have hpos := htile.length_pos
      rw [List.length_append] at hlength
      exact tile c s rest hspan htile (ih rest.length (by omega) rest rfl)

/-- Each slice is a tile in front of those behind it. -/
def Tiles : List Slice → Prop
  | [] => True
  | s :: slices => s.Tile (slices.flatMap (·.span)) ∧ Tiles slices

theorem tiles_ofText (s : List Char) : (ofText s).flatMap (·.span) = s ∧ Tiles (ofText s) := by
  induction s using cut_induction with
  | nil => exact ⟨rfl, trivial⟩
  | tile c s rest hspan htile ih =>
    obtain ⟨htext, htiles⟩ := ih
    rw [ofText_cons hspan, Tiles, List.flatMap_cons, htext]
    exact ⟨hspan, htile, htiles⟩

theorem exists_tile_of_mem {s : Slice} {slices : List Slice} (h : Tiles slices) (hs : s ∈ slices) :
    ∃ rest, s.Tile rest := by
  induction slices with
  | nil => cases hs
  | cons t slices ih =>
    rcases List.mem_cons.mp hs with rfl | hs
    · exact ⟨_, h.1⟩
    · exact ih h.2 hs

end Slice

namespace Mark
variable {text : List Char} {m : Mark}

@[simp] theorem offset_past (m : Mark) (s : Slice) :
    (m.past s).offset = m.offset + s.span.length := by
  rw [past]
  split <;> rfl

/-- Past a slice that is no line break, the place is on the same line. -/
theorem position_past_inLine {s : Slice} (hk : ∀ said ∈ s.token?, said.1 ≠ .newline) :
    (m.past s).position = ⟨m.position.line, m.position.column + s.span.length⟩ := by
  have hpast : m.past s = ⟨m.offset + s.span.length, m.line, m.lineStart⟩ := by
    rw [past]
    split
    · rename_i lexeme hsaid
      exact absurd rfl (hk (.newline, lexeme) hsaid)
    · rfl
  rw [hpast]
  simp only [position, column, Position.mk.injEq, true_and]
  omega

theorem position_past_newline {s : Slice} {lexeme : List Char}
    (h : s.token? = some (.newline, lexeme)) : (m.past s).position = ⟨m.position.line + 1, 1⟩ := by
  rw [past, h]
  simp [position, column]

theorem line_past {s : Slice} (hk : ∀ said ∈ s.token?, said.1 ≠ .newline) :
    (m.past s).line = m.line := congrArg Position.line (position_past_inLine hk)

theorem column_past {s : Slice} (hk : ∀ said ∈ s.token?, said.1 ≠ .newline) :
    (m.past s).column = m.column + s.span.length := congrArg Position.column (position_past_inLine hk)

/-- The steps of a scan from one mark to another, and the tokens that they find. -/
inductive Scans (text : List Char) : Mark → List Token → Mark → Prop
  | finish {m : Mark} (h : m.step? text = none) : Scans text m [] m
  | step {m next last : Mark} {found : Option Token} {tokens : List Token}
      (h : m.step? text = some (found, next)) (rest : Scans text next tokens last) :
      Scans text m (found.toList ++ tokens) last

/-- Before the end of the text a step moves the mark on, and not past the end. -/
theorem exists_step (h : m.offset < text.length) : ∃ found next,
    m.step? text = some (found, next) ∧ m.offset < next.offset ∧ next.offset ≤ text.length := by
  rw [step?]
  cases hd : text.drop m.offset with
  | nil =>
    have := List.drop_eq_nil_iff.mp hd
    omega
  | cons c s =>
    obtain ⟨rest, hspan, htile⟩ := Slice.exists_tile_cut c s
    have hlength := congrArg List.length (hspan.trans hd.symm)
    have hpos := htile.length_pos
    rw [List.length_append, List.length_drop] at hlength
    refine ⟨_, _, rfl, ?_, ?_⟩
    · rw [offset_past]
      omega
    · rw [offset_past]
      omega

/-- A scan comes to its end, with the tokens of the slices. -/
theorem scans_tokens (text : List Char) (m : Mark) :
    let slices := Slice.ofText (text.drop m.offset)
    Scans text m (m.tokens slices) (slices.foldl past m) := by
  intro slices
  dsimp only [slices]
  generalize hleft : text.drop m.offset = left
  induction left using Slice.cut_induction generalizing m with
  | nil =>
    refine .finish ?_
    rw [step?, hleft]
  | tile c s rest hspan htile ih =>
    have hnext : text.drop (m.past (Slice.cut c s)).offset = rest := by
      rw [offset_past, ← List.drop_drop, hleft, ← hspan, List.drop_left]
    rw [Slice.ofText_cons hspan]
    refine .step ?_ (ih (m.past (Slice.cut c s)) hnext)
    rw [step?, hleft]

/-- The tokens say what their slices do. -/
theorem tokens_said (m : Mark) (slices : List Slice) :
    (m.tokens slices).map (fun t => (t.kind, t.lexeme.toList)) = slices.filterMap (·.token?) := by
  induction slices generalizing m with
  | nil => rfl
  | cons s slices ih =>
    rw [tokens, List.map_append, ih, List.filterMap_cons]
    cases hs : s.token? with
    | none => simp [token?, hs]
    | some said => simp [token?, hs]

end Mark

/-- An identifier is spelled with what can be in a word. -/
theorem Stream.inWord_of_identifier {text : String} {t : Token} (ht : t ∈ (ofText text).tokens)
    (hkind : t.kind = .identifier) : ∀ c ∈ t.lexeme.toList, InWord c := by
  obtain ⟨m, slice, hslice, hm⟩ := Mark.exists_token?_of_mem ht
  obtain ⟨d, rest, rfl⟩ := Slice.exists_cut_of_mem hslice
  obtain ⟨⟨kind, lexeme⟩, htoken, rfl⟩ := Option.map_eq_some_iff.mp hm
  obtain rfl : kind = .identifier := hkind
  obtain ⟨e, he, n, hn, hcut⟩ := Slice.exists_entry htoken nofun nofun
  rw [hcut] at htoken
  have hread := Option.some.inj htoken
  obtain rfl := eq_word_of_kind he (List.mem_cons.mpr (.inl (congrArg Prod.fst hread)))
  have hlexeme : (d :: rest).take n = lexeme := congrArg Prod.snd hread
  rw [String.toList_ofList, ← hlexeme]
  exact inWord_of_word hn

/-- Every text is cut into tokens without a loss. A step of the scan moves on within the text, so
the scan ends; the slices are tiles that together are the text, their tokens are the tokens of the
scan and one that stands for the end, and only line breaks hold characters that break lines. -/
theorem scan_lossless (text : String) :
    let slices := Slice.ofText text.toList
    (∀ m : Mark, m.offset < text.toList.length → ∃ found next,
      m.step? text.toList = some (found, next) ∧
        m.offset < next.offset ∧ next.offset ≤ text.toList.length) ∧
    Mark.start.Scans text.toList (Stream.ofText text).tokens (Stream.finalMark text) ∧
    slices.flatMap (·.span) = text.toList ∧
    Slice.Tiles slices ∧
    (scan text).map (fun t => (t.kind, t.lexeme.toList)) =
      slices.filterMap (·.token?) ++ [(.eof, [])] ∧
    (∀ s ∈ slices, ∀ said ∈ s.token?, said.1 ≠ .eof ∧
      (said.1 ≠ .newline → ∀ c ∈ s.span ++ said.2, isBreak c = false)) := by
  intro slices
  obtain ⟨htext, htiles⟩ := Slice.tiles_ofText text.toList
  have hscans := Mark.scans_tokens text.toList Mark.start
  have htokens := Mark.tokens_said Mark.start slices
  refine ⟨fun m => Mark.exists_step, hscans, htext, htiles, ?_, ?_⟩
  · rw [scan, Stream.toList, List.map_append]
    exact congrArg (· ++ _) htokens
  · intro s hs said hsaid
    obtain ⟨c, rest, rfl⟩ := Slice.exists_cut_of_mem hs
    obtain ⟨_, htile⟩ := Slice.exists_tile_of_mem htiles hs
    exact ⟨Slice.kind_ne_eof hsaid, htile.unbroken hsaid⟩

end Mermaid
