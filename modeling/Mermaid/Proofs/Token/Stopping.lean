import Mermaid.Proofs.Token.Tiling

/-! How far the lexicon looks. Every entry stops at the characters that break lines, and every entry but
comments and strings at white space too: what it takes lies before such a character, and is the same
whichever of them it is and whatever comes behind. -/
namespace Mermaid
open Lexicon Text

/-- What is counted at the head of a text lies before a character of `ws`, and is the same for each of
these characters and whatever comes behind. -/
def StopsAt (ws : List Char) (length? : List Char → Option Nat) : Prop :=
  ∀ (l : List Char), ∀ w ∈ ws, ∀ w' ∈ ws, ∀ rest rest',
    length? (l ++ w :: rest) = length? (l ++ w' :: rest') ∧
      ∀ n ∈ length? (l ++ w :: rest), n ≤ l.length

/-- What sees nothing beyond the character stops at it. -/
theorem StopsAt.of_eq {ws : List Char} {length? : List Char → Option Nat}
    (h : ∀ l, ∀ w ∈ ws, ∀ rest, length? (l ++ w :: rest) = length? l)
    (hn : ∀ l, ∀ n ∈ length? l, n ≤ l.length) : StopsAt ws length? := by
  intro l w hw w' hw' rest rest'
  rw [h l w hw, h l w' hw']
  exact ⟨rfl, hn l⟩

section line
variable {p : Char → Bool} {w : Char}

theorem takeWhile_stop (hp : p w = false) (l rest : List Char) :
    (l ++ w :: rest).takeWhile p = l.takeWhile p := by
  induction l with
  | nil => simp [hp]
  | cons c l ih => simp only [List.cons_append, List.takeWhile_cons, ih]

private theorem head?_any_stop (hp : p w = false) (l rest : List Char) :
    (l ++ w :: rest).head?.any p = l.head?.any p := by
  cases l with
  | nil => exact hp
  | cons => rfl

private theorem head?_dropWhile_stop {d : Char} (hp : p w = false) (hw : w ≠ d) (l rest : List Char) :
    (((l ++ w :: rest).dropWhile p).head? == some d) = ((l.dropWhile p).head? == some d) := by
  induction l with
  | nil => simp [hp, hw]
  | cons c l ih =>
    simp only [List.cons_append, List.dropWhile_cons]
    split
    · exact ih
    · rfl

private theorem isPrefixOf_stop {chars : List Char} (hw : w ∉ chars) (l rest : List Char) :
    chars.isPrefixOf (l ++ w :: rest) = chars.isPrefixOf l := by
  induction chars generalizing l with
  | nil => simp
  | cons c chars ih =>
    obtain ⟨hc, hchars⟩ := not_or.mp (List.mem_cons.not.mp hw)
    cases l with
    | nil => simp [List.isPrefixOf, Ne.symm hc]
    | cons d l => simp only [List.cons_append, List.isPrefixOf, ih hchars]

end line

namespace Pattern
variable {ws : List Char}

/-- Spells none of these characters, and does not tell them apart in what it looks ahead for. -/
def even (ws : List Char) : Pattern → Bool
  | text chars => chars.all (· ∉ ws)
  | run c _ => c ∉ ws
  | ahead inClass | notAhead inClass => ws.all fun c => ws.all fun d => inClass c == inClass d
  | seq p q | either p q => p.even ws && q.even ws

theorem stopsAt {p : Pattern} (hp : p.even ws) : StopsAt ws p.length? := by
  induction p with
  | text chars =>
    have hchars : ∀ w ∈ ws, w ∉ chars := fun w hw hmem => by simp_all [even]
    refine .of_eq (fun l w hw rest => ?_) fun l n hn => ?_
    · simp only [length?, isPrefixOf_stop (hchars w hw)]
    · simp only [length?, Option.mem_def, Option.ite_none_right_eq_some, Option.some.injEq] at hn
      exact hn.2 ▸ (List.isPrefixOf_iff_prefix.mp hn.1).length_le
  | run c least =>
    have hc : ∀ w ∈ ws, (w == c) = false := by
      intro w hw
      rw [beq_eq_false_iff_ne]
      rintro rfl
      simp [even, hw] at hp
    refine .of_eq (fun l w hw rest => ?_) fun l n hn => ?_
    · simp only [length?, takeWhile_stop (p := (· == c)) (hc w hw)]
    · simp only [length?, Option.mem_def, Option.ite_none_right_eq_some, Option.some.injEq] at hn
      exact hn.2 ▸ (List.takeWhile_prefix _).length_le
  | ahead inClass | notAhead inClass =>
    simp only [even, List.all_eq_true, beq_iff_eq] at hp
    intro l w hw w' hw' rest rest'
    have hhead : (l ++ w :: rest).head?.any inClass = (l ++ w' :: rest').head?.any inClass := by
      cases l with
      | nil => exact hp w hw w' hw'
      | cons => rfl
    refine ⟨by rw [length?, length?, hhead], fun n hn => ?_⟩
    · have hzero : n = 0 := by
        simp only [length?, Option.mem_def] at hn
        split at hn <;> simp_all
      exact hzero ▸ Nat.zero_le _
  | seq p q ihp ihq =>
    rw [even, Bool.and_eq_true] at hp
    have hseq : ∀ s, (p.seq q).length? s =
        (p.length? s).bind fun n => (q.length? (s.drop n)).map (n + ·) := length?_append p q
    intro l w hw w' hw' rest rest'
    obtain ⟨heq, hle⟩ := ihp hp.1 l w hw w' hw' rest rest'
    -- What `p` takes lies before the character, so `q` begins before it.
    have hnext : ∀ n ∈ p.length? (l ++ w :: rest),
        q.length? ((l ++ w :: rest).drop n) = q.length? ((l ++ w' :: rest').drop n) ∧
        ∀ m ∈ q.length? ((l ++ w :: rest).drop n), n + m ≤ l.length := by
      intro n hn
      have hnl := hle n hn
      rw [List.drop_append_of_le_length hnl, List.drop_append_of_le_length hnl]
      obtain ⟨hq, hm⟩ := ihq hp.2 (l.drop n) w hw w' hw' rest rest'
      refine ⟨hq, fun m hmem => ?_⟩
      have := hm m hmem
      rw [List.length_drop] at this
      omega
    rw [hseq, hseq, ← heq]
    refine ⟨Option.bind_congr fun n hn => by rw [(hnext n hn).1], fun k hk => ?_⟩
    obtain ⟨n, hn, hq⟩ := Option.bind_eq_some_iff.mp hk
    obtain ⟨m, hm, rfl⟩ := Option.map_eq_some_iff.mp hq
    exact (hnext n hn).2 m hm
  | either p q ihp ihq =>
    rw [even, Bool.and_eq_true] at hp
    intro l w hw w' hw' rest rest'
    obtain ⟨hfirst, hlefirst⟩ := ihp hp.1 l w hw w' hw' rest rest'
    obtain ⟨hsecond, hlesecond⟩ := ihq hp.2 l w hw w' hw' rest rest'
    refine ⟨by rw [length?, length?, hfirst, hsecond], fun n hn => ?_⟩
    rcases Option.or_eq_some_iff.mp hn with hn | ⟨-, hn⟩
    · exact hlefirst n hn
    · exact hlesecond n hn

end Pattern

namespace Lexicon
variable {ws : List Char}

private theorem wordLength_stop {w : Char} (hword : isWord w = false) (hhyphen : w ≠ '-')
    (l rest : List Char) : wordLength (l ++ w :: rest) = wordLength l := by
  induction l with
  | nil => simp [wordLength, hword, hhyphen]
  | cons c l ih => simp only [List.cons_append, wordLength, ih, head?_any_stop hword]

private theorem argumentLength_stop {w : Char} (hword : isWord w = false) (htilde : w ≠ '~')
    (l rest : List Char) : argumentLength (l ++ w :: rest) = argumentLength l := by
  have hnone : ∀ {c s}, c ≠ '~' → argumentLength (c :: s) = 0 := fun hc => by
    simp [argumentLength, hc]
  cases l with
  | nil => exact hnone htilde
  | cons c l =>
    by_cases hc : c = '~'
    · have hle := (List.takeWhile_prefix (l := l) isWord).length_le
      have hnext : ((l ++ w :: rest)[(l.takeWhile isWord).length]? == some '~') =
          (l[(l.takeWhile isWord).length]? == some '~') := by
        rcases hle.lt_or_eq with hlt | heq
        · rw [List.getElem?_append_left hlt]
        · simp [heq, htilde]
      simp only [hc, List.cons_append, argumentLength, takeWhile_stop hword, hnext]
    · rw [List.cons_append, hnone hc, hnone hc]

theorem word_stopsAt (h : ∀ w ∈ ws, isWord w = false ∧ w ≠ '-' ∧ w ≠ '~') :
    StopsAt ws word.length? := by
  refine .of_eq (fun l w hw rest => ?_) fun l n hn => ?_
  · obtain ⟨hword, hhyphen, htilde⟩ := h w hw
    simp only [word, head?_any_stop hword, wordLength_stop hword hhyphen,
      List.drop_append_of_le_length (take_wordLength l).1, argumentLength_stop hword htilde]
  · exact word_length_le hn

theorem comment_stopsAt (h : ∀ w ∈ ws, isBreak w) : StopsAt ws comment.length? := by
  refine .of_eq (fun l w hw rest => ?_) fun l n hn => ?_
  · have hbreak := h w hw
    have hremark : (!isBreak w) = false := by simp [hbreak]
    have hpercent : w ≠ '%' := by
      rintro rfl
      exact absurd hbreak (by decide)
    rcases l with _ | ⟨c, _ | ⟨d, l⟩⟩
    · simp [comment, hpercent]
    · simp [comment, hpercent]
    by_cases hc : c = '%' ∧ d = '%'
    · simp only [comment, hc.1, hc.2, List.cons_append, takeWhile_stop (p := (!isBreak ·)) hremark]
    · have hnone : ∀ s, comment.length? (c :: d :: s) = none := by
        intro s
        simp only [comment]
        split <;> simp_all
      simp only [List.cons_append, hnone]
  · exact comment_length_le hn

theorem string_stopsAt (h : ∀ w ∈ ws, isBreak w) : StopsAt ws string.length? := by
  refine .of_eq (fun l w hw rest => ?_) fun l n hn => ?_
  · have hbreak := h w hw
    have hin : inString w = false := by simp [inString, hbreak]
    have hmark : w ≠ '"' := by
      rintro rfl
      exact absurd hbreak (by decide)
    have hnone : ∀ {c s}, c ≠ '"' → string.length? (c :: s) = none := fun hc => by
      simp [string, hc]
    cases l with
    | nil => exact hnone hmark
    | cons c l =>
      by_cases hc : c = '"'
      · simp only [string, hc, List.cons_append, takeWhile_stop hin, head?_dropWhile_stop hin hmark]
      · rw [List.cons_append, hnone hc, hnone hc]
  · exact string_length_le hn

/-- The characters that break lines. -/
def breaks : List Char := ['\r', '\n']

/-- The characters that break lines, and the white space that separates tokens of one line. -/
def white : List Char := [' ', '\t', '\x0c', '\x0b'] ++ breaks

theorem isBreak_iff_mem {c : Char} : isBreak c ↔ c ∈ breaks := by simp [isBreak, breaks]

theorem mem_white_iff {c : Char} : c ∈ white ↔ Slice.isGap c ∨ isBreak c := by
  simp [white, breaks, Slice.isGap, isBreak, or_assoc]

private theorem breaks_subset_white : breaks ⊆ white := List.subset_append_right _ _

private theorem isWord_white : ∀ w ∈ white, isWord w = false ∧ w ≠ '-' ∧ w ≠ '~' := by
  have hall : white.all fun w => !isWord w && (w != '-' && w != '~') := by decide
  simpa using hall

private theorem links_even : ∀ e ∈ links, e.1.even white := by decide

private theorem punctuation_even : ∀ e ∈ punctuation, (e.1 : Pattern).even white := by decide

/-- Every entry but comments and strings stops at white space and at line breaks. -/
theorem stopsAt_white {e : Entry} (he : e ∈ entries) :
    e = comment ∨ e = string ∨ StopsAt white e.length? := by
  simp only [entries, List.mem_append, List.mem_cons, List.mem_map] at he
  rcases he with (rfl | rfl | ⟨⟨p, k⟩, hp, rfl⟩) | rfl | ⟨⟨x, k⟩, hx, rfl⟩
  · exact .inl rfl
  · exact .inr (.inl rfl)
  · exact .inr (.inr (Pattern.stopsAt (links_even _ hp)))
  · exact .inr (.inr (word_stopsAt isWord_white))
  · exact .inr (.inr (Pattern.stopsAt (punctuation_even _ hx)))

/-- Every entry stops at line breaks. -/
theorem stopsAt_breaks {e : Entry} (he : e ∈ entries) : StopsAt breaks e.length? := by
  have hbreaks : ∀ w ∈ breaks, isBreak w := fun w hw => isBreak_iff_mem.mpr hw
  rcases stopsAt_white he with rfl | rfl | h
  · exact comment_stopsAt hbreaks
  · exact string_stopsAt hbreaks
  · exact fun l w hw w' hw' => h l w (breaks_subset_white hw) w' (breaks_subset_white hw')

end Lexicon

namespace Slice
variable {c w w' : Char} {l s : List Char}

theorem breakLength?_of_unbroken (hc : isBreak c = false) (s : List Char) :
    breakLength? (c :: s) = none := by
  unfold breakLength?
  split <;> simp_all [isBreak]

/-- What is spelled at the head of two texts from which all entries take the same, from what is common
to both. -/
private theorem spelled?_stop (c : Char) (l t t' : List Char)
    (h : ∀ e ∈ entries, e.length? (c :: (l ++ t)) = e.length? (c :: (l ++ t')) ∧
      ∀ n ∈ e.length? (c :: (l ++ t)), n ≤ (c :: l).length) :
    spelled? (c :: (l ++ t)) = spelled? (c :: (l ++ t')) ∧
      ∀ slice ∈ spelled? (c :: (l ++ t)), slice.span <+: c :: l := by
  have htake : ∀ (t : List Char) {n : Nat}, n ≤ (c :: l).length →
      (c :: (l ++ t)).take n = (c :: l).take n := fun t _ hn => List.take_append_of_le_length hn
  constructor
  · rw [spelled?, spelled?, ← List.head?_filterMap, ← List.head?_filterMap]
    refine congrArg List.head? (List.filterMap_congr fun e he => ?_)
    obtain ⟨heq, hle⟩ := h e he
    rw [← heq]
    exact Option.map_congr fun n hn => by rw [htake t (hle n hn), htake t' (hle n hn)]
  · intro slice hslice
    obtain ⟨e, he, hread⟩ := List.exists_of_findSome?_eq_some hslice
    obtain ⟨n, hn, rfl⟩ := Option.map_eq_some_iff.mp hread
    rw [htake t ((h e he).2 n hn)]
    exact List.take_prefix n (c :: l)

theorem cut_of_spelled? (hc : isBreak c = false) (hgap : isGap c = false) (s : List Char) :
    cut c s = (spelled? (c :: s)).getD ⟨[c], some (.unknown, [c])⟩ := by
  rw [cut, if_neg (by simp [hgap]), breakLength?_of_unbroken hc]

/-- A slice that is no comment and no string begins like neither. -/
theorem length?_eq_none (hc : isBreak c = false) (hgap : isGap c = false)
    (hk : ∀ said ∈ (cut c s).token?, said.1 ≠ .comment ∧ said.1 ≠ .string) :
    comment.length? (c :: s) = none ∧ string.length? (c :: s) = none := by
  have hentries : spelled? (c :: s) = entries.findSome? (Entry.slice? · (c :: s)) := rfl
  rw [cut_of_spelled? hc hgap, hentries, entries, List.cons_append, List.cons_append,
    List.findSome?_cons, List.findSome?_cons, Entry.slice?, Entry.slice?] at hk
  cases hremark : comment.length? (c :: s) with
  | some n =>
    rw [hremark] at hk
    exact absurd rfl (hk _ rfl).1
  | none =>
    cases hquoted : string.length? (c :: s) with
    | some n =>
      rw [hremark, hquoted] at hk
      exact absurd rfl (hk _ rfl).2
    | none => exact ⟨rfl, rfl⟩

/-- The first slice of a line, whichever break comes behind the line and whatever behind that; it lies
on the line. -/
theorem cut_break (hc : isBreak c = false) (hw : isBreak w) (hw' : isBreak w') (rest rest' : List Char) :
    cut c (l ++ w :: rest) = cut c (l ++ w' :: rest') ∧ (cut c (l ++ w :: rest)).span <+: c :: l := by
  have hgap : ∀ {w}, isBreak w → isGap w = false := by
    intro w hw
    rcases List.mem_pair.mp (isBreak_iff_mem.mp hw) with rfl | rfl <;> decide
  cases hg : isGap c with
  | true =>
    rw [cut, cut, if_pos hg, if_pos hg, takeWhile_stop (hgap hw), takeWhile_stop (hgap hw')]
    exact ⟨rfl, (List.prefix_cons_inj c).mpr (List.takeWhile_prefix _)⟩
  | false =>
    obtain ⟨hspelled, hleads⟩ := spelled?_stop c l (w :: rest) (w' :: rest') fun e he =>
      stopsAt_breaks he (c :: l) w (isBreak_iff_mem.mp hw) w' (isBreak_iff_mem.mp hw') rest rest'
    rw [cut_of_spelled? hc hg, cut_of_spelled? hc hg, ← hspelled]
    refine ⟨rfl, ?_⟩
    cases hs : spelled? (c :: (l ++ w :: rest)) with
    | none => exact List.prefix_append [c] l
    | some slice => exact hleads slice hs

private theorem comment_none (hw' : w' ≠ '%') {rest : List Char}
    (h : comment.length? (l ++ w :: rest) = none) (rest' : List Char) :
    comment.length? (l ++ w' :: rest') = none := by
  rcases l with _ | ⟨c, _ | ⟨d, l⟩⟩
  · simp [comment, hw']
  · simp [comment, hw']
  · have hne : ¬ (c = '%' ∧ d = '%') := by
      rintro ⟨rfl, rfl⟩
      simp [comment] at h
    simp only [List.cons_append, comment]
    split <;> simp_all

private theorem string_none {rest : List Char} (h : string.length? (c :: rest) = none)
    (rest' : List Char) : string.length? (c :: rest') = none := by
  have hc : c ≠ '"' := by
    rintro rfl
    simp [string] at h
  simp [string, hc]

/-- The first slice of a text, if that is no comment and no string, whichever white space comes behind
it and whatever behind that. -/
theorem cut_white (hc : isBreak c = false) (hgap : isGap c = false) (hw : w ∈ white) (hw' : w' ∈ white)
    {rest : List Char}
    (hk : ∀ said ∈ (cut c (l ++ w :: rest)).token?, said.1 ≠ .comment ∧ said.1 ≠ .string)
    (rest' : List Char) : cut c (l ++ w' :: rest') = cut c (l ++ w :: rest) := by
  have hpercent : w' ≠ '%' := by
    rintro rfl
    exact absurd hw' (by decide)
  obtain ⟨hcomment, hstring⟩ := length?_eq_none hc hgap hk
  have hcomment' := comment_none (l := c :: l) hpercent hcomment rest'
  have hspelled := (spelled?_stop c l (w :: rest) (w' :: rest') fun e he => by
    rcases stopsAt_white he with rfl | rfl | h
    · exact ⟨hcomment.trans hcomment'.symm, by simp [hcomment]⟩
    · exact ⟨hstring.trans (string_none hstring _).symm, by simp [hstring]⟩
    · exact h (c :: l) w hw w' hw' rest rest').1
  rw [cut_of_spelled? hc hgap, cut_of_spelled? hc hgap, hspelled]

end Slice
end Mermaid
