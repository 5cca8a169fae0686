import Mathlib.Data.List.MinMax
import Mermaid.Proofs.Token.Breaks
import Mermaid.Proofs.Token.Route
import Mermaid.Proofs.Token.Words

/-! The longest match. The lexicon is searched for the first entry that matches, and that entry takes
more of the text than any other that matches: what is found does not depend on the order of the lexicon,
if only the longest match is looked for. -/
namespace Mermaid
open Lexicon Text

namespace Lexicon

/-- Wherever both match, the first entry takes more. -/
def Entry.Beats (e f : Entry) : Prop :=
  ∀ s n m, e.length? s = some n → f.length? s = some m → m < n

/-- A text does not begin with two different characters. -/
private theorem heads_apart {p q : Char → Bool} {s : List Char} (h : ∀ c, p c → q c = false)
    (hp : s.head?.any p) (hq : s.head?.any q) : False := by
  cases s with
  | nil => cases hp
  | cons c s =>
    rw [List.head?_cons, Option.any_some] at hp hq
    rw [h c hp] at hq
    cases hq

private theorem apart_of_eq {d : Char} {q : Char → Bool} (hq : q d = false) (c : Char) (hc : c == d) :
    q c = false := beq_iff_eq.mp hc ▸ hq

/-- Where an entry takes no less than a pattern that outruns another, it beats that one. -/
private theorem beats_of_outruns {e : Entry} {p q : Pattern} {kind : TokenKind}
    (he : ∀ s n, e.length? s = some n → ∃ k ≤ n, p.length? s = some k) (h : p.outruns q) :
    e.Beats (ofPattern kind q) := by
  intro s n m hn hm
  obtain ⟨k, hk, hp⟩ := he s n hn
  exact (Pattern.lt_of_outruns h hp hm).trans_le hk

section heads

private theorem comment_starts {s : List Char} {n : Nat} (h : comment.length? s = some n) :
    ∃ k ≤ n, ("%%" : Pattern).length? s = some k := by
  simp only [comment] at h
  split at h
  · obtain rfl := Option.some.inj h
    exact ⟨2, Nat.le_add_right _ _, by simp [Pattern.length?]⟩
  · cases h

private theorem string_starts {s : List Char} {n : Nat} (h : string.length? s = some n) :
    ∃ k ≤ n, ("\"" : Pattern).length? s = some k := by
  simp only [string] at h
  split at h
  · obtain rfl := Option.some.inj h
    exact ⟨1, by omega, by simp [Pattern.length?]⟩
  · cases h

private theorem head_of_pattern {c : Char} {chars : List Char} {s : List Char} {n : Nat}
    (h : (Pattern.text (c :: chars)).length? s = some n) : s.head?.any (· == c) := by
  simp only [Pattern.length?, Option.ite_none_right_eq_some] at h
  obtain ⟨rest, rfl⟩ := List.isPrefixOf_iff_prefix.mp h.1
  simp

private theorem head_of_comment {s : List Char} {n : Nat} (h : comment.length? s = some n) :
    s.head?.any (· == '%') := by
  obtain ⟨k, -, hk⟩ := comment_starts h
  exact head_of_pattern hk

private theorem head_of_string {s : List Char} {n : Nat} (h : string.length? s = some n) :
    s.head?.any (· == '"') := by
  obtain ⟨k, -, hk⟩ := string_starts h
  exact head_of_pattern hk

private theorem head_of_word {s : List Char} {n : Nat} (h : word.length? s = some n) :
    s.head?.any isWord := by
  rw [word] at h
  exact (Option.ite_none_right_eq_some.mp h).1

private theorem head_of_punctuation {e : String × TokenKind} (he : e ∈ punctuation) {s : List Char}
    {n : Nat} (h : (e.1 : Pattern).length? s = some n) : s.head?.any (!isWord ·) := by
  have hheads : ∀ e ∈ punctuation, e.1.toList.head?.any (!isWord ·) := by decide
  have hhead := hheads e he
  cases hchars : e.1.toList with
  | nil => simp [hchars] at hhead
  | cons c chars =>
    rw [hchars] at h hhead
    have hc := head_of_pattern h
    cases s with
    | nil => cases hc
    | cons d s =>
      obtain rfl : d = c := by simpa using hc
      exact hhead

private theorem isWord_percent : isWord '%' = false := by decide

private theorem isWord_quote : isWord '"' = false := by decide

end heads

/-- A link that begins as a word does, with the letter `o`, goes on with hyphens, as no word does. -/
private theorem link_before_word {e : Pattern × TokenKind} (he : e ∈ links) {s : List Char} {n m : Nat}
    (hn : e.1.length? s = some n) (hm : word.length? s = some m) : 2 ≤ n ∧ m = 1 := by
  obtain ⟨c, s, rfl⟩ : ∃ c t, s = c :: t :=
    List.exists_cons_of_ne_nil (by rintro rfl; exact absurd (head_of_word hm) (by simp))
  have hword : isWord c := head_of_word hm
  have hlink : link? (c :: s) ≠ none := by
    intro hnone
    have hpattern := Option.map_eq_none_iff.mp (List.findSome?_eq_none_iff.mp hnone e he)
    exact absurd (hn.symm.trans hpattern) (by simp)
  obtain ⟨r, rfl⟩ : ∃ r, s = '-' :: '-' :: r := by
    by_contra hs
    exact hlink (link?_of_isWord hword fun r hr => hs ⟨r, hr⟩)
  have hhyphen : isWord '-' = false := by decide
  have hleast : ∀ e ∈ links, 2 ≤ e.1.least := by decide
  refine ⟨(Pattern.length?_spec hn).1.trans' (hleast e he), ?_⟩
  simpa [word, hword, wordLength, hhyphen, argumentLength] using hm.symm

private theorem links_outrun : links.Pairwise fun e f => e.1.outruns f.1 := by decide

private theorem links_outrun_punctuation : ∀ e ∈ links, ∀ f ∈ punctuation, e.1.outruns f.1 := by decide

private theorem punctuation_outruns : punctuation.Pairwise fun e f => (e.1 : Pattern).outruns f.1 := by
  decide +kernel

private theorem marks_outrun : ∀ p ∈ ["%%", "\""],
    (∀ e ∈ links, (p : Pattern).outruns e.1) ∧ ∀ e ∈ punctuation, (p : Pattern).outruns e.1 := by
  decide

/-- No entry takes less than one behind it, or as much, where both match. -/
theorem entries_pairwise : entries.Pairwise Entry.Beats := by
  have hpattern : ∀ {kind : TokenKind} (p : Pattern) s n,
      (ofPattern kind p).length? s = some n → ∃ k ≤ n, p.length? s = some k :=
    fun p s n h => ⟨n, le_refl n, h⟩
  have hcomment := marks_outrun "%%" (by simp)
  have hstring := marks_outrun "\"" (by simp)
  simp only [entries, List.cons_append, List.pairwise_cons, List.pairwise_append, List.pairwise_map,
    List.forall_mem_append, List.forall_mem_cons, List.forall_mem_map]
  refine ⟨⟨?_, fun e he => beats_of_outruns (fun _ _ => comment_starts) (hcomment.1 e he), ?_,
      fun e he => beats_of_outruns (fun _ _ => comment_starts) (hcomment.2 e he)⟩,
    ⟨fun e he => beats_of_outruns (fun _ _ => string_starts) (hstring.1 e he), ?_,
      fun e he => beats_of_outruns (fun _ _ => string_starts) (hstring.2 e he)⟩,
    links_outrun.imp fun h => beats_of_outruns (hpattern _) h,
    ⟨fun e he => ?_, punctuation_outruns.imp fun h => beats_of_outruns (hpattern _) h⟩,
    fun e he => ⟨fun s n m hn hm => by have := link_before_word he hn hm; omega,
      fun f hf => beats_of_outruns (hpattern _) (links_outrun_punctuation e he f hf)⟩⟩
  · exact fun s n m hn hm =>
      (heads_apart (apart_of_eq rfl) (head_of_comment hn) (head_of_string hm)).elim
  · exact fun s n m hn hm =>
      (heads_apart (apart_of_eq isWord_percent) (head_of_comment hn) (head_of_word hm)).elim
  · exact fun s n m hn hm =>
      (heads_apart (apart_of_eq isWord_quote) (head_of_string hn) (head_of_word hm)).elim
  · exact fun s n m hn hm =>
      (heads_apart (by simp) (head_of_word hn) (head_of_punctuation he hm)).elim

/-- Where a word of two characters or more can be taken, nothing else can. -/
theorem eq_word_of_length {e : Entry} (he : e ∈ entries) {s : List Char} {n m : Nat}
    (hn : e.length? s = some n) (hm : word.length? s = some m) (hlong : 2 ≤ m) : e = word := by
  have hword := head_of_word hm
  simp only [entries, List.mem_append, List.mem_cons, List.mem_map] at he
  rcases he with (rfl | rfl | ⟨e, hp, rfl⟩) | rfl | ⟨e, hx, rfl⟩
  · exact (heads_apart (apart_of_eq isWord_percent) (head_of_comment hn) hword).elim
  · exact (heads_apart (apart_of_eq isWord_quote) (head_of_string hn) hword).elim
  · have := link_before_word hp hn hm
    omega
  · rfl
  · exact (heads_apart (by simp) hword (head_of_punctuation hx hn)).elim

/-- The slice that the entry of the table takes that takes most. -/
def longest? (table : List Entry) (s : List Char) : Option Slice :=
  (table.filterMap (Entry.slice? · s)).argmax (·.span.length)

/-- The slice that the first entry of the table takes that takes any. -/
def first? (table : List Entry) (s : List Char) : Option Slice := table.findSome? (Entry.slice? · s)

/-- Where each entry beats those behind it, the first one that takes any of a text takes more than every
other. -/
theorem exists_of_first? {table : List Entry} (hbeats : table.Pairwise Entry.Beats) (htable : table ⊆ entries)
    {s : List Char} {slice : Slice} (h : first? table s = some slice) :
    ∃ before e behind, table = before ++ e :: behind ∧ e.length? s = some slice.span.length ∧
      slice = ⟨slice.span, some (e.read slice.span)⟩ ∧ slice.span <+: s ∧
      ∀ f ∈ before ++ behind, ∀ n, f.length? s = some n → n < slice.span.length := by
  obtain ⟨before, e, behind, rfl, hslice, hbefore⟩ := List.findSome?_eq_some_iff.mp h
  obtain ⟨n, hn, rfl⟩ := Option.map_eq_some_iff.mp hslice
  have he : e ∈ entries := htable (List.mem_append_right _ List.mem_cons_self)
  have hlength : (s.take n).length = n := List.length_take_of_le (length_le he hn)
  rw [List.pairwise_append, List.pairwise_cons] at hbeats
  refine ⟨before, e, behind, rfl, by rw [hlength, hn], rfl, List.take_prefix n s, ?_⟩
  intro f hf m hm
  rw [hlength]
  rcases List.mem_append.mp hf with hf | hf
  · rw [Option.map_eq_none_iff.mp (hbefore f hf)] at hm
    cases hm
  · exact hbeats.2.1.1 f hf s n m hn hm

/-- What is spelled at the head of a text is what one entry takes, and every other takes less of it. -/
theorem exists_of_spelled? {s : List Char} {slice : Slice} (h : Slice.spelled? s = some slice) :
    ∃ before e behind, entries = before ++ e :: behind ∧ e.length? s = some slice.span.length ∧
      slice = ⟨slice.span, some (e.read slice.span)⟩ ∧ slice.span <+: s ∧
      ∀ f ∈ before ++ behind, ∀ n, f.length? s = some n → n < slice.span.length :=
  exists_of_first? entries_pairwise (List.Subset.refl _) h

theorem argmax_of_lt {α : Type} {l : List α} {size : α → Nat} {a : α} (ha : a ∈ l)
    (h : ∀ b ∈ l, b = a ∨ size b < size a) : l.argmax size = some a := by
  cases hmax : l.argmax size with
  | none => exact absurd (List.argmax_eq_none.mp hmax) (List.ne_nil_of_mem ha)
  | some b =>
    have hle := List.le_of_mem_argmax ha hmax
    exact congrArg some ((h b (List.argmax_mem hmax)).resolve_right hle.not_gt)

/-- The longest match is the first one of a table of the same entries where each beats those behind it. -/
theorem longest?_eq_first? {table sorted : List Entry} (h : table.Perm sorted)
    (hbeats : sorted.Pairwise Entry.Beats) (hsorted : sorted ⊆ entries) : longest? table = first? sorted := by
  funext s
  cases hs : first? sorted s with
  | none =>
    have hnone : table.filterMap (Entry.slice? · s) = [] := by
      rw [List.filterMap_eq_nil_iff]
      exact fun e he => List.findSome?_eq_none_iff.mp hs e (h.mem_iff.mp he)
    rw [longest?, hnone, List.argmax_nil]
  | some slice =>
    obtain ⟨before, e, behind, rfl, hn, hslice, hspan, hless⟩ := exists_of_first? hbeats hsorted hs
    have htake : s.take slice.span.length = slice.span := (List.prefix_iff_eq_take.mp hspan).symm
    have he : e.slice? s = some slice := by rw [Entry.slice?, hn, Option.map_some, htake, ← hslice]
    have hmem : ∀ f, f ∈ table ↔ f = e ∨ f ∈ before ++ behind := fun f => by
      rw [h.mem_iff]
      simp [or_left_comm]
    refine argmax_of_lt (List.mem_filterMap.mpr ⟨e, (hmem e).mpr (.inl rfl), he⟩) fun x hx => ?_
    obtain ⟨f, hf, hfx⟩ := List.mem_filterMap.mp hx
    rcases (hmem f).mp hf with rfl | hf
    · exact .inl (Option.some.inj (hfx.symm.trans he))
    · obtain ⟨m, hm, rfl⟩ := Option.map_eq_some_iff.mp hfx
      exact .inr ((List.length_take_le _ _).trans_lt (hless f hf m hm))

theorem longest?_eq_spelled? {table : List Entry} (h : table.Perm entries) :
    longest? table = Slice.spelled? :=
  longest?_eq_first? h entries_pairwise (List.Subset.refl _)

end Lexicon

namespace Slice

/-- The first slice of the text that begins with `c`, where tokens are looked for by `spell?`. -/
def cutBy (spell? : List Char → Option Slice) (c : Char) (s : List Char) : Slice :=
  if isGap c then ⟨c :: s.takeWhile isGap, none⟩
  else match breakLength? (c :: s) with
    | some n => ⟨(c :: s).take n, some (.newline, ['\n'])⟩
    | none => (spell? (c :: s)).getD ⟨[c], some (.unknown, [c])⟩

/-- The slices of a text past its first `skip` characters, where tokens are looked for by `spell?`. -/
def ofTextBy (spell? : List Char → Option Slice) : Nat → List Char → List Slice
  | _, [] => []
  | skip + 1, _ :: s => ofTextBy spell? skip s
  | 0, c :: s => cutBy spell? c s :: ofTextBy spell? ((cutBy spell? c s).span.length - 1) s

theorem ofTextBy_spelled? (skip : Nat) (s : List Char) : ofTextBy spelled? skip s = ofTextAfter skip s := by
  induction s generalizing skip with
  | nil => cases skip <;> rfl
  | cons c s ih =>
    cases skip with
    | zero => exact congrArg (cut c s :: ·) (ih _)
    | succ skip => exact ih skip

end Slice

/-- The tokens of a text and the one for its end, where tokens are looked for by `spell?`. -/
def scanBy (spell? : List Char → Option Slice) (text : String) : List Token :=
  let slices := Slice.ofTextBy spell? 0 text.toList
  Mark.start.tokens slices ++ [⟨.eof, "", (slices.foldl Mark.past Mark.start).position⟩]

theorem scanBy_spelled? (text : String) : scanBy Slice.spelled? text = scan text := by
  rw [scanBy, Slice.ofTextBy_spelled?]
  rfl

namespace Slice

/-- What is cut off the text that begins with `c` is its longest match. -/
structure LongestMatch (c : Char) (s : List Char) : Prop where
  /-- It is what one entry takes, and every other takes less; or no entry takes any. -/
  taken : (∃ before e behind, entries = before ++ e :: behind ∧
      e.length? (c :: s) = some (cut c s).span.length ∧
      cut c s = ⟨(cut c s).span, some (e.read (cut c s).span)⟩ ∧
      ∀ f ∈ before ++ behind, ∀ n, f.length? (c :: s) = some n → n < (cut c s).span.length) ∨
    (∀ e ∈ entries, e.length? (c :: s) = none) ∧ cut c s = ⟨[c], some (.unknown, [c])⟩
  unknown : (∃ lexeme, (cut c s).token? = some (.unknown, lexeme)) ↔ ∀ e ∈ entries, e.length? (c :: s) = none
  /-- A reserved kind is that of the whole of the longest word. -/
  reserved : ∀ kind ∈ TokenKind.reserved.map (·.2), (∃ lexeme, (cut c s).token? = some (kind, lexeme)) ↔
    ∃ w : Word, w.Longest (c :: s) ∧ TokenKind.reserved.lookup w.text = some kind

variable {c : Char} {s : List Char}

/-- An unknown character is what no entry takes. -/
private theorem unknown_iff (hgap : isGap c = false) (hc : isBreak c = false) :
    (∃ lexeme, (cut c s).token? = some (.unknown, lexeme)) ↔ ∀ e ∈ entries, e.length? (c :: s) = none := by
  constructor
  · rintro ⟨lexeme, hsaid⟩
    have hkinds : TokenKind.unknown ∉ .comment :: Piece.kinds := by decide
    cases hs : spelled? (c :: s) with
    | none => exact fun e he => Option.map_eq_none_iff.mp (List.findSome?_eq_none_iff.mp hs e he)
    | some slice =>
      obtain ⟨before, e, behind, hentries, -, hslice, -⟩ := exists_of_spelled? hs
      rw [cut_of_spelled? hc hgap, hs, Option.getD_some, hslice] at hsaid
      have hkind : (e.read slice.span).1 = .unknown := congrArg Prod.fst (Option.some.inj hsaid)
      have hread := read_kind (hentries ▸ List.mem_append_right _ List.mem_cons_self : e ∈ entries) slice.span
      exact absurd (hkind ▸ hread) hkinds
  · intro hnone
    have hs : spelled? (c :: s) = none :=
      List.findSome?_eq_none_iff.mpr fun e he => Option.map_eq_none_iff.mpr (hnone e he)
    rw [cut_of_spelled? hc hgap, hs]
    exact ⟨_, rfl⟩

/-- A text whose longest word is reserved begins with that word, and with its kind. -/
private theorem reserved_iff (hgap : isGap c = false) (hc : isBreak c = false) {kind : TokenKind}
    (hk : kind ∈ TokenKind.reserved.map (·.2)) : (∃ lexeme, (cut c s).token? = some (kind, lexeme)) ↔
      ∃ w : Word, w.Longest (c :: s) ∧ TokenKind.reserved.lookup w.text = some kind := by
  have hplain : kind ≠ .newline ∧ kind ≠ .unknown ∧ kind ≠ .identifier := by
    have hkinds : ∀ k ∈ TokenKind.reserved.map (·.2), k ≠ .newline ∧ k ≠ .unknown ∧ k ≠ .identifier := by
      decide
    exact hkinds kind hk
  constructor
  · rintro ⟨lexeme, hsaid⟩
    obtain ⟨e, he, n, hn, hcut⟩ := exists_entry hsaid hplain.1 hplain.2.1
    have hkind : (e.read ((c :: s).take n)).1 = kind := by
      rw [hcut] at hsaid
      exact congrArg Prod.fst (Option.some.inj hsaid)
    obtain rfl := eq_word_of_kind he (hkind ▸ List.mem_cons_of_mem _ hk)
    obtain ⟨w, hw, rfl⟩ := Word.length?_eq_some_iff.mp hn
    have hchars : (c :: s).take w.chars.length = w.chars := (List.prefix_iff_eq_take.mp hw.1).symm
    have hof : TokenKind.ofWord w.text = kind := by
      rw [hchars] at hkind
      exact hkind
    refine ⟨w, hw, ?_⟩
    rw [TokenKind.ofWord] at hof
    cases hlookup : TokenKind.reserved.lookup w.text with
    | none =>
      rw [hlookup] at hof
      exact absurd hof.symm hplain.2.2
    | some k =>
      rw [hlookup] at hof
      exact congrArg some hof
  · rintro ⟨w, hw, hlookup⟩
    have hm := Word.length?_eq_some_iff.mpr ⟨w, hw, rfl⟩
    have hlong : 2 ≤ w.chars.length := by
      have hwords : ∀ x ∈ TokenKind.reserved, 2 ≤ x.1.length := by decide
      obtain ⟨before, behind, hreserved, -⟩ := List.lookup_eq_some_iff.mp hlookup
      have hlength := hwords (w.text, kind) (hreserved ▸ by simp)
      rwa [Word.text, String.length_ofList] at hlength
    rw [cut_of_spelled? hc hgap]
    cases hs : spelled? (c :: s) with
    | none =>
      have hword : word ∈ entries := by simp [entries]
      rw [Option.map_eq_none_iff.mp (List.findSome?_eq_none_iff.mp hs word hword)] at hm
      cases hm
    | some slice =>
      obtain ⟨before, e, behind, hentries, hn, hslice, hspan, -⟩ := exists_of_spelled? hs
      obtain rfl := eq_word_of_length (hentries ▸ List.mem_append_right _ List.mem_cons_self) hn hm hlong
      have hchars : slice.span = w.chars :=
        (List.prefix_of_prefix_length_le hspan hw.1 (Option.some.inj (hn.symm.trans hm)).le).eq_of_length
          (Option.some.inj (hn.symm.trans hm))
      have hof : TokenKind.ofWord w.text = kind := by rw [TokenKind.ofWord, hlookup, Option.getD_some]
      refine ⟨w.chars, ?_⟩
      rw [Option.getD_some, hslice, hchars, ← hof]
      rfl

theorem longestMatch (hgap : isGap c = false) (hc : isBreak c = false) : LongestMatch c s := by
  refine ⟨?_, unknown_iff hgap hc, fun kind hk => reserved_iff hgap hc hk⟩
  rw [cut_of_spelled? hc hgap]
  cases hs : spelled? (c :: s) with
  | none =>
    exact .inr ⟨fun e he => Option.map_eq_none_iff.mp (List.findSome?_eq_none_iff.mp hs e he), rfl⟩
  | some slice =>
    obtain ⟨before, e, behind, hentries, hn, hslice, -, hless⟩ := exists_of_spelled? hs
    exact .inl ⟨before, e, behind, hentries, hn, hslice, hless⟩

end Slice

/-- Where neither white space nor a line break comes next, a step of the scan takes the longest match, and
the lexicon may stand in any order if the longest match is looked for. If the first one is looked for, it may
stand in any order in which each entry beats those behind it, as it does. -/
theorem scan_longest :
    (∀ (text : List Char) (m : Mark) (c : Char) (s : List Char), text.drop m.offset = c :: s →
      Slice.isGap c = false → isBreak c = false →
        m.step? text = some (m.token? (Slice.cut c s), m.past (Slice.cut c s)) ∧ Slice.LongestMatch c s) ∧
    ∀ table : List Entry, table.Perm entries → ∀ text, scanBy (longest? table) text = scan text ∧
      (table.Pairwise Entry.Beats → scanBy (first? table) text = scan text) := by
  refine ⟨fun text m c s htext hgap hc => ⟨?_, Slice.longestMatch hgap hc⟩, fun table h text => ⟨?_, ?_⟩⟩
  · rw [Mark.step?, htext]
  · rw [longest?_eq_spelled? h, scanBy_spelled?]
  · intro hbeats
    rw [← longest?_eq_first? (.refl _) hbeats h.subset, longest?_eq_spelled? h, scanBy_spelled?]

/-- The lexicon with its links in the reverse of their order, the least specific ones first. -/
def Lexicon.reversedLinks : List Entry :=
  comment :: string :: links.reverse.map (fun (p, kind) => ofPattern kind p) ++
    word :: punctuation.map fun (s, kind) => ofPattern kind s

theorem Lexicon.reversedLinks_perm : reversedLinks.Perm entries :=
  (((links.reverse_perm.map _).append_right _).cons string).cons comment

/-- A link of three hyphens, which is the longest match whatever the order of the links. -/
theorem scan_longest_reversedLinks :
    let m : Mark := ⟨2, 1, 0⟩
    let dashes := Slice.cut '-' "-- B".toList
    m.step? "A --- B".toList = some (m.token? dashes, m.past dashes) ∧
      Slice.LongestMatch '-' "-- B".toList ∧ dashes.span = ['-', '-', '-'] ∧
      scanBy (longest? reversedLinks) "A --- B" = scan "A --- B" ∧
      scanBy (first? entries) "A --- B" = scan "A --- B" := by
  intro m dashes
  obtain ⟨hsteps, htables⟩ := scan_longest
  obtain ⟨hstep, hlongest⟩ := hsteps "A --- B".toList m '-' "-- B".toList rfl (by decide) (by decide)
  exact ⟨hstep, hlongest, by decide +kernel, (htables _ reversedLinks_perm _).1,
    (htables _ (.refl _) _).2 entries_pairwise⟩

/-- The scan looks for the first match. With the same links in another order it would find two hyphens where
there are three, so the order of the lexicon matters to it. -/
theorem scanBy_reversedLinks_ne :
    reversedLinks.Perm entries ∧ scanBy (first? entries) = scan ∧
    (scan "A --- B").map (fun t => (t.kind, t.lexeme)) =
      [(.identifier, "A"), (.solidLine, "---"), (.identifier, "B"), (.eof, "")] ∧
    (scanBy (first? reversedLinks) "A --- B").map (fun t => (t.kind, t.lexeme)) =
      [(.identifier, "A"), (.solidLink, "--"), (.minus, "-"), (.identifier, "B"), (.eof, "")] := by
  refine ⟨reversedLinks_perm, funext scanBy_spelled?, ?_, ?_⟩
  · decide +kernel
  · decide +kernel

end Mermaid
