import Mermaid.ClassDiagram.Member
import Mermaid.Proofs.Token.Part
import Mermaid.Proofs.Token.Rounds

/-! Parameters of methods. They are passed over by counting the parentheses of their tokens, but those
that links end in are not counted. -/
namespace Mermaid.ClassDiagram
open Lexicon

/-- The links that end in a parenthesis. -/
def endsInRound : TokenKind → Bool
  | .solidOpen | .dottedOpen => true
  | _ => false

namespace MemberLine

/-- The parentheses of all tokens are counted, but for those that links end in. -/
theorem depth_eq (k : TokenKind) : depth k = k.rounds + if endsInRound k then 1 else 0 := by
  cases k <;> rfl

/-- How many of the parentheses are not counted. -/
def uncounted (ts : List Token) : Nat := ts.countP (endsInRound ·.kind)

theorem uncounted_cons (t : Token) (ts : List Token) : uncounted (t :: ts) = uncounted [t] + uncounted ts := by
  simp only [uncounted, List.countP_cons, List.countP_nil]
  omega

/-- What is read behind parameters that close what was opened: each parenthesis that is not counted seems
to be open still. -/
def beyond (missed : Nat) (ts : List Token) : List Token :=
  if missed = 0 then ts else pastParameters missed ts

private theorem ite_beyond (missed : Nat) (ts : List Token) :
    (if (missed : Int) ≤ 0 then ts else pastParameters missed ts) = beyond missed ts := by
  rw [beyond]
  simp only [Int.natCast_nonpos_iff]

private theorem pastParameters_token {t : Token} (hnewline : t.kind ≠ .newline) (hcurly : t.kind ≠ .closeCurly)
    (opened : Int) (missed : Nat) (us : List Token) : pastParameters (opened + missed) (t :: us) =
      if opened + t.kind.rounds + (missed + uncounted [t] : Nat) ≤ 0 then us
      else pastParameters (opened + t.kind.rounds + (missed + uncounted [t] : Nat)) us := by
  have hdepth : opened + missed + depth t.kind =
      opened + t.kind.rounds + (missed + uncounted [t] : Nat) := by
    simp only [depth_eq, uncounted, List.countP_singleton]
    split <;> push_cast <;> omega
  rw [pastParameters, if_neg (by simp [hnewline, hcurly]), hdepth]

/-- A slice on a line of a class, which shows as many parentheses as its token stands for. -/
structure Counts (s : Slice) : Prop where
  span : s.span ≠ []
  rounds : Mermaid.rounds s.span = (s.token?.map (·.1.rounds)).getD 0
  kind : ∀ said ∈ s.token?, said.1 ≠ .newline ∧ said.1 ≠ .closeCurly

/-- Slices are passed over that close what was opened at their end, and not before. -/
theorem pastParameters_slices {slices : List Slice} (hslices : ∀ s ∈ slices, Counts s)
    (opened : Int) (hopened : 0 < opened)
    (hinside : ∀ l, l <+: slices.flatMap (·.span) → l ≠ slices.flatMap (·.span) → 0 < opened + rounds l)
    (hclosed : opened + rounds (slices.flatMap (·.span)) = 0) (m : Mark) (missed : Nat) (more : List Token) :
    pastParameters (opened + missed) (m.tokens slices ++ more) =
      beyond (missed + uncounted (m.tokens slices)) more := by
  -- The count is what the text has opened and what the tokens have failed to close. It comes to nothing where
  -- the text is closed, unless something is missed by then.
  induction slices generalizing opened m missed with
  | nil =>
    have hnil : opened + 0 = 0 := hclosed
    omega
  | cons s slices ih =>
    obtain ⟨⟨-, hround, hkind⟩, hslices⟩ := List.forall_mem_cons.mp hslices
    rw [List.flatMap_cons] at hinside hclosed
    have hopen : slices = [] ∨ 0 < opened + rounds s.span := by
      cases slices with
      | nil => exact .inl rfl
      | cons t slices =>
        have ht := hslices t List.mem_cons_self
        refine .inr (hinside _ (List.prefix_append _ _) fun h => ht.span ?_)
        rw [List.self_eq_append_right, List.flatMap_cons, List.append_eq_nil_iff] at h
        exact h.1
    have hinside : ∀ l, l <+: slices.flatMap (·.span) → l ≠ slices.flatMap (·.span) →
        0 < opened + rounds s.span + rounds l := by
      intro l hl hne
      rw [Int.add_assoc, ← rounds_append]
      exact hinside _ ((List.prefix_append_right_inj _).mpr hl) (mt List.append_cancel_left hne)
    have hclosed : opened + rounds s.span + rounds (slices.flatMap (·.span)) = 0 := by
      rw [Int.add_assoc, ← rounds_append, hclosed]
    cases hs : s.token? with
    | none =>
      have hzero : rounds s.span = 0 := by simpa [hs] using hround
      have htokens : m.tokens (s :: slices) = (m.past s).tokens slices := by
        simp [Mark.tokens, Mark.token?, hs]
      rw [hzero, Int.add_zero] at hinside hclosed
      rw [htokens, ih hslices _ hopened hinside hclosed]
    | some said =>
      obtain ⟨hnewline, hcurly⟩ := hkind said hs
      have hrounds : rounds s.span = said.1.rounds := by simpa [hs] using hround
      let t : Token := ⟨said.1, String.ofList said.2, m.position⟩
      have htokens : m.tokens (s :: slices) = t :: (m.past s).tokens slices := by
        simp [Mark.tokens, Mark.token?, hs, t]
      rw [htokens, List.cons_append, pastParameters_token (t := t) hnewline hcurly, ← hrounds,
        uncounted_cons t ((m.past s).tokens slices), ← Nat.add_assoc]
      rcases hopen with rfl | hopen
      · have hdone : opened + rounds s.span = 0 := by
          simpa [rounds] using hclosed
        rw [hdone, Int.zero_add]
        exact ite_beyond _ _
      · rw [if_neg (by omega), ih hslices _ hopen hinside hclosed]

/-- Only a brace is read as one. -/
private theorem brace_mem {c : Char} {s : List Char} {said : TokenKind × List Char}
    (h : (Slice.cut c s).token? = some said) (hk : said.1 = .closeCurly) : '\x7d' ∈ (Slice.cut c s).span := by
  have hlinks : ∀ e ∈ links, e.2 ≠ .closeCurly := by decide
  have hwords : ∀ k ∈ TokenKind.identifier :: TokenKind.reserved.map (·.2), k ≠ .closeCurly := by decide
  have hsigns : ∀ e ∈ punctuation, e.2 = .closeCurly → e.1 = "\x7d" := by decide
  obtain ⟨e, he, n, hn, hcut⟩ := Slice.exists_entry h (by simp [hk]) (by simp [hk])
  rw [hcut] at h ⊢
  obtain rfl := Option.some.inj h
  simp only [entries, List.mem_append, List.mem_cons, List.mem_map] at he
  rcases he with (rfl | rfl | ⟨e, hp, rfl⟩) | rfl | ⟨e, hx, rfl⟩
  · cases hk
  · cases hk
  · exact absurd hk (hlinks e hp)
  · exact absurd hk (hwords _ (Piece.ofWord_mem _))
  · have hsign := hsigns e hx hk
    simp only [ofPattern, Pattern.length?, Option.ite_none_right_eq_some, Option.some.injEq, hsign] at hn
    obtain ⟨hstart, rfl⟩ := hn
    rw [← List.prefix_iff_eq_take.mp (List.isPrefixOf_iff_prefix.mp hstart)]
    exact (by decide : '\x7d' ∈ "\x7d".toList)

/-- The slices of a part without comments, strings and braces. -/
theorem exists_part_counts {l : List Char} (hl : Unbroken l) (hlast : ∀ c ∈ l.getLast?, Slice.isGap c = false)
    (hquote : '"' ∉ l) (hbrace : '\x7d' ∉ l) (hremark : ¬ "%%".toList <:+: l) :
    ∃ x : Part, x.chars = l ∧ ∀ s ∈ x.slices, Counts s := by
  have hplain : ∀ s ∈ Slice.ofText (l ++ ['\n']), s.Plain :=
    Slice.plain_ofText (by simp [hquote]) (mt (Slice.remark_concat (by decide) l).mp hremark)
  obtain ⟨x, rfl⟩ := Part.exists_part hl hlast hplain
  refine ⟨x, rfl, fun s hs => ?_⟩
  have hmem : s ∈ Slice.ofText (x.chars ++ ['\n']) := by
    rw [x.ofText_chars]
    exact List.mem_append_left _ hs
  have hspan : ∀ c ∈ s.span, c ∈ x.chars := by
    intro c hc
    rw [← x.tiles.1]
    exact List.mem_flatMap.mpr ⟨s, hs, hc⟩
  have hnewline := x.inLine s hs
  have hplain := hplain s hmem
  obtain ⟨c, t, rfl⟩ := Slice.exists_cut_of_mem hmem
  obtain ⟨_, -, htile⟩ := Slice.exists_tile_cut c t
  exact ⟨htile.span_ne_nil, Slice.rounds_cut hplain,
    fun said hsaid => ⟨hnewline said hsaid, fun hk => hbrace (hspan _ (brace_mem hsaid hk))⟩⟩

end MemberLine
end Mermaid.ClassDiagram
