import Mermaid.Proofs.Grammar.Composing
import Mermaid.Proofs.Token.Adjacent

/-! Where in the text the items of a diagram come from. Each item that a rule writes is made at a token
that the rule takes, and no two items are made at one token. -/
namespace Mermaid
variable {ε α β ι : Type}

/-- The items stand in the tokens in their order, each at a place of its own: there is a token that
makes the item, with those right before it and right behind it on its line. -/
def Traced (Made : ι → List Token → Token → List Token → Prop) (tokens : List Token)
    (items : List ι) : Prop :=
  ∃ places : List Nat, places.Pairwise (· < ·) ∧ List.Forall₂ (fun item place =>
    ∃ before front t back after, tokens = before ++ front ++ t :: (back ++ after) ∧
      place = (before ++ front).length ∧ Made item front t back ∧
      ∀ u ∈ front ++ back, u.position.line = t.position.line) items places

/-- The item is made where `ts` begin. -/
def MadeAt (Made : ι → List Token → Token → List Token → Prop) (s : Stream) (item : ι)
    (ts : List Token) : Prop :=
  ∃ front t back after, Made item front t back ∧ ts = t :: (back ++ after) ∧ front ++ ts <:+ s.tokens

/-- The items are made on the way from `ts` to `rest`, each at a token of its own. -/
inductive Course (At : ι → List Token → Prop) : List Token → List ι → List Token → Prop
  | nil {ts rest : List Token} (h : rest <:+ ts) : Course At ts [] rest
  | cons {t : Token} {ts us rest : List Token} {i : ι} {is : List ι} (h : t :: us <:+ ts)
      (hi : At i (t :: us)) (more : Course At us is rest) : Course At ts (i :: is) rest

namespace Course
variable {At : ι → List Token → Prop} {ts us rest : List Token} {is js : List ι}

theorem before (h : Course At us is rest) (hus : us <:+ ts) : Course At ts is rest := by
  cases h with
  | nil h => exact .nil (h.trans hus)
  | cons h hi more => exact .cons (h.trans hus) hi more

theorem append (h : Course At ts is us) (h' : Course At us js rest) : Course At ts (is ++ js) rest := by
  induction h with
  | nil h => exact h'.before h
  | cons h hi _ ih => exact .cons h hi (ih h')

theorem after (h : Course At ts is us) (hrest : rest <:+ us) : Course At ts is rest := by
  simpa using h.append (.nil hrest)

theorem exists_at (h : Course At ts is rest) : ∀ i ∈ is, ∃ us, At i us := by
  induction h with
  | nil _ => exact List.forall_mem_nil _
  | cons _ hi _ ih => exact List.forall_mem_cons.mpr ⟨⟨_, hi⟩, ih⟩

/-- The tokens of the items stand in the text in the order of the items. -/
theorem exists_places {tokens : List Token} (h : Course At ts is rest) (hts : ts <:+ tokens) :
    ∃ places : List Nat, places.Pairwise (· < ·) ∧
      (∀ i ∈ places, tokens.length ≤ i + ts.length) ∧
      List.Forall₂ (fun item i => At item (tokens.drop i)) is places := by
  induction h with
  | nil => exact ⟨[], .nil, List.forall_mem_nil _, .nil⟩
  | @cons t ts us rest item is h hi _ ih =>
    have htoken := h.trans hts
    obtain ⟨places, hplaces, hbehind, his⟩ := ih ((us.suffix_cons t).trans htoken)
    have hlength := htoken.length_le
    rw [List.length_cons] at hlength
    have hhere : tokens.drop (tokens.length - (t :: us).length) = t :: us :=
      (List.suffix_iff_eq_drop.mp htoken).symm
    refine ⟨(tokens.length - (t :: us).length) :: places, List.pairwise_cons.mpr ⟨fun i hp => ?_, hplaces⟩,
      List.forall_mem_cons.mpr ⟨?_, fun i hp => ?_⟩, .cons (by rw [hhere]; exact hi) his⟩
    · have hi := hbehind i hp
      rw [List.length_cons]
      omega
    · have hts := h.length_le
      omega
    · have hi := hbehind i hp
      have hts := h.length_le
      rw [List.length_cons] at hts
      omega

/-- Each item has a token of its own, in their order. -/
theorem exists_tokens (h : Course At ts is rest) :
    ∃ seen, List.Sublist seen ts ∧ List.Forall₂ (fun i t => ∃ us, At i (t :: us)) is seen := by
  induction h with
  | nil _ => exact ⟨[], List.nil_sublist _, .nil⟩
  | @cons t _ us _ _ _ h hi _ ih =>
    obtain ⟨seen, hseen, his⟩ := ih
    exact ⟨t :: seen, (hseen.cons_cons t).trans h.sublist, .cons ⟨us, hi⟩ his⟩

/-- What is made on the way through a text is traced to it. -/
theorem traced {Made : ι → List Token → Token → List Token → Prop} {s : Stream} (hs : s.InLines)
    (hmade : ∀ item front t back, Made item front t back → ∀ u ∈ front ++ t :: back, u.kind ≠ .newline)
    (h : Course (MadeAt Made s) s.tokens is rest) : Traced Made s.tokens is := by
  obtain ⟨places, hplaces, -, his⟩ := h.exists_places s.tokens.suffix_refl
  refine ⟨places, hplaces, his.imp fun item place hitem => ?_⟩
  obtain ⟨front, t, back, after, hm, hts, before, htokens⟩ := hitem
  rw [hts] at htokens
  have hlength := congrArg List.length hts
  have htotal := congrArg List.length htokens
  have hline := hs.line_eq ⟨before, after, by simpa using htokens⟩ (hmade item front t back hm) t
    (by simp)
  refine ⟨before, front, t, back, after, by simpa using htokens.symm, ?_, hm, fun u hu => hline u ?_⟩
  · rw [List.length_drop, List.length_cons] at hlength
    simp only [List.length_append, List.length_cons] at htotal hlength ⊢
    omega
  · rw [List.mem_append, List.mem_cons]
    rcases List.mem_append.mp hu with hu | hu
    · exact .inl hu
    · exact .inr (.inr hu)

/-- Items are made on the way of a whole as they are made on the ways of its parts. -/
theorem composesAll (At : ι → List Token → Prop) (items : ε → List ι) :
    Composes (fun e => items e = []) (fun _ ts es rest => Course At ts (es.flatMap items) rest) where
  of_idle hrest h := by
    rw [List.flatMap_eq_nil_iff.mpr h]
    exact .nil hrest
  mono h := h
  append h h' := by
    rw [List.flatMap_append]
    exact h.append h'

theorem composes (At : ι → List Token → Prop) (item : ε → Option ι) :
    Composes (fun e => item e = none)
      (fun _ ts es rest => Course At ts (es.filterMap item) rest) := by
  simpa only [List.filterMap_eq_flatMap_toList, Option.toList_eq_nil_iff] using
    composesAll At fun e => (item e).toList

end Course

namespace Rule

/-- Writes events of which `P` fails only where it is done. -/
def Reserves (P : ε → Prop) (r : Rule ε α) : Prop :=
  ∀ s ts, (∀ a, (r s ts).outcome ≠ .done a) → ∀ e ∈ (r s ts).events, P e

section reserves
variable {P : ε → Prop} {Q : α → Prop} {rule : Rule ε α} {next : α → Rule ε β}

theorem Reserves.of_sure (h : Sure rule) : Reserves P rule := by
  intro s ts hfault
  obtain ⟨a, ha⟩ := h s ts
  exact absurd ha (hfault a)

theorem Reserves.bind (h : Writes P Q rule) (hn : ∀ a, Q a → Reserves P (next a)) :
    Reserves P (rule >>= next) := by
  intro s ts hfault
  have hevents := h.events s ts
  have hvalue := h.value s ts
  rw [bind_run] at hfault ⊢
  rcases hr : rule s ts with ⟨es, o, rest⟩
  rw [hr] at hfault hevents hvalue
  cases o with
  | done a => exact List.forall_mem_append.mpr ⟨hevents, hn a (hvalue a rfl) s rest hfault⟩
  | failed | tooDeep => exact hevents

/-- What cannot fail may write anything. -/
theorem Reserves.bind_sure (h : Reserves P rule) (hn : ∀ a, Sure (next a)) :
    Reserves P (rule >>= next) := by
  intro s ts hfault
  have hevents := h s ts
  rw [bind_run] at hfault ⊢
  rcases hr : rule s ts with ⟨es, o, rest⟩
  rw [hr] at hfault hevents
  cases o with
  | done a =>
    obtain ⟨b, hb⟩ := hn a s rest
    exact absurd hb (hfault b)
  | failed | tooDeep => exact hevents fun a ha => by cases ha

end reserves

variable {s : Stream} {At : ι → List Token → Prop} {item : ε → Option ι} {rule : Rule ε α}

/-- The items of a rule that begins with a token of the kind `k` are made on its way. -/
abbrev TracesAt (s : Stream) (At : ι → List Token → Prop) (item : ε → Option ι) (k : TokenKind)
    (r : Rule ε α) : Prop := ObeysAt s (fun _ ts es rest => Course At ts (es.filterMap item) rest) k r

/-- The items of a rule are made on its way. -/
abbrev Traces (s : Stream) (At : ι → List Token → Prop) (item : ε → Option ι) (r : Rule ε α) : Prop :=
  Obeys s (fun _ ts es rest => Course At ts (es.filterMap item) rest) r

theorem Writes.filterMap_eq_nil {Q : α → Prop} (h : Writes (fun e => item e = none) Q rule)
    {ts rest : List Token} {es : List ε} {o : Outcome α} (hr : rule s ts = ⟨es, o, rest⟩) :
    es.filterMap item = [] := by
  have hevents := h.events s ts
  rw [hr] at hevents
  exact List.filterMap_eq_nil_iff.mpr hevents

theorem Writes.flatMap_eq_nil {Q : α → Prop} {items : ε → List ι}
    (h : Writes (fun e => items e = []) Q rule) {ts rest : List Token} {es : List ε} {o : Outcome α}
    (hr : rule s ts = ⟨es, o, rest⟩) : es.flatMap items = [] := by
  have hevents := h.events s ts
  rw [hr] at hevents
  exact List.flatMap_eq_nil_iff.mpr hevents

/-- Where a rule is idle unless it is done, it can fail or overflow anywhere. -/
theorem Reserves.obeys {idle : ε → Prop} {P : Bool → List Token → List ε → List Token → Prop}
    (h : Reserves idle rule) (hP : Composes idle P) (hrest : Steady True rule) {ts : List Token}
    (hdone : ∀ es a rest, rule s ts = ⟨es, .done a, rest⟩ → P false ts es rest) :
    P (rule s ts).outcome.overflows ts (rule s ts).events (rule s ts).rest := by
  have hfault := h s ts
  have hsuffix := hrest.rest s ts
  rcases hr : rule s ts with ⟨es, o, rest⟩
  rw [hr] at hfault hsuffix
  cases o with
  | done a => exact hdone es a rest hr
  | failed | tooDeep => exact hP.of_idle hsuffix (hfault fun a ha => by cases ha)

end Rule
end Mermaid
