import Mermaid.Proofs.Grammar.Progress
import Mermaid.Proofs.Grammar.Writing

/-! Laws about what rules write on their way through the tokens. A law that passes from the parts to the
whole is obeyed by everything that is put together from rules that obey it. -/
namespace Mermaid
variable {ε α β : Type}

def Outcome.overflows : Outcome α → Bool
  | tooDeep => true
  | _ => false

/-- A law for the events that are written on the way from some tokens to the rest, whether it ends with
an overflow or not. It holds of `idle` events, and of two ways that follow each other. -/
structure Composes (idle : ε → Prop) (P : Bool → List Token → List ε → List Token → Prop) : Prop where
  of_idle {spilt : Bool} {ts rest : List Token} {es : List ε} (hrest : rest <:+ ts)
    (h : ∀ e ∈ es, idle e) : P spilt ts es rest
  mono {spilt : Bool} {ts rest : List Token} {es : List ε} (h : P false ts es rest) : P spilt ts es rest
  append {spilt : Bool} {ts us rest : List Token} {es fs : List ε} (h : P spilt ts es us)
    (h' : P spilt us fs rest) : P spilt ts (es ++ fs) rest

/-- What holds of single events is a law. -/
theorem composes_forall (Q : ε → Prop) : Composes Q (fun _ _ es _ => ∀ e ∈ es, Q e) where
  of_idle _ h := h
  mono h := h
  append h h' := List.forall_mem_append.mpr ⟨h, h'⟩

namespace Rule
variable {s : Stream} {idle : ε → Prop} {P : Bool → List Token → List ε → List Token → Prop}
  {k : TokenKind}

/-- A law is obeyed by what a rule writes from a token of the kind `k` on. -/
def ObeysAt (s : Stream) (P : Bool → List Token → List ε → List Token → Prop) (k : TokenKind)
    (r : Rule ε α) : Prop :=
  ∀ t ts, t :: ts <:+ s.tokens → t.kind = k →
    P (r s (t :: ts)).outcome.overflows (t :: ts) (r s (t :: ts)).events (r s (t :: ts)).rest

/-- A law is obeyed by what a rule writes. -/
def Obeys (s : Stream) (P : Bool → List Token → List ε → List Token → Prop) (r : Rule ε α) : Prop :=
  ∀ ts, ts <:+ s.tokens → P (r s ts).outcome.overflows ts (r s ts).events (r s ts).rest

theorem Obeys.at {rule : Rule ε α} (h : Obeys s P rule) (k : TokenKind) : ObeysAt s P k rule :=
  fun t ts hts _ => h (t :: ts) hts

end Rule

namespace Composes
open Rule
variable {s : Stream} {idle : ε → Prop} {P : Bool → List Token → List ε → List Token → Prop}
  {k : TokenKind} {rule : Rule ε α} {next : α → Rule ε β} (hP : Composes idle P)
include hP

/-- What is written behind a reply is written on the way that follows. -/
theorem follow {r : Reply ε α} {ts : List Token} {next : α → List Token → Reply ε β}
    (h : P r.outcome.overflows ts r.events r.rest)
    (hn : ∀ a, r.outcome = .done a →
      P (next a r.rest).outcome.overflows r.rest (next a r.rest).events (next a r.rest).rest) :
    P (r.follow next).outcome.overflows ts (r.follow next).events (r.follow next).rest := by
  obtain ⟨es, o, rest⟩ := r
  cases o with
  | done a => exact hP.append (hP.mono h) (hn a rfl)
  | failed | tooDeep => exact h

theorem silent {Q : α → Prop} (hrest : Steady True rule) (h : Writes idle Q rule) : Obeys s P rule :=
  fun ts _ => hP.of_idle (hrest.rest s ts) (h.events s ts)

theorem bindAt (hrest : Steady True rule) (h : ObeysAt s P k rule) (hn : ∀ a, Obeys s P (next a)) :
    ObeysAt s P k (rule >>= next) :=
  fun t ts hts ht => hP.follow (h t ts hts ht) fun a _ => hn a _ ((hrest.rest s _).trans hts)

theorem bind (hrest : Steady True rule) (h : Obeys s P rule) (hn : ∀ a, Obeys s P (next a)) :
    Obeys s P (rule >>= next) :=
  fun ts hts => hP.follow (h ts hts) fun a _ => hn a _ ((hrest.rest s ts).trans hts)

theorem onOverflow (h : Obeys s P rule) {e : ε} (he : idle e) : Obeys s P (onOverflow rule e) := by
  intro ts hts
  have hrule := h ts hts
  rcases hr : rule s ts with ⟨es, o, rest⟩
  rw [hr] at hrule
  cases o with
  | tooDeep =>
    rw [onOverflow_of_tooDeep hr]
    exact hP.append hrule (hP.of_idle rest.suffix_refl (List.forall_mem_singleton.mpr he))
  | done | failed =>
    rw [onOverflow_of_ne (by simp [hr]), hr]
    exact hrule

/-- A rule that passes over blank lines first. -/
theorem pastBlank {next : Option TokenKind → Rule ε β} (hnone : Obeys s P (next none))
    (hsome : ∀ k, ObeysAt s P k (next (some k))) :
    Obeys s P (do skipBlankLines; next (← nextKind)) := by
  intro ts hts
  have hdrop := List.dropWhile_suffix separates (l := ts)
  have hblank : ∀ spilt, P spilt ts [] (ts.dropWhile separates) := fun _ =>
    hP.of_idle hdrop (List.forall_mem_nil _)
  simp only [bind_run, skipBlankLines_run, nextKind_run, Reply.follow_done, Reply.after_nil]
  refine hP.append (hblank _) ?_
  cases hd : ts.dropWhile separates with
  | nil => exact hnone [] List.nil_suffix
  | cons t us => exact hsome t.kind t us (hd ▸ hdrop.trans hts) rfl

/-- A rule that begins where a token is expected. -/
theorem expectBind {m : Expectation} {next : Token → Rule ε β}
    (hn : ∀ t ts, t :: ts <:+ s.tokens → t.kind = k →
      P (next t s ts).outcome.overflows (t :: ts) (next t s ts).events (next t s ts).rest) :
    Obeys s P (expect k m >>= next) := by
  intro ts hts
  by_cases h : ts.head?.map (·.kind) = some k
  · cases ts with
    | nil => cases h
    | cons t ts =>
      have ht := Option.some.inj h
      rw [bind_run, expect_cons ht, Reply.follow_done, Reply.after_nil]
      exact hn t ts hts ht
  · rw [bind_run, expect_of_ne h]
    exact hP.of_idle ts.suffix_refl (List.forall_mem_nil _)

theorem iterate {ready : Token → Bool} {step : α → Rule ε α} (hsteady : ∀ a, Steady True (step a))
    (h : ∀ a, Obeys s P (step a)) (a : α) : Obeys s P (iterate ready step a) := by
  intro ts
  apply iterate_induction (P := fun _ ts (r : Reply ε α) =>
    ts <:+ s.tokens → P r.outcome.overflows ts r.events r.rest)
  · exact fun _ ts _ _ => hP.of_idle ts.suffix_refl (List.forall_mem_nil _)
  · exact fun a t ts _ _ => h a (t :: ts)
  · intro a t ts es b rest _ hs _ ih hts
    have hround := h a (t :: ts) hts
    have hrest := (hsteady a).rest s (t :: ts)
    rw [hs] at hround hrest
    exact hP.append (hP.mono hround) (ih (hrest.trans hts))

section recovery
variable [Recovers ε] {statement : Rule ε Unit} (hr : ∀ d, idle (Recovers.recovered d))
include hr

theorem guarded (h : Obeys s P statement) : Obeys s P (guarded statement) := by
  intro ts hts
  have hstatement := h ts hts
  cases ho : (statement s ts).outcome with
  | failed m =>
    rw [guarded_of_failed ho]
    rw [ho] at hstatement
    exact hP.append hstatement
      (hP.of_idle (resumption_suffix _ _ _) (List.forall_mem_singleton.mpr (hr _)))
  | done | tooDeep =>
    rw [guarded_of_not_failed (by simp [ho])]
    exact hstatement

/-- A block obeys the laws that its statement obeys. -/
theorem block (hsteady : Steady True statement) (h : Obeys s P statement) (stop : Option TokenKind) :
    Obeys s P (block statement stop) := by
  have hblank : Obeys s P (skipBlankLines : Rule ε Unit) := hP.silent .skipBlankLines .skipBlankLines
  have hround : Obeys s P (round statement) :=
    hP.bind (.look _) (hP.silent (.look _) (.look _)) fun _ =>
      hP.bind (.guarded hsteady) (hP.guarded hr h) fun _ => hP.bind .skipBlankLines hblank fun _ =>
        hP.silent (.progressPast _) (.progressPast _)
  exact hP.bind .skipBlankLines hblank fun _ =>
    hP.iterate (fun _ => .round hsteady) (fun _ => hround) ()

end recovery
end Composes
end Mermaid
