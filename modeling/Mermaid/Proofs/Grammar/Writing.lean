import Mermaid.Proofs.Grammar.Running

/-! What rules write: a property of their events and one of their values, whatever the outcome.
Like the tokens that they leave, it is followed through what grammars are put together from. -/
namespace Mermaid

/-- A list in a diagram to which each event adds what it brings has in the end what all events bring. -/
theorem foldl_view {δ ε ι : Type} {apply : δ → ε → δ} {item : ε → Option ι} {events : List ε}
    (view : δ → List ι) (h : ∀ d, ∀ e ∈ events, view (apply d e) = view d ++ (item e).toList) (d : δ) :
    view (events.foldl apply d) = view d ++ events.filterMap item := by
  induction events generalizing d with
  | nil => simp
  | cons e events ih =>
    rw [List.foldl_cons, ih fun d f hf => h d f (List.mem_cons_of_mem e hf), h d e List.mem_cons_self,
      List.append_assoc, List.filterMap_cons]
    cases item e <;> rfl

namespace Rule
variable {ε α β : Type} {P : ε → Prop} {Q : α → Prop} {R : β → Prop}

/-- Writes only events of which `P` holds, and has no value but one of which `Q` holds. -/
structure Writes (P : ε → Prop) (Q : α → Prop) (r : Rule ε α) : Prop where
  events : ∀ s ts, ∀ e ∈ (r s ts).events, P e
  value : ∀ s ts a, (r s ts).outcome = .done a → Q a

namespace Writes
variable {rule : Rule ε α} {next : α → Rule ε β}

theorem silent {r : Rule ε α} (h : ∀ s ts, (r s ts).events = []) :
    Writes P (fun _ => True) r where
  events s ts e he := by
    rw [h] at he
    cases he
  value _ _ _ _ := trivial

theorem mono {P' : ε → Prop} (h : Writes P Q rule) (hP : ∀ e, P e → P' e) : Writes P' Q rule where
  events s ts e he := hP e (h.events s ts e he)
  value := h.value

theorem bind (h : Writes P Q rule) (hn : ∀ a, Q a → Writes P R (next a)) :
    Writes P R (rule >>= next) where
  events s ts := by
    have hevents := h.events s ts
    rw [bind_run, Reply.follow]
    cases ho : (rule s ts).outcome with
    | done a =>
      intro e he
      rcases List.mem_append.mp he with he | he
      · exact hevents e he
      · exact (hn a (h.value s ts a ho)).events s _ e he
    | failed | tooDeep => exact hevents
  value s ts b := by
    rw [bind_run, Reply.follow]
    cases ho : (rule s ts).outcome with
    | done a => exact (hn a (h.value s ts a ho)).value s _ b
    | failed | tooDeep => exact fun hf => by cases hf

theorem pure {a : α} (h : Q a) : Writes P Q (pure a : Rule ε α) where
  events _ _ _ he := by cases he
  value _ _ b hb := by
    cases hb
    exact h

theorem map (f : α → β) (h : Writes P Q rule) : Writes P (fun _ => True) (f <$> rule) :=
  bind h fun _ _ => pure trivial

theorem emit {e : ε} (h : P e) : Writes P (fun _ => True) (emit e) where
  events _ _ _ he := List.mem_singleton.mp he ▸ h
  value _ _ _ _ := trivial

theorem fail (m : Expectation) : Writes P (fun _ => True) (fail m : Rule ε α) :=
  silent fun _ _ => rfl

theorem tooDeep : Writes P (fun _ => True) (tooDeep : Rule ε α) := silent fun _ _ => rfl

theorem onOverflow (h : Writes P Q rule) {e : ε} (he : P e) : Writes P Q (onOverflow rule e) where
  events s ts := by
    have hevents := h.events s ts
    rcases hr : rule s ts with ⟨es, o, rest⟩
    rw [hr] at hevents
    cases o with
    | tooDeep =>
      rw [onOverflow_of_tooDeep hr]
      exact List.forall_mem_append.mpr ⟨hevents, fun f hf => List.mem_singleton.mp hf ▸ he⟩
    | done | failed =>
      rw [onOverflow_of_ne (by simp [hr]), hr]
      exact hevents
  value s ts := by
    rw [onOverflow_outcome]
    exact h.value s ts

theorem take (read : List Token → α × List Token) :
    Writes P (fun _ => True) (take read : Rule ε α) := silent fun _ _ => rfl

theorem look (view : List Token → α) : Writes P (fun _ => True) (look view : Rule ε α) :=
  silent fun _ _ => rfl

theorem nextKind : Writes P (fun _ => True) (nextKind : Rule ε (Option TokenKind)) := look _

theorem advance : Writes P (fun _ => True) (advance : Rule ε Token) := silent fun _ _ => rfl

theorem accept (kind : TokenKind) : Writes P (fun _ => True) (accept kind : Rule ε Bool) := by
  refine silent fun s ts => ?_
  by_cases h : ts.head?.map (·.kind) = some kind
  · cases ts with
    | nil => cases h
    | cons t ts => rw [accept_cons (Option.some.inj h)]
  · rw [accept_of_ne h]

theorem expect (kind : TokenKind) (m : Expectation) :
    Writes P (fun _ => True) (expect kind m : Rule ε Token) := by
  refine silent fun s ts => ?_
  unfold Rule.expect
  cases ts with
  | nil => rfl
  | cons t ts => by_cases h : t.kind = kind <;> simp only [h, if_true, if_false]

theorem unmet (m : Expectation) : Writes P (fun d => ∃ t, d = m.unmetAt t) (unmet m) where
  events _ _ _ he := by cases he
  value s ts _ hd := ⟨s.current ts, (Outcome.done.inj hd).symm⟩

theorem skipBlankLines : Writes P (fun _ => True) (skipBlankLines : Rule ε Unit) :=
  silent fun _ _ => rfl

theorem skipLine : Writes P (fun _ => True) (skipLine : Rule ε (List Token)) := take _

theorem progressPast (before : Nat) :
    Writes P (fun _ => True) (progressPast before : Rule ε Unit) := silent fun _ _ => rfl

/-- A loop writes what its rounds write, and ends with a value that they hand on. -/
theorem iterate {ready : Token → Bool} {step : α → Rule ε α}
    (h : ∀ a, Q a → Writes P Q (step a)) {a : α} (ha : Q a) :
    Writes P Q (iterate ready step a) := by
  have hloop : ∀ s ts, Q a → (∀ e ∈ (Rule.iterate ready step a s ts).events, P e) ∧
      ∀ b, (Rule.iterate ready step a s ts).outcome = .done b → Q b := by
    intro s ts
    apply iterate_induction (P := fun a _ r =>
      Q a → (∀ e ∈ r.events, P e) ∧ ∀ b, r.outcome = .done b → Q b)
    · intro a ts _ ha
      refine ⟨by simp, fun b hb => ?_⟩
      cases hb
      exact ha
    · exact fun a t ts _ _ ha => ⟨(h a ha).events s _, (h a ha).value s _⟩
    · intro a t ts es b rest _ hs _ ih ha
      have hevents := (h a ha).events s (t :: ts)
      have hb := (h a ha).value s (t :: ts) b (by rw [hs])
      rw [hs] at hevents
      refine ⟨fun e he => ?_, (ih hb).2⟩
      rcases List.mem_append.mp he with he | he
      · exact hevents e he
      · exact (ih hb).1 e he
  exact ⟨fun s ts => (hloop s ts ha).1, fun s ts => (hloop s ts ha).2⟩

section recovery
variable [Recovers ε] {statement : Rule ε Unit}

theorem guarded (hP : ∀ d, P (Recovers.recovered d)) (h : Writes P (fun _ => True) statement) :
    Writes P (fun _ => True) (guarded statement) where
  events s ts := by
    have hevents := h.events s ts
    cases ho : (statement s ts).outcome with
    | failed m =>
      rw [guarded_of_failed ho]
      intro e he
      rcases List.mem_append.mp he with he | he
      · exact hevents e he
      · exact List.mem_singleton.mp he ▸ hP _
    | done | tooDeep =>
      rw [guarded_of_not_failed (by simp [ho])]
      exact hevents
  value _ _ _ _ := trivial

/-- A block writes what its guard does. -/
theorem block_of_guarded (h : Writes P (fun _ => True) (Rule.guarded statement))
    (stop : Option TokenKind) : Writes P (fun _ => True) (block statement stop) :=
  .bind .skipBlankLines fun _ _ => .iterate (fun _ _ => .bind (.look _) fun _ _ =>
    .bind h fun _ _ => .bind .skipBlankLines fun _ _ => .progressPast _) trivial

theorem block (hP : ∀ d, P (Recovers.recovered d)) (h : Writes P (fun _ => True) statement)
    (stop : Option TokenKind) : Writes P (fun _ => True) (block statement stop) :=
  .block_of_guarded (.guarded hP h) stop

end recovery
end Writes
end Rule
end Mermaid
