import Mermaid.Proofs.Grammar.Running

/-! Rules that take tokens off the front and give none back, whatever their outcome. The property
is closed under everything that grammars are put together from. -/
namespace Mermaid.Rule
variable {ε α β : Type} {deep : Prop}

/-- Leaves an end part of the tokens, and overflows only where that is allowed. -/
structure Steady (deep : Prop) (r : Rule ε α) : Prop where
  rest : ∀ s ts, (r s ts).rest <:+ ts
  overflow : ∀ s ts, (r s ts).outcome = .tooDeep → deep

/-- Ends with a value, whatever the tokens. -/
def Sure (r : Rule ε α) : Prop := ∀ s ts, ∃ a, (r s ts).outcome = .done a

theorem Sure.bind {rule : Rule ε α} {next : α → Rule ε β} (h : Sure rule)
    (hn : ∀ a, Sure (next a)) : Sure (rule >>= next) := by
  intro s ts
  obtain ⟨a, ha⟩ := h s ts
  obtain ⟨b, hb⟩ := hn a s (rule s ts).rest
  refine ⟨b, ?_⟩
  rw [bind_run, Reply.follow]
  simp only [ha]
  exact hb

theorem Sure.accept (kind : TokenKind) : Sure (accept kind : Rule ε Bool) := by
  intro s ts
  by_cases h : ts.head?.map (·.kind) = some kind
  · cases ts with
    | nil => cases h
    | cons t ts => exact ⟨true, by rw [accept_cons (Option.some.inj h)]⟩
  · exact ⟨false, by rw [accept_of_ne h]⟩

/-- A function that reads tokens from the front. -/
def Reads (read : List Token → α × List Token) : Prop := ∀ ts, (read ts).2 <:+ ts

namespace Steady
variable {rule : Rule ε α} {next : α → Rule ε β}

theorem of_sure {r : Rule ε α} (h : Sure r)
    (hr : ∀ s ts, (r s ts).rest <:+ ts) : Steady deep r where
  rest := hr
  overflow s ts ho := by
    obtain ⟨a, ha⟩ := h s ts
    rw [ha] at ho
    cases ho

theorem bind (h : Steady deep rule) (hn : ∀ a, Steady deep (next a)) :
    Steady deep (rule >>= next) where
  rest s ts := by
    have hrest := h.rest s ts
    rw [bind_run, Reply.follow]
    cases ho : (rule s ts).outcome with
    | done a => exact ((hn a).rest s _).trans hrest
    | failed | tooDeep => exact hrest
  overflow s ts := by
    have hover := h.overflow s ts
    rw [bind_run, Reply.follow]
    cases ho : (rule s ts).outcome with
    | done a => exact (hn a).overflow s _
    | failed => exact fun hf => nomatch hf
    | tooDeep => exact fun _ => hover ho

theorem pure (a : α) : Steady deep (pure a : Rule ε α) :=
  of_sure (fun _ _ => ⟨a, rfl⟩) fun _ ts => ts.suffix_refl

theorem map (f : α → β) (h : Steady deep rule) : Steady deep (f <$> rule) :=
  bind h fun _ => pure _

theorem emit (e : ε) : Steady deep (emit e) :=
  of_sure (fun _ _ => ⟨_, rfl⟩) fun _ ts => ts.suffix_refl

theorem fail (m : Expectation) : Steady deep (fail m : Rule ε α) where
  rest _ ts := ts.suffix_refl
  overflow _ _ h := nomatch h

theorem tooDeep (h : deep) : Steady deep (tooDeep : Rule ε α) where
  rest _ ts := ts.suffix_refl
  overflow _ _ _ := h

theorem onOverflow (h : Steady deep rule) (e : ε) : Steady deep (onOverflow rule e) where
  rest s ts := by
    rw [onOverflow_rest]
    exact h.rest s ts
  overflow s ts := by
    rw [onOverflow_outcome]
    exact h.overflow s ts

theorem take {read : List Token → α × List Token} (h : Reads read) :
    Steady deep (take read : Rule ε α) :=
  of_sure (fun _ _ => ⟨_, rfl⟩) fun _ => h

theorem look (view : List Token → α) : Steady deep (look view : Rule ε α) :=
  of_sure (fun _ _ => ⟨_, rfl⟩) fun _ ts => ts.suffix_refl

theorem nextKind : Steady deep (nextKind : Rule ε (Option TokenKind)) := look _

theorem advance : Steady deep (advance : Rule ε Token) :=
  of_sure (fun _ _ => ⟨_, rfl⟩) fun _ ts => ts.tail_suffix

theorem accept (kind : TokenKind) : Steady deep (accept kind : Rule ε Bool) := by
  refine of_sure (.accept kind) fun s ts => ?_
  by_cases h : ts.head?.map (·.kind) = some kind
  · cases ts with
    | nil => cases h
    | cons t ts =>
      rw [accept_cons (Option.some.inj h)]
      exact ts.suffix_cons t
  · simp only [accept_of_ne h, List.suffix_refl]

theorem expect (kind : TokenKind) (m : Expectation) : Steady deep (expect kind m : Rule ε Token) := by
  have hcases : ∀ s ts, (Rule.expect kind m s ts : Reply ε Token).outcome ≠ .tooDeep ∧
      (Rule.expect kind m s ts : Reply ε Token).rest <:+ ts := by
    intro s ts
    unfold Rule.expect
    cases ts with
    | nil => exact ⟨nofun, List.suffix_refl _⟩
    | cons t ts =>
      by_cases h : t.kind = kind
      · simp only [if_pos h]
        exact ⟨nofun, List.suffix_cons t ts⟩
      · simp only [if_neg h]
        exact ⟨nofun, List.suffix_refl _⟩
  exact ⟨fun s ts => (hcases s ts).2, fun s ts h => absurd h (hcases s ts).1⟩

theorem unmet (m : Expectation) : Steady deep (unmet m : Rule ε Diagnostic) :=
  of_sure (fun _ _ => ⟨_, rfl⟩) fun _ ts => ts.suffix_refl

theorem skipBlankLines : Steady deep (skipBlankLines : Rule ε Unit) :=
  of_sure (fun _ _ => ⟨_, rfl⟩) fun _ _ => List.dropWhile_suffix _

theorem progressPast (before : Nat) : Steady deep (progressPast before : Rule ε Unit) := by
  refine of_sure (fun _ _ => ⟨_, rfl⟩) fun s ts => ?_
  by_cases h : ts.length = before
  · simp only [Rule.progressPast, if_pos h]
    exact ts.tail_suffix
  · simp only [Rule.progressPast, if_neg h]
    exact ts.suffix_refl

end Steady

section readers

theorem Reads.span (p : Token → Bool) : Reads (List.span p) := by
  intro ts
  rw [List.span_eq_takeWhile_dropWhile]
  exact List.dropWhile_suffix p

theorem Steady.skipLine : Steady deep (skipLine : Rule ε (List Token)) := .take (.span _)

end readers

section iterate
variable {ready : Token → Bool} {step : α → Rule ε α}

theorem Steady.iterate (h : ∀ a, Steady deep (step a)) (a : α) :
    Steady deep (iterate ready step a) := by
  have hloop : ∀ s ts, (Rule.iterate ready step a s ts).rest <:+ ts ∧
      ((Rule.iterate ready step a s ts).outcome = .tooDeep → deep) := by
    intro s ts
    apply iterate_induction (P := fun _ ts r => r.rest <:+ ts ∧ (r.outcome = .tooDeep → deep))
    · exact fun a ts _ => ⟨ts.suffix_refl, nofun⟩
    · exact fun a t ts _ _ => ⟨(h a).rest s _, (h a).overflow s _⟩
    · intro a t ts es b rest _ hs _ ih
      have hrest := (h a).rest s (t :: ts)
      rw [hs] at hrest
      exact ⟨ih.1.trans hrest, ih.2⟩
  exact ⟨fun s ts => (hloop s ts).1, fun s ts => (hloop s ts).2⟩

end iterate

section recovery
variable [Recovers ε] {statement : Rule ε Unit}

theorem resumption_cons {restarts : TokenKind → Bool} {last t : Token}
    (hlast : last.kind ≠ .newline) (ht : restarts t.kind = false) (ts : List Token) :
    resumption restarts (some last) (t :: ts) = resumption restarts (some t) ts := by
  simp [resumption, hlast, ht]

theorem resumption_newline {restarts : TokenKind → Bool} {last : Token}
    (hlast : last.kind = .newline) (ts : List Token) : resumption restarts (some last) ts = ts := by
  cases ts <;> simp [resumption, hlast]

theorem resumption_suffix (restarts : TokenKind → Bool) (last : Option Token) (ts : List Token) :
    resumption restarts last ts <:+ ts := by
  induction ts generalizing last with
  | nil => exact List.suffix_refl _
  | cons t ts ih =>
    rw [resumption]
    split
    · exact List.suffix_refl _
    · exact (ih _).trans (List.suffix_cons t ts)

theorem Steady.synchronize : Steady deep (synchronize : Rule ε Unit) :=
  .of_sure (fun _ _ => ⟨_, rfl⟩) fun _ _ => resumption_suffix _ _ _

theorem Steady.guarded (h : Steady deep statement) : Steady deep (guarded statement) := by
  have hcases : ∀ s ts, (Rule.guarded statement s ts).rest <:+ ts ∧
      ((Rule.guarded statement s ts).outcome = .tooDeep → deep) := by
    intro s ts
    have hrest := h.rest s ts
    have hover := h.overflow s ts
    cases ho : (statement s ts).outcome with
    | failed m =>
      rw [guarded_of_failed ho]
      exact ⟨(resumption_suffix _ _ _).trans hrest, nofun⟩
    | done | tooDeep =>
      rw [guarded_of_not_failed (by simp [ho])]
      exact ⟨hrest, hover⟩
  exact ⟨fun s ts => (hcases s ts).1, fun s ts => (hcases s ts).2⟩

theorem Steady.round (h : Steady deep statement) : Steady deep (round statement) :=
  .bind (.look _) fun _ => .bind (.guarded h) fun _ => .bind .skipBlankLines fun _ => .progressPast _

theorem Steady.block (h : Steady deep statement) (stop : Option TokenKind) :
    Steady deep (block statement stop) :=
  .bind .skipBlankLines fun _ => .iterate (fun _ => .round h) ()

end recovery
end Mermaid.Rule
