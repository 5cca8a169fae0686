import Mermaid.Proofs.Grammar.Reporting
import Mermaid.Proofs.Text.Graphic

/-! What rules find missing where they fail, and how diagnostics say so. -/
namespace Mermaid

/-- Has words of its own, and not those that a reader of tokens gives it; and if it quotes a delimiter,
this is in graphic characters. -/
def Expectation.Listed : Expectation → Prop
  | .other _ => False
  | .shapeEnd closer => Text.Legible closer.toList
  | _ => True

/-- What is missing is said in graphic characters. -/
theorem Expectation.Listed.legible {m : Expectation} (h : m.Listed) : Text.Legible m.message.toList := by
  cases m with
  | other _ => exact h.elim
  | shapeEnd closer =>
    rw [message, String.toList_append, String.toList_append, Text.legible_append, Text.legible_append]
    exact ⟨⟨by decide, h⟩, by decide⟩
  | _ => decide +kernel

/-- Says that a document could not be read to its end. -/
def Diagnostic.GivesUp (d : Diagnostic) : Prop := "Failed to parse ".toList <+: d.message.toList

theorem Diagnostic.givesUp_abandoned (what : String) (reason : Option String) :
    (abandoned what reason).GivesUp := by
  rw [GivesUp, abandoned, String.append_assoc, String.toList_append]
  exact List.prefix_append _ _

theorem Expectation.Listed.head {m : Expectation} (h : m.Listed) :
    m.message.toList.head? = some 'E' := by
  cases m with
  | other _ => exact h.elim
  | shapeEnd closer => simp [message]
  | _ => rfl

/-- What is missing is worded like no document that is given up. -/
theorem Expectation.Listed.not_givesUp {m : Expectation} (h : m.Listed) (t : Token) :
    ¬ (m.unmetAt t).GivesUp := by
  rintro ⟨behind, hbehind⟩
  have hhead := congrArg List.head? hbehind
  rw [show (m.unmetAt t).message.toList.head? = some 'E' from h.head] at hhead
  cases hhead

section names
variable {ε : Type} [Recovers ε] [Reporting ε] {Q : Expectation → Prop}

/-- Whether the diagnostic that an event keeps, if it keeps one, is about an expectation of which `Q`
holds. -/
def Reporting.Names (Q : Expectation → Prop) (e : ε) : Prop :=
  ∀ d ∈ Reporting.diagnostic? e, ∃ m t, Q m ∧ d = m.unmetAt t

theorem Reporting.Names.of_silent {e : ε} (h : Reporting.diagnostic? e = none) : Names Q e := by
  intro d hd
  rw [h] at hd
  cases hd

theorem Reporting.Names.of_unmet {e : ε} {m : Expectation} {t : Token}
    (h : Reporting.diagnostic? e = some (m.unmetAt t)) (hm : Q m) : Names Q e := by
  intro d hd
  rw [h] at hd
  exact ⟨m, t, hm, (Option.some.inj hd).symm⟩

/-- What is kept of such events is that something is missing. -/
theorem Reporting.Names.exists_unmet {es : List ε} (h : ∀ e ∈ es, Names Q e) :
    ∀ d ∈ es.filterMap diagnostic?, ∃ m : Expectation, ∃ t, Q m ∧ d = m.unmetAt t := by
  intro d hd
  obtain ⟨e, he, hd⟩ := List.mem_filterMap.mp hd
  exact h e he d hd

theorem Reporting.Names.not_givesUp {es : List ε} (h : ∀ e ∈ es, Names Expectation.Listed e) :
    ∀ d ∈ es.filterMap diagnostic?, ¬ d.GivesUp := by
  intro d hd
  obtain ⟨m, t, hm, rfl⟩ := exists_unmet h d hd
  exact hm.not_givesUp t

end names

namespace Rule
variable {ε α β : Type} {Q : Expectation → Prop}

/-- Fails only for want of something of which `Q` holds. -/
def Misses (Q : Expectation → Prop) (r : Rule ε α) : Prop :=
  ∀ s ts m, (r s ts).outcome = .failed m → Q m

namespace Misses
variable {rule : Rule ε α} {next : α → Rule ε β}

theorem of_sure (h : Sure rule) : Misses Q rule := by
  intro s ts m hm
  obtain ⟨a, ha⟩ := h s ts
  rw [ha] at hm
  cases hm

theorem pure (a : α) : Misses Q (pure a : Rule ε α) := of_sure fun _ _ => ⟨_, rfl⟩

theorem emit (e : ε) : Misses Q (emit e) := of_sure fun _ _ => ⟨_, rfl⟩

theorem take (read : List Token → α × List Token) : Misses Q (take read : Rule ε α) :=
  of_sure fun _ _ => ⟨_, rfl⟩

theorem nextKind : Misses Q (nextKind : Rule ε (Option TokenKind)) := of_sure fun _ _ => ⟨_, rfl⟩

theorem advance : Misses Q (advance : Rule ε Token) := of_sure fun _ _ => ⟨_, rfl⟩

theorem skipBlankLines : Misses Q (skipBlankLines : Rule ε Unit) := of_sure fun _ _ => ⟨_, rfl⟩

theorem skipLine : Misses Q (skipLine : Rule ε (List Token)) := take _

theorem bind (h : Misses Q rule) (hn : ∀ a, Misses Q (next a)) : Misses Q (rule >>= next) := by
  intro s ts m hm
  have hrule := h s ts
  rw [bind_run] at hm
  rcases hr : rule s ts with ⟨es, o, rest⟩
  rw [hr] at hm hrule
  cases o with
  | done a => exact hn a s rest m hm
  | failed _ =>
    cases hm
    exact hrule m rfl
  | tooDeep => cases hm

theorem map (f : α → β) (h : Misses Q rule) : Misses Q (f <$> rule) := bind h fun _ => pure _

theorem look (view : List Token → α) : Misses Q (look view : Rule ε α) := of_sure fun _ _ => ⟨_, rfl⟩

theorem progressPast (before : Nat) : Misses Q (progressPast before : Rule ε Unit) :=
  of_sure fun _ _ => ⟨_, rfl⟩

theorem fail {m : Expectation} (h : Q m) : Misses Q (fail m : Rule ε α) := by
  intro s ts m' hm
  cases hm
  exact h

theorem expect {kind : TokenKind} {m : Expectation} (h : Q m) :
    Misses Q (expect kind m : Rule ε Token) := by
  intro s ts m' hm
  by_cases hk : ts.head?.map (·.kind) = some kind
  · cases ts with
    | nil => cases hk
    | cons t ts =>
      rw [expect_cons (Option.some.inj hk)] at hm
      cases hm
  · rw [expect_of_ne hk] at hm
    cases hm
    exact h

theorem iterate {ready : Token → Bool} {step : α → Rule ε α} (h : ∀ a, Misses Q (step a)) (a : α) :
    Misses Q (iterate ready step a) := by
  intro s ts m
  apply iterate_induction (P := fun _ _ (r : Reply ε α) => r.outcome = .failed m → Q m)
  · exact fun _ _ _ hm => by cases hm
  · exact fun a t ts _ _ => h a s (t :: ts) m
  · exact fun _ _ _ _ _ _ _ _ _ ih => ih

/-- A guard reports nothing but what its statement can miss. -/
theorem writes_guarded [Recovers ε] {P : ε → Prop} {statement : Rule ε Unit} (h : Misses Q statement)
    (hw : Writes P (fun _ => True) statement)
    (hr : ∀ m t, Q m → P (Recovers.recovered (m.unmetAt t))) :
    Writes P (fun _ => True) (guarded statement) where
  events s ts := by
    have hevents := hw.events s ts
    cases ho : (statement s ts).outcome with
    | failed m =>
      rw [guarded_of_failed ho]
      exact List.forall_mem_append.mpr
        ⟨hevents, List.forall_mem_singleton.mpr (hr m _ (h s ts m ho))⟩
    | done | tooDeep =>
      rw [guarded_of_not_failed (by simp [ho])]
      exact hevents
  value _ _ _ _ := trivial

end Misses
end Rule
end Mermaid
