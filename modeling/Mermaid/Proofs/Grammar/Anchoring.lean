import Mermaid.Proofs.Grammar.Composing
import Mermaid.Proofs.Sighting

/-! Names that are known when they are referred to. What an event refers to has come up in the events
before it. -/
namespace Mermaid
variable {ε α β : Type}

/-- The events refer to names that are known or have come up before. -/
def Anchored (sights refers : ε → List String) : (known : List String) → List ε → Prop
  | _, [] => True
  | known, e :: es => refers e ⊆ known ∧ Anchored sights refers (known ++ sights e) es

namespace Anchored
variable {sights refers : ε → List String} {known more : List String} {es fs : List ε}

theorem mono (h : Anchored sights refers known es) (hmore : known ⊆ more) :
    Anchored sights refers more es := by
  induction es generalizing known more with
  | nil => trivial
  | cons e es ih =>
    refine ⟨List.Subset.trans h.1 hmore, ih h.2 (List.append_subset.mpr ⟨?_, ?_⟩)⟩
    · exact List.Subset.trans hmore (List.subset_append_left _ _)
    · exact List.subset_append_right _ _

theorem append (h : Anchored sights refers known es)
    (h' : Anchored sights refers (known ++ es.flatMap sights) fs) :
    Anchored sights refers known (es ++ fs) := by
  induction es generalizing known with
  | nil => simpa using h'
  | cons e es ih => exact ⟨h.1, ih h.2 (by simpa using h')⟩

theorem of_idle (h : ∀ e ∈ es, refers e = []) : Anchored sights refers known es := by
  induction es generalizing known with
  | nil => trivial
  | cons e es ih =>
    obtain ⟨he, hes⟩ := List.forall_mem_cons.mp h
    exact ⟨by simp [he], ih hes⟩

theorem congr {sights' : ε → List String} (h : Anchored sights refers known es)
    (hsights : ∀ e ∈ es, sights' e = sights e) : Anchored sights' refers known es := by
  induction es generalizing known with
  | nil => trivial
  | cons e es ih =>
    obtain ⟨he, hes⟩ := List.forall_mem_cons.mp hsights
    exact ⟨h.1, he.symm ▸ ih h.2 hes⟩

/-- What the events refer to is known or is sighted in one of them. -/
theorem refers_subset (h : Anchored sights refers known es) {e : ε} (he : e ∈ es) :
    refers e ⊆ known ++ es.flatMap sights := by
  induction es generalizing known with
  | nil => cases he
  | cons e' es ih =>
    rcases List.mem_cons.mp he with rfl | he
    · exact List.Subset.trans h.1 (List.subset_append_left _ _)
    · simpa using ih h.2 he

theorem composes (sights refers : ε → List String) :
    Composes (fun e => refers e = []) (fun _ _ es _ => Anchored sights refers [] es) where
  of_idle _ h := .of_idle h
  mono h := h
  append h h' := h.append (h'.mono (List.nil_subset _))

end Anchored

/-- A registry follows the sightings of the events if it follows those of each of them, as long as what the
event refers to has been sighted. -/
theorem Registry.Follows.foldl {γ δ : Type} {Agrees : Sighting γ → β → Prop} {apply : δ → ε → δ}
    (view : δ → Registry β) {sightings : ε → List (Sighting γ)} {refers : ε → List String}
    (hstep : ∀ d seen e, (view d).Follows Agrees seen → refers e ⊆ seen.map (·.name) →
      (view (apply d e)).Follows Agrees (seen ++ sightings e))
    {d : δ} {seen : List (Sighting γ)} {events : List ε} (h : (view d).Follows Agrees seen)
    (hanchored : Anchored (fun e => (sightings e).map (·.name)) refers (seen.map (·.name)) events) :
    (view (events.foldl apply d)).Follows Agrees (seen ++ events.flatMap sightings) := by
  induction events generalizing d seen with
  | nil => simpa using h
  | cons e events ih =>
    obtain ⟨he, hevents⟩ := hanchored
    rw [List.foldl_cons, List.flatMap_cons, ← List.append_assoc]
    exact ih (hstep d seen e h he) (by simpa using hevents)

namespace Rule

/-- From the known names on, a rule refers to what is known, and `Q` holds of what is known in the end
and the value. -/
structure Refers (sights refers : ε → List String) (known : List String) (Q : List String → α → Prop)
    (r : Rule ε α) : Prop where
  events : ∀ s ts, Anchored sights refers known (r s ts).events
  value : ∀ s ts a, (r s ts).outcome = .done a → Q (known ++ (r s ts).events.flatMap sights) a

namespace Refers
variable {sights refers : ε → List String} {known : List String} {Q : List String → α → Prop}
  {R : List String → β → Prop} {rule : Rule ε α} {next : α → Rule ε β}

theorem of_writes {P : α → Prop} (h : Writes (fun e => refers e = []) P rule) :
    Refers sights refers known (fun after _ => known ⊆ after) rule where
  events s ts := .of_idle (h.events s ts)
  value _ _ _ _ := List.subset_append_left known _

theorem mono {Q' : List String → α → Prop} (h : Refers sights refers known Q rule)
    (hQ : ∀ after a, Q after a → Q' after a) : Refers sights refers known Q' rule where
  events := h.events
  value s ts a ha := hQ _ a (h.value s ts a ha)

theorem bind (h : Refers sights refers known Q rule)
    (hn : ∀ a after, Q after a → Refers sights refers after R (next a)) :
    Refers sights refers known R (rule >>= next) where
  events s ts := by
    have hevents := h.events s ts
    rw [bind_run, Reply.follow]
    cases ho : (rule s ts).outcome with
    | done a => exact hevents.append ((hn a _ (h.value s ts a ho)).events s _)
    | failed | tooDeep => exact hevents
  value s ts b := by
    rw [bind_run, Reply.follow]
    cases ho : (rule s ts).outcome with
    | done a =>
      intro hb
      simpa [Reply.after] using (hn a _ (h.value s ts a ho)).value s _ b hb
    | failed | tooDeep => exact fun hf => by cases hf

theorem pure {a : α} (h : Q known a) : Refers sights refers known Q (pure a : Rule ε α) where
  events _ _ := trivial
  value _ _ b hb := by
    cases hb
    simpa using h

theorem emit {e : ε} (h : refers e ⊆ known) :
    Refers sights refers known (fun after _ => after = known ++ sights e) (emit e) where
  events _ _ := ⟨h, trivial⟩
  value _ _ _ _ := by simp

/-- A loop each round of which keeps what is known of its value. -/
theorem iterate {ready : Token → Bool} {step : α → Rule ε α}
    (h : ∀ a known, Q known a → Refers sights refers known Q (step a)) {a : α} (ha : Q known a) :
    Refers sights refers known Q (iterate ready step a) := by
  have hloop : ∀ s ts known, Q known a →
      Anchored sights refers known (Rule.iterate ready step a s ts).events ∧
      ∀ b, (Rule.iterate ready step a s ts).outcome = .done b →
        Q (known ++ (Rule.iterate ready step a s ts).events.flatMap sights) b := by
    intro s ts
    apply iterate_induction (P := fun a _ (r : Reply ε α) => ∀ known, Q known a →
      Anchored sights refers known r.events ∧
      ∀ b, r.outcome = .done b → Q (known ++ r.events.flatMap sights) b)
    · intro a ts _ known ha
      have hvalue : Refers sights refers known Q (Rule.value a : Rule ε α) := .pure ha
      exact ⟨trivial, hvalue.value s ts⟩
    · exact fun a t ts _ _ known ha => ⟨(h a known ha).events s _, (h a known ha).value s _⟩
    · intro a t ts es b rest _ hs _ ih known ha
      have hevents := (h a known ha).events s (t :: ts)
      have hb := (h a known ha).value s (t :: ts) b (by rw [hs])
      rw [hs] at hevents hb
      obtain ⟨hlater, hvalue⟩ := ih _ hb
      exact ⟨hevents.append hlater, fun c hc => by simpa [Reply.after] using hvalue c hc⟩
  exact ⟨fun s ts => (hloop s ts known ha).1, fun s ts => (hloop s ts known ha).2⟩

end Refers
end Rule
end Mermaid
