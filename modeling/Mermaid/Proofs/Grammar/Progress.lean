import Mermaid.Proofs.Grammar.Steady

/-! The rounds of a loop and the statements of a block. A block whose statement takes a token
wherever one is left enters it only where a statement can begin, and reads to its end. -/
namespace Mermaid.Rule
variable {ε α β : Type} {deep : Prop}

/-- Takes the next token, whatever the outcome. -/
structure Takes (deep : Prop) (r : Rule ε α) : Prop extends Steady deep r where
  taken : ∀ s t ts, (r s (t :: ts)).rest <:+ ts

/-- Takes the next token if it is of this kind, whatever the outcome. -/
structure TakesKind (deep : Prop) (k : TokenKind) (r : Rule ε α) : Prop extends Steady deep r where
  taken : ∀ s t ts, t.kind = k → (r s (t :: ts)).rest <:+ ts

theorem Takes.ofKind {r : Rule ε α} (h : Takes deep r) (k : TokenKind) : TakesKind deep k r where
  toSteady := h.toSteady
  taken s t ts _ := h.taken s t ts

theorem TakesKind.skipLine {k : TokenKind} (h : k ≠ .newline) :
    TakesKind deep k (skipLine : Rule ε (List Token)) where
  toSteady := .skipLine
  taken s t ts ht := by
    have hin : (t.kind != TokenKind.newline) = true := by simp [ht, h]
    simp only [Rule.skipLine, take_run, restOfLine, List.span_eq_takeWhile_dropWhile,
      List.dropWhile_cons, hin, if_true]
    exact List.dropWhile_suffix _

theorem TakesKind.bind {k : TokenKind} {rule : Rule ε α} {next : α → Rule ε β}
    (h : TakesKind deep k rule) (hn : ∀ a, Steady deep (next a)) :
    TakesKind deep k (rule >>= next) where
  toSteady := .bind h.toSteady hn
  taken s t ts ht := by
    have hrest := h.taken s t ts ht
    rw [bind_run, Reply.follow]
    cases ho : (rule s (t :: ts)).outcome with
    | done a => exact ((hn a).rest s _).trans hrest
    | failed | tooDeep => exact hrest

namespace Takes
variable {rule : Rule ε α} {next : α → Rule ε β}

theorem advance : Takes deep (advance : Rule ε Token) where
  toSteady := .advance
  taken _ _ ts := ts.suffix_refl

theorem bind (h : Takes deep rule) (hn : ∀ a, Steady deep (next a)) :
    Takes deep (rule >>= next) where
  toSteady := .bind h.toSteady hn
  taken s t ts := (TakesKind.bind (h.ofKind t.kind) hn).taken s t ts rfl

/-- A rule that passes over blank lines first, and then takes the token that it finds. -/
theorem pastBlank {next : Option TokenKind → Rule ε β} (hnone : Steady deep (next none))
    (hsome : ∀ k, TakesKind deep k (next (some k))) :
    Takes deep (do skipBlankLines; next (← nextKind)) where
  toSteady := by
    refine .bind .skipBlankLines fun _ => .bind .nextKind fun k => ?_
    cases k with
    | none => exact hnone
    | some k => exact (hsome k).toSteady
  taken s t ts := by
    have hdrop : (t :: ts).dropWhile separates <:+ t :: ts := List.dropWhile_suffix _
    simp only [bind_run, skipBlankLines_run, Reply.follow_done, nextKind_run, Reply.after_nil]
    cases hd : (t :: ts).dropWhile separates with
    | nil => exact (hnone.rest s []).trans (List.nil_suffix)
    | cons u us =>
      rw [hd] at hdrop
      have hus : us <:+ ts := by
        rcases List.suffix_cons_iff.mp hdrop with h | h
        · exact (List.cons.inj h).2 ▸ us.suffix_refl
        · exact (us.suffix_cons u).trans h
      exact ((hsome u.kind).taken s u us rfl).trans hus

/-- A rule behind which a token is taken if it took none itself. -/
theorem progress {rule next : Rule ε Unit} (hsure : Sure rule) (h : Steady deep rule)
    (hn : Steady deep next) :
    Takes deep (do let before ← look List.length; rule; Rule.progressPast before; next) where
  toSteady := .bind (.look _) fun _ => .bind h fun _ => .bind (.progressPast _) fun _ => hn
  taken s t ts := by
    have hrest := h.rest s (t :: ts)
    obtain ⟨_, hdone⟩ := hsure s (t :: ts)
    rcases hr : rule s (t :: ts) with ⟨es, o, rest⟩
    rw [hr] at hrest hdone
    subst hdone
    simp only [bind_run, look_run, Reply.follow_done, Reply.after_nil, hr]
    rcases List.suffix_cons_iff.mp hrest with rfl | hsuffix
    · rw [progressPast_stuck]
      exact hn.rest s ts
    · rw [progressPast_moved hsuffix.length_le]
      exact (hn.rest s rest).trans hsuffix

theorem guarded [Recovers ε] {statement : Rule ε Unit} (h : Takes deep statement) :
    Takes deep (guarded statement) where
  toSteady := .guarded h.toSteady
  taken s t ts := by
    have hrest := h.taken s t ts
    cases ho : (statement s (t :: ts)).outcome with
    | failed m =>
      rw [guarded_of_failed ho]
      exact (resumption_suffix _ _ _).trans hrest
    | done | tooDeep =>
      rw [guarded_of_not_failed (by simp [ho])]
      exact hrest

end Takes

section rounds
variable {ready : Token → Bool} {step step' : α → Rule ε α} {s : Stream}

/-- A round that takes a token goes on with the loop, unless a fault ends it. -/
theorem Takes.iterate_run {t : Token} (h : ∀ a, Takes deep (step a)) (hr : ready t) (a : α)
    (ts : List Token) : iterate ready step a s (t :: ts) =
      (step a s (t :: ts)).follow fun b rest => iterate ready step b s rest := by
  have hrest := ((h a).taken s t ts).length_le
  rcases hs : step a s (t :: ts) with ⟨es, o, rest⟩
  rw [hs] at hrest
  cases o with
  | done b => rw [iterate_cons hr hs hrest, Reply.follow_done]
  | failed | tooDeep =>
    rw [iterate_last hr (by simp [hs]), hs]
    rfl

/-- The values and the places with which a loop begins its rounds. -/
inductive Rounds (ready : Token → Bool) (step : α → Rule ε α) (s : Stream) (a : α) :
    List Token → α → List Token → Prop
  | first {t : Token} {ts : List Token} (hr : ready t) : Rounds ready step s a (t :: ts) a (t :: ts)
  | next {ts us vs : List Token} {es : List ε} {b c : α} {v : Token}
      (h : Rounds ready step s a ts b us) (hs : step b s us = ⟨es, .done c, v :: vs⟩)
      (hl : (v :: vs).length < us.length) (hr : ready v) : Rounds ready step s a ts c (v :: vs)

namespace Rounds

theorem exists_ready {a b : α} {ts us : List Token} (h : Rounds ready step s a ts b us) :
    ∃ t vs, us = t :: vs ∧ ready t := by
  cases h with
  | first hr => exact ⟨_, _, rfl, hr⟩
  | next _ _ _ hr => exact ⟨_, _, rfl, hr⟩

/-- The rounds behind the first one are rounds as well. -/
theorem cons {a b c : α} {t : Token} {ts rest us : List Token} {es : List ε} (hr : ready t)
    (hs : step a s (t :: ts) = ⟨es, .done b, rest⟩) (hl : rest.length ≤ ts.length)
    (h : Rounds ready step s b rest c us) : Rounds ready step s a (t :: ts) c us := by
  induction h with
  | first hr' => exact .next (.first hr) hs (Nat.lt_succ_of_le hl) hr'
  | next _ hs' hl' hr' ih => exact .next (ih hs hl) hs' hl' hr'

end Rounds

/-- A loop depends on its step at the rounds only. -/
theorem iterate_congr {a : α} {ts : List Token}
    (h : ∀ b us, Rounds ready step s a ts b us → step' b s us = step b s us) :
    iterate ready step' a s ts = iterate ready step a s ts := by
  revert h
  apply iterate_induction (P := fun a ts r =>
    (∀ b us, Rounds ready step s a ts b us → step' b s us = step b s us) →
      iterate ready step' a s ts = r)
  · intro a ts hr _
    cases ts with
    | nil => exact iterate_nil a
    | cons t ts => exact iterate_stop (hr t rfl) a ts
  · intro a t ts hr hlast h
    have hstep := h a (t :: ts) (.first hr)
    rw [iterate_last hr (hstep ▸ hlast), hstep]
  · intro a t ts es b rest hr hs hl ih h
    have hstep := (h a (t :: ts) (.first hr)).trans hs
    rw [iterate_cons hr hstep hl, ih fun c us hc => h c us (.cons hr hs hl hc)]

end rounds

section block
variable [Recovers ε] {statement statement' : Rule ε Unit} {stop : Option TokenKind} {s : Stream}
  {ts us : List Token}

/-- The places at which a block enters its statement. -/
def Entered (statement : Rule ε Unit) (stop : Option TokenKind) (s : Stream)
    (ts us : List Token) : Prop :=
  Rounds (fun t => some t.kind != stop) (fun _ => round statement) s () (ts.dropWhile separates) () us

/-- A block depends on its statement at the places only where it enters it. -/
theorem block_congr (h : ∀ us, Entered statement stop s ts us → statement' s us = statement s us) :
    block statement' stop s ts = block statement stop s ts := by
  rw [block_run, block_run]
  apply iterate_congr
  intro _ us hus
  simp only [round, bind_run, look_run, Reply.follow_done, guarded, h us hus]

theorem Takes.round (h : Takes deep statement) : Takes deep (round statement) where
  toSteady := .round h.toSteady
  taken s t ts :=
    (Takes.bind (Takes.guarded h) fun _ => .bind .skipBlankLines fun _ =>
      .progressPast (t :: ts).length).taken s t ts

/-- A round of a block ends past blank lines. -/
theorem round_rest (h : Takes deep statement) {t : Token}
    (hd : (round statement s (t :: ts)).outcome = .done ()) :
    ∃ left, left <:+ ts ∧ (round statement s (t :: ts)).rest = left.dropWhile separates := by
  have hleft := (Takes.guarded h).taken s t ts
  rcases hg : guarded statement s (t :: ts) with ⟨es, o, left⟩
  rw [hg] at hleft
  cases o with
  | done _ => exact ⟨left, hleft, by rw [round_of_guarded hg hleft.length_le]⟩
  | failed | tooDeep =>
    simp only [round, bind_run, look_run, Reply.follow_done, hg] at hd
    cases hd

/-- A block enters its statement where a token is left that stands between no statements and is
not the one to stop at. -/
theorem Entered.exists_cons (h : Takes deep statement) (hus : Entered statement stop s ts us) :
    us <:+ ts ∧ ∃ t vs, us = t :: vs ∧ separates t = false ∧ some t.kind ≠ stop := by
  have hrounds : ∀ {first us : List Token} {b : Unit}, first = ts.dropWhile separates →
      Rounds (fun t => some t.kind != stop) (fun _ => round statement) s () first b us →
      us <:+ ts ∧ ∃ t vs, us = t :: vs ∧ separates t = false ∧ some t.kind ≠ stop := by
    intro first us b hfirst hus
    induction hus with
    | @first t vs hr =>
      exact ⟨hfirst ▸ List.dropWhile_suffix _, t, vs, rfl, separates_of_dropWhile hfirst.symm,
        by simpa using hr⟩
    | @next _ _ vs _ _ _ v _ hs _ hr ih =>
      obtain ⟨hsuffix, t, us, rfl, _, _⟩ := ih hfirst
      obtain ⟨left, hleft, hrest⟩ := round_rest (s := s) h (by rw [hs])
      rw [hs] at hrest
      have hvs : v :: vs = left.dropWhile separates := hrest
      have hdrop : v :: vs <:+ left := hvs ▸ List.dropWhile_suffix separates
      exact ⟨hdrop.trans (hleft.trans ((us.suffix_cons t).trans hsuffix)), v, vs, rfl,
        separates_of_dropWhile hvs.symm, by simpa using hr⟩
  exact hrounds rfl hus

/-- A block hands on no fault of its statement. -/
theorem block_outcome (m : Expectation) : (block statement stop s ts).outcome ≠ .failed m := by
  have hround : ∀ us, (round statement s us).outcome ≠ .failed m := by
    intro us
    have hguarded : (guarded statement s us).outcome ≠ .failed m := guarded_outcome m
    simp only [round, bind_run, look_run, Reply.follow_done]
    rcases hg : guarded statement s us with ⟨es, o, rest⟩
    rw [hg] at hguarded
    cases o with
    | done _ => exact fun h => by cases h
    | failed m => exact hguarded
    | tooDeep => simp
  rw [block_run]
  apply iterate_induction (P := fun _ _ r => r.outcome ≠ .failed m)
  · simp
  · exact fun _ t ts _ _ => hround (t :: ts)
  · exact fun _ _ _ _ _ _ _ _ _ ih => ih

theorem block_done (h : (block statement stop s ts).outcome ≠ .tooDeep) :
    (block statement stop s ts).outcome = .done () := by
  cases ho : (block statement stop s ts).outcome with
  | done _ => rfl
  | failed m => exact absurd ho (block_outcome m)
  | tooDeep => exact absurd ho h

/-- A block that is read ends with the text, or before a token to stop at. -/
theorem block_rest (h : Takes deep statement)
    (hd : (block statement stop s ts).outcome = .done ()) :
    ∀ t ∈ (block statement stop s ts).rest.head?, some t.kind = stop := by
  revert hd
  rw [block_run]
  apply iterate_induction (P := fun _ _ r =>
    r.outcome = .done () → ∀ t ∈ r.rest.head?, some t.kind = stop)
  · intro _ ts hr _ t ht
    simpa using hr t ht
  · intro _ t ts _ hlast hd
    obtain ⟨left, hleft, hrest⟩ := round_rest h hd
    have hgrown := hlast () hd
    have hdrop := (List.dropWhile_sublist separates (l := left)).length_le
    have hlength := hleft.length_le
    rw [hrest] at hgrown
    omega
  · exact fun _ _ _ _ _ _ _ _ _ ih => ih

end block

section reached

/-- The places that operations lead to from the start of a stream, one after the other. -/
inductive Reached (Operation : (α : Type) → Rule ε α → Prop) (s : Stream) : List Token → Prop
  | start : Reached Operation s s.tokens
  | run {α : Type} {r : Rule ε α} {ts : List Token} (h : Operation α r)
      (hts : Reached Operation s ts) : Reached Operation s (r s ts).rest

theorem Reached.suffix {Operation : (α : Type) → Rule ε α → Prop} {s : Stream}
    (hsteady : ∀ α r, Operation α r → Steady deep r) {ts : List Token}
    (h : Reached Operation s ts) : ts <:+ s.tokens := by
  induction h with
  | start => exact List.suffix_refl _
  | run h _ ih => exact ((hsteady _ _ h).rest s _).trans ih

end reached
end Mermaid.Rule
