import Mermaid.Proofs.Grammar.Safety
import Mermaid.Proofs.Token.Comments

/-! Loops that end by themselves. A loop whose rounds take tokens has no more rounds than there are
tokens; so has a block, whatever its statement takes, since each of its rounds takes one. -/
namespace Mermaid.Rule
variable {ε α : Type}

/-- The loop that goes on for as long as a token is ready, whatever its rounds take, ends with this reply
after so many rounds. No round takes the cursor back. -/
inductive Loops (ready : Token → Bool) (step : α → Rule ε α) (s : Stream) :
    α → List Token → Nat → Reply ε α → Prop
  | stop {a : α} {ts : List Token} (h : ∀ t ∈ ts.head?, ready t = false) :
      Loops ready step s a ts 0 ⟨[], .done a, ts⟩
  | round {a b : α} {t : Token} {ts rest : List Token} {es : List ε} {n : Nat} {r : Reply ε α}
      (hr : ready t) (hs : step a s (t :: ts) = ⟨es, .done b, rest⟩) (hrest : rest <:+ t :: ts)
      (more : Loops ready step s b rest n r) : Loops ready step s a (t :: ts) (n + 1) (r.after es)

section loops
variable {ready : Token → Bool} {step : α → Rule ε α}

theorem Loops.rest {s : Stream} {a : α} {ts : List Token} {n : Nat} {r : Reply ε α}
    (h : Loops ready step s a ts n r) : (∃ b, r.outcome = .done b) ∧ r.rest <:+ ts ∧
      ∀ t ∈ r.rest.head?, ready t = false := by
  induction h with
  | stop h => exact ⟨⟨_, rfl⟩, List.suffix_refl _, h⟩
  | round _ _ hrest _ ih => exact ⟨ih.1, ih.2.1.trans hrest, ih.2.2⟩

/-- Where each round takes a token and ends with a value, there are no more rounds than tokens. -/
theorem Takes.loops (ready : Token → Bool) (h : ∀ a, Takes False (step a)) (hsure : ∀ a, Sure (step a))
    (s : Stream) (a : α) (ts : List Token) :
    ∃ n ≤ ts.length, Loops ready step s a ts n (iterate ready step a s ts) := by
  apply iterate_induction (P := fun a ts r => ∃ n ≤ ts.length, Loops ready step s a ts n r)
  · exact fun a ts hr => ⟨0, Nat.zero_le _, .stop hr⟩
  · intro a t ts _ hlast
    obtain ⟨b, hb⟩ := hsure a s (t :: ts)
    exact absurd (hlast b hb) (Nat.not_lt_of_le ((h a).taken s t ts).length_le)
  · rintro a t ts es b rest hr hs hl ⟨n, hn, hloops⟩
    have hrest := (h a).taken s t ts
    rw [hs] at hrest
    exact ⟨n + 1, Nat.succ_le_succ (hn.trans hl), .round hr hs (hrest.trans (ts.suffix_cons t)) hloops⟩

end loops

section block
variable [Recovers ε] {statement : Rule ε Unit}

/-- A statement that is not too deep is over once it is guarded. -/
theorem guarded_steady (h : Steady False statement) (s : Stream) (ts : List Token) :
    ∃ es left, guarded statement s ts = ⟨es, .done (), left⟩ ∧ left <:+ ts := by
  have hsteady : Steady False (guarded statement) := .guarded h
  have hrest := hsteady.rest s ts
  have hdone := guarded_done fun hdeep => hsteady.overflow s ts hdeep
  rcases hg : guarded statement s ts with ⟨es, o, left⟩
  rw [hg] at hrest hdone
  cases hdone
  exact ⟨es, left, rfl, hrest⟩

/-- A round of a block takes a token, also where its statement takes none. -/
theorem takes_round (h : Steady False statement) : Takes False (round statement) where
  toSteady := .round h
  taken s t ts := by
    obtain ⟨es, left, hg, hleft⟩ := guarded_steady h s (t :: ts)
    have hdrop : left.dropWhile separates <:+ t :: ts := (List.dropWhile_suffix _).trans hleft
    simp only [round, bind_run, look_run, Reply.follow_done, hg, skipBlankLines_run, Reply.after_nil]
    rcases List.suffix_cons_iff.mp hdrop with hstuck | hmoved
    · rw [hstuck, progressPast_stuck]
      exact ts.suffix_refl
    · rw [progressPast_moved hmoved.length_le]
      exact hmoved

theorem sure_round (h : Steady False statement) : Sure (round statement) := by
  intro s ts
  obtain ⟨es, left, hg, -⟩ := guarded_steady h s ts
  exact ⟨(), by simp [round, bind_run, hg, skipBlankLines_run, progressPast]⟩

end block

section recovery

/-- Where statements can begin after a fault: at the end of the text, at a kind of token that restarts,
and right behind a line break. -/
def Boundary (restarts : TokenKind → Bool) (s : Stream) (ts : List Token) : Prop :=
  ts = [] ∨ (∃ t ∈ ts.head?, restarts t.kind) ∨ ∃ t, s.previous? ts = some t ∧ t.kind = .newline

variable {restarts : TokenKind → Bool} {s : Stream}

theorem boundary_cons {t : Token} {ts : List Token} : Boundary restarts s (t :: ts) ↔
    ((s.previous? (t :: ts)).any (·.kind == .newline) || restarts t.kind) = true := by
  simp [Boundary, Option.any_eq_true, or_comm]

/-- Statements begin anew at the first boundary. -/
theorem resumption_least (restarts : TokenKind → Bool) {ts : List Token} (hts : ts <:+ s.tokens) :
    Boundary restarts s (resumption restarts (s.previous? ts) ts) ∧
    ∀ vs, vs <:+ ts → Boundary restarts s vs → vs <:+ resumption restarts (s.previous? ts) ts := by
  induction ts with
  | nil => exact ⟨.inl rfl, fun vs hvs _ => hvs⟩
  | cons t ts ih =>
    rw [resumption]
    split
    · next hstop => exact ⟨boundary_cons.mpr hstop, fun vs hvs _ => hvs⟩
    · next hgo =>
      obtain ⟨taken, htaken⟩ := hts
      have hprevious : s.previous? ts = some t := by
        rw [Stream.previous?_of_append (List.append_cons taken t ts ▸ htaken), List.getLast?_concat]
      obtain ⟨hboundary, hleast⟩ := ih ((ts.suffix_cons t).trans ⟨taken, htaken⟩)
      rw [hprevious] at hboundary hleast
      refine ⟨hboundary, fun vs hvs hstop => ?_⟩
      rcases List.suffix_cons_iff.mp hvs with rfl | hvs
      · exact absurd (boundary_cons.mp hstop) hgo
      · exact hleast vs hvs hstop

end recovery

section progress
variable [Recovers ε]

/-- How a block recovers from a statement that fails with `m` at `ts`: it keeps one diagnostic beside what
the statement has written, and goes on at the first boundary from the place of the fault on. -/
structure Resumes (statement : Rule ε Unit) (s : Stream) (ts : List Token) (m : Expectation) : Prop where
  outcome : (guarded statement s ts).outcome = .done ()
  events : (guarded statement s ts).events = (statement s ts).events ++
    [Recovers.recovered (m.unmetAt (s.current (statement s ts).rest))]
  behind : (guarded statement s ts).rest <:+ (statement s ts).rest
  boundary : Boundary (Recovers.restarts ε) s (guarded statement s ts).rest
  least : ∀ vs, vs <:+ (statement s ts).rest → Boundary (Recovers.restarts ε) s vs →
    s.index (guarded statement s ts).rest ≤ s.index vs

theorem Steady.resumes {statement : Rule ε Unit} {s : Stream} {ts : List Token} {m : Expectation}
    (h : Steady False statement) (hts : ts <:+ s.tokens) (hm : (statement s ts).outcome = .failed m) :
    Resumes statement s ts m := by
  have hrest := (h.rest s ts).trans hts
  obtain ⟨hboundary, hleast⟩ := resumption_least (Recovers.restarts ε) hrest
  have hguarded := guarded_of_failed hm
  exact {
    outcome := by rw [hguarded]
    events := by rw [hguarded]
    behind := by rw [hguarded]; exact resumption_suffix _ _ _
    boundary := by rw [hguarded]; exact hboundary
    least := fun vs hvs hstop => by
      rw [hguarded]
      exact Stream.index_le_index (hleast vs hvs hstop) }

/-- How a block makes progress from `ts` on: it ends after no more rounds than there are tokens, before
the end of the text or a token to stop at, and recovers from each statement that fails. -/
structure Progresses (statement : Rule ε Unit) (stop : Option TokenKind) (s : Stream) (ts : List Token) :
    Prop where
  outcome : (block statement stop s ts).outcome = .done ()
  rounds : ∃ n ≤ ts.length, Loops (fun t => some t.kind != stop) (fun _ => round statement) s ()
    (ts.dropWhile separates) n (block statement stop s ts)
  forward : s.index ts ≤ s.index (block statement stop s ts).rest
  ended : (block statement stop s ts).rest = [] ∨
    ∃ t ∈ (block statement stop s ts).rest.head?, some t.kind = stop
  recovers : ∀ us, us <:+ s.tokens → ∀ m, (statement s us).outcome = .failed m → Resumes statement s us m

theorem Steady.progresses {statement : Rule ε Unit} (h : Steady False statement) (stop : Option TokenKind)
    (s : Stream) (ts : List Token) : Progresses statement stop s ts := by
  have hdrop : ts.dropWhile separates <:+ ts := List.dropWhile_suffix _
  obtain ⟨n, hn, hloops⟩ := Takes.loops (fun t => some t.kind != stop) (fun _ : Unit => takes_round h)
    (fun _ => sure_round h) s () (ts.dropWhile separates)
  obtain ⟨⟨_, hdone⟩, hrest, hend⟩ := hloops.rest
  rw [← block_run] at hloops hdone hrest hend
  refine ⟨hdone, ⟨n, hn.trans hdrop.length_le, hloops⟩, Stream.index_le_index (hrest.trans hdrop), ?_,
    fun us hus m hm => h.resumes hus hm⟩
  cases hr : (Rule.block statement stop s ts).rest with
  | nil => exact .inl rfl
  | cons t us =>
    rw [hr] at hend
    exact .inr ⟨t, rfl, by simpa using hend t rfl⟩

end progress
end Mermaid.Rule
