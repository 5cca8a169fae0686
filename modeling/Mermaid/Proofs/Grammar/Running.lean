import Mathlib.Data.List.DropRight
import Mathlib.Data.List.TakeDrop
import Mermaid.Grammar.Recovery

/-! Rules run on given tokens: what each of them replies, as equations to rewrite with. -/
namespace Mermaid
variable {ε α β : Type}

namespace Reply

/-- Goes on from a reply, unless a fault ends it. -/
def follow (r : Reply ε α) (next : α → List Token → Reply ε β) : Reply ε β :=
  match r.outcome with
  | .done a => (next a r.rest).after r.events
  | .failed missing => ⟨r.events, .failed missing, r.rest⟩
  | .tooDeep => ⟨r.events, .tooDeep, r.rest⟩

@[simp] theorem follow_done (es : List ε) (a : α) (ts : List Token)
    (next : α → List Token → Reply ε β) :
    (⟨es, .done a, ts⟩ : Reply ε α).follow next = (next a ts).after es := rfl

@[simp] theorem follow_failed (es : List ε) (m : Expectation) (ts : List Token)
    (next : α → List Token → Reply ε β) :
    (⟨es, .failed m, ts⟩ : Reply ε α).follow next = ⟨es, .failed m, ts⟩ := rfl

@[simp] theorem follow_tooDeep (es : List ε) (ts : List Token)
    (next : α → List Token → Reply ε β) :
    (⟨es, .tooDeep, ts⟩ : Reply ε α).follow next = ⟨es, .tooDeep, ts⟩ := rfl

@[simp] theorem after_nil (r : Reply ε α) : r.after [] = r := rfl

@[simp] theorem after_after (r : Reply ε α) (es fs : List ε) :
    (r.after fs).after es = r.after (es ++ fs) := by
  simp [after]

@[simp] theorem after_mk (es fs : List ε) (o : Outcome α) (ts : List Token) :
    (⟨fs, o, ts⟩ : Reply ε α).after es = ⟨es ++ fs, o, ts⟩ := rfl

theorem after_follow (r : Reply ε α) (es : List ε) (next : α → List Token → Reply ε β) :
    (r.after es).follow next = (r.follow next).after es := by
  cases r with
  | mk fs o ts => cases o <;> simp

end Reply

/-- What a span takes and leaves where its first failure is known. -/
theorem span_append {p : α → Bool} {l : List α} {b : α} (h : ∀ a ∈ l, p a) (hb : p b = false)
    (rest : List α) : (l ++ b :: rest).span p = (l, b :: rest) := by
  rw [List.span_eq_takeWhile_dropWhile, List.takeWhile_append_of_pos h,
    List.dropWhile_append_of_pos h]
  simp [hb]

namespace Rule
variable {s : Stream}

theorem bind_run (rule : Rule ε α) (next : α → Rule ε β) (ts : List Token) :
    (rule >>= next) s ts = (rule s ts).follow fun a rest => next a s rest := rfl

/-- Two rules one after the other are done if the first is, and the second where it goes on. -/
theorem bind_eq_done {rule : Rule ε α} {next : α → Rule ε β} {ts rest : List Token} {es : List ε}
    {b : β} (h : (rule >>= next) s ts = ⟨es, .done b, rest⟩) :
    ∃ fs a us gs, rule s ts = ⟨fs, .done a, us⟩ ∧ next a s us = ⟨gs, .done b, rest⟩ ∧ es = fs ++ gs := by
  rw [bind_run] at h
  rcases hr : rule s ts with ⟨fs, o, us⟩
  rw [hr] at h
  cases o with
  | done a =>
    obtain ⟨hevents, houtcome, hrest⟩ := Reply.mk.inj h
    exact ⟨fs, a, us, (next a s us).events, rfl, by rw [← houtcome, ← hrest], hevents.symm⟩
  | failed | tooDeep => cases h

theorem map_run (f : α → β) (rule : Rule ε α) (ts : List Token) :
    (f <$> rule) s ts = (rule s ts).follow fun a rest => ⟨[], .done (f a), rest⟩ := rfl

@[simp] theorem pure_run (a : α) (ts : List Token) :
    (pure a : Rule ε α) s ts = ⟨[], .done a, ts⟩ := rfl

@[simp] theorem emit_run (e : ε) (ts : List Token) : emit e s ts = ⟨[e], .done (), ts⟩ := rfl

@[simp] theorem fail_run (m : Expectation) (ts : List Token) :
    (fail m : Rule ε α) s ts = ⟨[], .failed m, ts⟩ := rfl

@[simp] theorem take_run (read : List Token → α × List Token) (ts : List Token) :
    (take read : Rule ε α) s ts = ⟨[], .done (read ts).1, (read ts).2⟩ := rfl

@[simp] theorem look_run (view : List Token → α) (ts : List Token) :
    (look view : Rule ε α) s ts = ⟨[], .done (view ts), ts⟩ := rfl

@[simp] theorem nextKind_run (ts : List Token) :
    (nextKind : Rule ε (Option TokenKind)) s ts = ⟨[], .done (ts.head?.map (·.kind)), ts⟩ := rfl

@[simp] theorem advance_cons (t : Token) (ts : List Token) :
    (advance : Rule ε Token) s (t :: ts) = ⟨[], .done t, ts⟩ := rfl

@[simp] theorem onOverflow_outcome (rule : Rule ε α) (e : ε) (ts : List Token) :
    (onOverflow rule e s ts).outcome = (rule s ts).outcome := by
  cases ho : (rule s ts).outcome <;> simp [onOverflow, ho]

@[simp] theorem onOverflow_rest (rule : Rule ε α) (e : ε) (ts : List Token) :
    (onOverflow rule e s ts).rest = (rule s ts).rest := by
  cases ho : (rule s ts).outcome <;> simp [onOverflow, ho]

theorem onOverflow_of_tooDeep {rule : Rule ε α} {e : ε} {ts rest : List Token} {es : List ε}
    (h : rule s ts = ⟨es, .tooDeep, rest⟩) : onOverflow rule e s ts = ⟨es ++ [e], .tooDeep, rest⟩ := by
  simp [onOverflow, h]

theorem onOverflow_of_ne {rule : Rule ε α} {e : ε} {ts : List Token}
    (h : (rule s ts).outcome ≠ .tooDeep) : onOverflow rule e s ts = rule s ts := by
  unfold onOverflow
  cases ho : (rule s ts).outcome with
  | tooDeep => exact absurd ho h
  | done | failed => simp only [ho]

theorem accept_cons {t : Token} {kind : TokenKind} (h : t.kind = kind) (ts : List Token) :
    (accept kind : Rule ε Bool) s (t :: ts) = ⟨[], .done true, ts⟩ := by
  simp [accept, h]

theorem accept_of_ne {ts : List Token} {kind : TokenKind}
    (h : ts.head?.map (·.kind) ≠ some kind) :
    (accept kind : Rule ε Bool) s ts = ⟨[], .done false, ts⟩ := by
  cases ts with
  | nil => rfl
  | cons t ts =>
    have ht : t.kind ≠ kind := fun hk => h (congrArg some hk)
    simp [accept, ht]

theorem accept_eq_true {ts : List Token} {kind : TokenKind}
    (h : (accept kind s ts : Reply ε Bool).outcome = .done true) :
    ∃ t, t.kind = kind ∧ ts = t :: (accept kind s ts : Reply ε Bool).rest := by
  cases ts with
  | nil => cases h
  | cons t ts =>
    by_cases ht : t.kind = kind
    · exact ⟨t, ht, by rw [accept_cons ht]⟩
    · rw [accept_of_ne (by simpa using ht)] at h
      cases h

theorem accept_eq_false {ts : List Token} {kind : TokenKind}
    (h : (accept kind s ts : Reply ε Bool).outcome = .done false) :
    (accept kind s ts : Reply ε Bool).rest = ts := by
  cases ts with
  | nil => rfl
  | cons t ts =>
    by_cases ht : t.kind = kind
    · rw [accept_cons ht] at h
      cases h
    · rw [accept_of_ne (by simpa using ht)]

theorem expect_cons {t : Token} {kind : TokenKind} (h : t.kind = kind) (m : Expectation)
    (ts : List Token) :
    (expect kind m : Rule ε Token) s (t :: ts) = ⟨[], .done t, ts⟩ := by
  simp [expect, h]

theorem expect_of_ne {ts : List Token} {kind : TokenKind} {m : Expectation}
    (h : ts.head?.map (·.kind) ≠ some kind) :
    (expect kind m : Rule ε Token) s ts = ⟨[], .failed m, ts⟩ := by
  cases ts with
  | nil => rfl
  | cons t ts =>
    have ht : t.kind ≠ kind := fun hk => h (congrArg some hk)
    simp [expect, ht]

theorem expect_eq_done {ts : List Token} {t : Token} {kind : TokenKind} {m : Expectation}
    (h : (expect kind m s ts : Reply ε Token).outcome = .done t) :
    t.kind = kind ∧ ts = t :: (expect kind m s ts : Reply ε Token).rest := by
  cases ts with
  | nil => cases h
  | cons u us =>
    by_cases hu : u.kind = kind
    · rw [expect_cons hu] at h ⊢
      cases h
      exact ⟨hu, rfl⟩
    · rw [expect_of_ne (by simpa using hu)] at h
      cases h

/-- Whether a token stands between statements. -/
def separates (t : Token) : Bool := t.kind == .newline || t.kind == .comment

theorem skipBlankLines_run (ts : List Token) :
    (skipBlankLines : Rule ε Unit) s ts = ⟨[], .done (), ts.dropWhile separates⟩ := rfl

theorem dropWhile_close {close : Token} (h : close.kind = .newline) (ts : List Token) :
    (close :: ts).dropWhile separates = ts.dropWhile separates := by
  simp [separates, h]

theorem dropWhile_separates {ts : List Token} (h : ∀ t ∈ ts.head?, separates t = false) :
    ts.dropWhile separates = ts := by
  cases ts with
  | nil => rfl
  | cons t ts => simp [h t rfl]

theorem separates_of_dropWhile {ts us : List Token} {t : Token}
    (h : ts.dropWhile separates = t :: us) : separates t = false := by
  have hhead := List.head?_dropWhile_not separates ts
  rw [h] at hhead
  simpa using hhead

theorem restOfLine_close {ts : List Token} (hts : ∀ t ∈ ts, t.kind ≠ .newline) {close : Token}
    (h : close.kind = .newline) (rest : List Token) :
    restOfLine (ts ++ close :: rest) = (ts, close :: rest) :=
  span_append (by simpa using hts) (by simp [h]) rest

section iterate
variable {ready : Token → Bool} {step : α → Rule ε α}

@[simp] theorem iterate_nil (a : α) : iterate ready step a s [] = ⟨[], .done a, []⟩ := by
  simp [iterate]

theorem iterate_stop {t : Token} (h : ready t = false) (a : α) (ts : List Token) :
    iterate ready step a s (t :: ts) = ⟨[], .done a, t :: ts⟩ := by
  simp [iterate, h]

theorem iterate_of_head {ts : List Token} (h : ∀ t ∈ ts.head?, ready t = false) (a : α) :
    iterate ready step a s ts = ⟨[], .done a, ts⟩ := by
  cases ts with
  | nil => exact iterate_nil a
  | cons t ts => exact iterate_stop (h t rfl) a ts

theorem iterate_cons {t : Token} {ts rest : List Token} {a b : α} {es : List ε}
    (h : ready t) (hs : step a s (t :: ts) = ⟨es, .done b, rest⟩)
    (hl : rest.length ≤ ts.length) :
    iterate ready step a s (t :: ts) = (iterate ready step b s rest).after es := by
  have hl' : rest.length < (t :: ts).length := Nat.lt_succ_of_le hl
  rw [iterate, if_pos h]
  simp only [hs, hl', dite_true]

/-- A round that takes no token is the last one. -/
theorem iterate_last {t : Token} {ts : List Token} {a : α} (h : ready t)
    (hl : ∀ b, (step a s (t :: ts)).outcome = .done b →
      ts.length < (step a s (t :: ts)).rest.length) :
    iterate ready step a s (t :: ts) = step a s (t :: ts) := by
  rw [iterate, if_pos h]
  rcases hs : step a s (t :: ts) with ⟨es, o, rest⟩
  rw [hs] at hl
  cases o with
  | done b =>
    have hl' : ¬ rest.length < (t :: ts).length := Nat.not_lt_of_le (Nat.succ_le_of_lt (hl b rfl))
    simp only [hl', dite_false]
  | failed | tooDeep => rfl

/-- What holds of the loop where it stops, where a round ends it, and wherever it holds of the loop
behind a round, holds of the loop everywhere. -/
theorem iterate_induction {P : α → List Token → Reply ε α → Prop}
    (stop : ∀ a ts, (∀ t ∈ ts.head?, ready t = false) → P a ts ⟨[], .done a, ts⟩)
    (last : ∀ a t ts, ready t → (∀ b, (step a s (t :: ts)).outcome = .done b →
      ts.length < (step a s (t :: ts)).rest.length) → P a (t :: ts) (step a s (t :: ts)))
    (more : ∀ a t ts es b rest, ready t → step a s (t :: ts) = ⟨es, .done b, rest⟩ →
      rest.length ≤ ts.length → P b rest (iterate ready step b s rest) →
        P a (t :: ts) ((iterate ready step b s rest).after es))
    (a : α) (ts : List Token) : P a ts (iterate ready step a s ts) := by
  induction hn : ts.length using Nat.strongRecOn generalizing a ts with
  | ind n ih =>
    cases ts with
    | nil =>
      rw [iterate_nil]
      exact stop a [] (by simp)
    | cons t ts =>
      cases hr : ready t with
      | false =>
        rw [iterate_stop hr]
        exact stop a (t :: ts) (by simpa using hr)
      | true =>
        by_cases hl : ∃ b, (step a s (t :: ts)).outcome = .done b ∧
            (step a s (t :: ts)).rest.length ≤ ts.length
        · obtain ⟨b, hb, hl⟩ := hl
          have hs : step a s (t :: ts) =
              ⟨(step a s (t :: ts)).events, .done b, (step a s (t :: ts)).rest⟩ := by
            rw [← hb]
          rw [iterate_cons hr hs hl]
          refine more a t ts _ b _ hr hs hl (ih _ ?_ b _ rfl)
          rw [← hn, List.length_cons]
          omega
        · have hlast : ∀ b, (step a s (t :: ts)).outcome = .done b →
              ts.length < (step a s (t :: ts)).rest.length :=
            fun b hb => Nat.lt_of_not_le fun hle => hl ⟨b, hb, hle⟩
          rw [iterate_last hr hlast]
          exact last a t ts hr hlast

end iterate

section recovery
variable [Recovers ε] {statement : Rule ε Unit} {ts : List Token}

theorem guarded_of_failed {m : Expectation} (h : (statement s ts).outcome = .failed m) :
    guarded statement s ts = ⟨(statement s ts).events ++
        [Recovers.recovered (m.unmetAt (s.current (statement s ts).rest))], .done (),
      resumption (Recovers.restarts ε) (s.previous? (statement s ts).rest)
        (statement s ts).rest⟩ := by
  unfold guarded
  simp only [h]
  simp only [synchronize, Reply.after_mk, List.append_nil]

theorem guarded_fault {m : Expectation} {es : List ε} {rest : List Token}
    (h : statement s ts = ⟨es, .failed m, rest⟩) : guarded statement s ts =
      ⟨es ++ [Recovers.recovered (m.unmetAt (s.current rest))], .done (),
        resumption (Recovers.restarts ε) (s.previous? rest) rest⟩ := by
  rw [guarded_of_failed (by rw [h]), h]

theorem guarded_of_not_failed (h : ∀ m, (statement s ts).outcome ≠ .failed m) :
    guarded statement s ts = statement s ts := by
  unfold guarded
  cases ho : (statement s ts).outcome with
  | failed m => exact absurd ho (h m)
  | done | tooDeep => simp only [ho]

theorem guarded_of_done {es : List ε} {rest : List Token}
    (h : statement s ts = ⟨es, .done (), rest⟩) : guarded statement s ts = ⟨es, .done (), rest⟩ := by
  rw [guarded_of_not_failed (by simp [h]), h]

theorem guarded_of_tooDeep {es : List ε} {rest : List Token}
    (h : statement s ts = ⟨es, .tooDeep, rest⟩) : guarded statement s ts = ⟨es, .tooDeep, rest⟩ := by
  rw [guarded_of_not_failed (by simp [h]), h]

theorem guarded_outcome (m : Expectation) : (guarded statement s ts).outcome ≠ .failed m := by
  cases ho : (statement s ts).outcome with
  | failed m => simp [guarded_of_failed ho]
  | done | tooDeep => simp [guarded_of_not_failed, ho]

theorem guarded_done (h : (guarded statement s ts).outcome ≠ .tooDeep) :
    (guarded statement s ts).outcome = .done () := by
  cases ho : (guarded statement s ts).outcome with
  | done _ => rfl
  | failed m => exact absurd ho (guarded_outcome m)
  | tooDeep => exact absurd ho h

theorem guarded_congr {statement' : Rule ε Unit} (h : statement s ts = statement' s ts) :
    guarded statement s ts = guarded statement' s ts := by
  rw [guarded, guarded, h]

end recovery

theorem progressPast_stuck (t : Token) (ts : List Token) :
    (progressPast (t :: ts).length : Rule ε Unit) s (t :: ts) = ⟨[], .done (), ts⟩ := by
  simp [progressPast]

theorem progressPast_moved {t : Token} {ts rest : List Token} (h : rest.length ≤ ts.length) :
    (progressPast (t :: ts).length : Rule ε Unit) s rest = ⟨[], .done (), rest⟩ := by
  have hne : rest.length ≠ (t :: ts).length := by
    rw [List.length_cons]
    omega
  rw [progressPast, if_neg hne]

/-- One round of a block: a statement, and what stands before the next. -/
def round [Recovers ε] (statement : Rule ε Unit) : Rule ε Unit := do
  let before ← look List.length
  guarded statement
  skipBlankLines
  progressPast before

theorem block_run [Recovers ε] (statement : Rule ε Unit) (stop : Option TokenKind)
    (ts : List Token) : block statement stop s ts =
      iterate (fun t => some t.kind != stop) (fun _ => round statement) () s
        (ts.dropWhile separates) := rfl

theorem round_of_guarded [Recovers ε] {statement : Rule ε Unit} {t : Token} {ts rest : List Token}
    {es : List ε} (hg : guarded statement s (t :: ts) = ⟨es, .done (), rest⟩)
    (hl : rest.length ≤ ts.length) :
    round statement s (t :: ts) = ⟨es, .done (), rest.dropWhile separates⟩ := by
  have hd : (rest.dropWhile separates).length ≤ ts.length :=
    Nat.le_trans (List.dropWhile_sublist _).length_le hl
  simp only [round, bind_run, look_run, Reply.follow_done, hg, skipBlankLines_run,
    progressPast_moved hd, Reply.after_mk, List.append_nil, List.nil_append]

theorem round_done [Recovers ε] {statement : Rule ε Unit} {t : Token} {ts rest : List Token}
    {es : List ε} (hs : statement s (t :: ts) = ⟨es, .done (), rest⟩)
    (hl : rest.length ≤ ts.length) :
    round statement s (t :: ts) = ⟨es, .done (), rest.dropWhile separates⟩ :=
  round_of_guarded (guarded_of_done hs) hl

theorem round_of_tooDeep [Recovers ε] {statement : Rule ε Unit} {ts rest : List Token}
    {es : List ε} (hg : guarded statement s ts = ⟨es, .tooDeep, rest⟩) :
    round statement s ts = ⟨es, .tooDeep, rest⟩ := by
  simp only [round, bind_run, look_run, Reply.follow_done, hg, Reply.follow_tooDeep, Reply.after_nil]

theorem block_dropWhile [Recovers ε] (statement : Rule ε Unit) (stop : Option TokenKind)
    (ts : List Token) : block statement stop s (ts.dropWhile separates) = block statement stop s ts := by
  rw [block_run, block_run, List.dropWhile_idempotent separates ts]

/-- A block reads nothing where the text ends or it has to stop. -/
theorem block_of_head [Recovers ε] {statement : Rule ε Unit} {stop : Option TokenKind}
    {ts : List Token} (hblank : ∀ t ∈ ts.head?, separates t = false)
    (hstop : ∀ t ∈ ts.head?, some t.kind = stop) :
    block statement stop s ts = ⟨[], .done (), ts⟩ := by
  rw [block_run, dropWhile_separates hblank, iterate_of_head (by simpa using hstop)]

/-- A block at a statement: the guarded statement, and then the block of what it leaves. -/
theorem block_cons [Recovers ε] {statement : Rule ε Unit} {stop : Option TokenKind} {t : Token}
    {ts rest : List Token} {es : List ε} (ht : separates t = false) (hstop : some t.kind ≠ stop)
    (hg : guarded statement s (t :: ts) = ⟨es, .done (), rest⟩) (hl : rest.length ≤ ts.length) :
    block statement stop s (t :: ts) = (block statement stop s rest).after es := by
  have hrest : (rest.dropWhile separates).length ≤ ts.length :=
    Nat.le_trans (List.dropWhile_sublist _).length_le hl
  rw [block_run, block_run, dropWhile_separates (by simpa using ht),
    iterate_cons (by simpa using hstop) (round_of_guarded hg hl) hrest]

theorem block_of_tooDeep [Recovers ε] {statement : Rule ε Unit} {stop : Option TokenKind} {t : Token}
    {ts rest : List Token} {es : List ε} (ht : separates t = false) (hstop : some t.kind ≠ stop)
    (hg : guarded statement s (t :: ts) = ⟨es, .tooDeep, rest⟩) :
    block statement stop s (t :: ts) = ⟨es, .tooDeep, rest⟩ := by
  have hround := round_of_tooDeep hg
  rw [block_run, dropWhile_separates (by simpa using ht),
    iterate_last (by simpa using hstop) (by simp [hround]), hround]

/-- What the first statement of a block writes is where the block begins to write, also where the
statement fails. -/
theorem events_prefix_block [Recovers ε] {statement : Rule ε Unit} {stop : Option TokenKind} {t : Token}
    {ts : List Token} (ht : separates t = false) (hstop : some t.kind ≠ stop) :
    (statement s (t :: ts)).events <+: (block statement stop s (t :: ts)).events := by
  have hguarded : (statement s (t :: ts)).events <+: (guarded statement s (t :: ts)).events := by
    cases ho : (statement s (t :: ts)).outcome with
    | failed m =>
      rw [guarded_of_failed ho]
      exact List.prefix_append _ _
    | done | tooDeep => exact ⟨[], by rw [guarded_of_not_failed (by simp [ho]), List.append_nil]⟩
  have hround : (round statement s (t :: ts)).events = (guarded statement s (t :: ts)).events := by
    rcases hg : guarded statement s (t :: ts) with ⟨es, o, rest⟩
    cases o <;> simp [round, bind_run, hg, skipBlankLines_run, progressPast]
  rw [block_run, dropWhile_separates (by simpa using ht)]
  refine hguarded.trans (hround ▸ ?_)
  refine iterate_induction (P := fun _ us r => us = t :: ts →
    (round statement s (t :: ts)).events <+: r.events) ?_ ?_ ?_ () (t :: ts) rfl
  · rintro _ _ hready rfl
    simp [hstop] at hready
  · rintro _ _ _ - - h
    exact ⟨[], by rw [h, List.append_nil]⟩
  · rintro _ _ _ _ _ _ - hstep - - h
    rw [← h, hstep]
    exact List.prefix_append _ _

end Rule
end Mermaid
