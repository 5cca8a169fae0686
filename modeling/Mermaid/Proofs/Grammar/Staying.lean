import Mermaid.Proofs.Grammar.Progress
import Mermaid.Proofs.Token.Breaks

/-! Rules that stay on a line. What such a rule replies depends on the line alone, not on the lines
behind it, and of these it takes nothing. Recovery takes no more than the line's break, and so a
block of statements that stay on their lines falls into the blocks of the lines. -/
namespace Mermaid.Rule
variable {ε α β : Type} {banned k : TokenKind}

/-- The tokens of a line without its break, none of them of the kind `banned`. -/
def OnLine (banned : TokenKind) (us : List Token) : Prop :=
  ∀ u ∈ us, u.kind ≠ .newline ∧ u.kind ≠ banned

theorem OnLine.suffix {us vs : List Token} (h : OnLine banned us) (hvs : vs <:+ us) :
    OnLine banned vs :=
  fun v hv => h v (hvs.subset hv)

/-- The kind of the first token of a line; that of its break, where it has no other. -/
def headKind (us : List Token) : TokenKind := (us.head?.map (·.kind)).getD .newline

/-- Stays on every line whose first token is of the kind `k`. -/
def StaysAt (banned k : TokenKind) (r : Rule ε α) : Prop :=
  ∀ us close, OnLine banned us → close.kind = .newline → headKind us = k →
    ∃ es o vs, vs <:+ us ∧ o ≠ .tooDeep ∧
      ∀ s more, r s (us ++ close :: more) = ⟨es, o, vs ++ close :: more⟩

/-- Stays on every line. -/
def Stays (banned : TokenKind) (r : Rule ε α) : Prop := ∀ k, StaysAt banned k r

/-- A function that reads on a line, and reads the same whatever comes behind the line. -/
def ReadsLine (read : List Token → α × List Token) : Prop :=
  ∀ us close, (∀ u ∈ us, u.kind ≠ .newline) → close.kind = .newline →
    ∃ a vs, vs <:+ us ∧ ∀ more, read (us ++ close :: more) = (a, vs ++ close :: more)

section rules
variable {rule : Rule ε α} {next : α → Rule ε β}

theorem StaysAt.bind (h : StaysAt banned k rule) (hn : ∀ a, Stays banned (next a)) :
    StaysAt banned k (rule >>= next) := by
  intro us close hus hclose hk
  obtain ⟨es, o, vs, hvs, ho, hrun⟩ := h us close hus hclose hk
  cases o with
  | done a =>
    obtain ⟨es', o', ws, hws, ho', hrun'⟩ := hn a (headKind vs) vs close (hus.suffix hvs) hclose rfl
    refine ⟨es ++ es', o', ws, hws.trans hvs, ho', fun s more => ?_⟩
    rw [bind_run, hrun, Reply.follow_done, hrun', Reply.after_mk]
  | failed m =>
    refine ⟨es, .failed m, vs, hvs, nofun, fun s more => ?_⟩
    rw [bind_run, hrun, Reply.follow_failed]
  | tooDeep => exact absurd rfl ho

theorem Stays.bind (h : Stays banned rule) (hn : ∀ a, Stays banned (next a)) :
    Stays banned (rule >>= next) := fun k => (h k).bind hn

/-- A rule that takes nothing and does not look. -/
private theorem Stays.still {r : Rule ε α} {es : List ε} {o : Outcome α} (ho : o ≠ .tooDeep)
    (h : ∀ s ts, r s ts = ⟨es, o, ts⟩) : Stays banned r :=
  fun _ us _ _ _ _ => ⟨es, o, us, us.suffix_refl, ho, fun s _ => h s _⟩

theorem Stays.pure (a : α) : Stays banned (pure a : Rule ε α) :=
  .still (o := .done a) nofun fun _ _ => rfl

theorem Stays.map (f : α → β) (h : Stays banned rule) : Stays banned (f <$> rule) :=
  .bind h fun _ => .pure _

theorem Stays.emit (e : ε) : Stays banned (emit e) :=
  .still (o := .done ()) nofun fun _ _ => rfl

theorem StaysAt.emitBind (e : ε) {next : Unit → Rule ε β} (h : StaysAt banned k (next ())) :
    StaysAt banned k (Rule.emit e >>= next) := by
  intro us close hus hclose hk
  obtain ⟨es, o, vs, hvs, ho, hrun⟩ := h us close hus hclose hk
  refine ⟨e :: es, o, vs, hvs, ho, fun s more => ?_⟩
  rw [bind_run, emit_run, Reply.follow_done, hrun, Reply.after_mk, List.singleton_append]

theorem Stays.fail (m : Expectation) : Stays banned (fail m : Rule ε α) :=
  .still (o := .failed m) nofun fun _ _ => rfl

theorem Stays.take {read : List Token → α × List Token} (h : ReadsLine read) :
    Stays banned (take read : Rule ε α) := by
  intro k us close hus hclose _
  obtain ⟨a, vs, hvs, hread⟩ := h us close (fun u hu => (hus u hu).1) hclose
  refine ⟨[], .done a, vs, hvs, nofun, fun s more => ?_⟩
  rw [take_run, hread]

/-- A rule that goes on with what it sees of the line. -/
theorem Stays.lookBind {view : List Token → α} (h : ∀ us close, OnLine banned us →
    close.kind = .newline → ∃ a, (∀ more, view (us ++ close :: more) = a) ∧
      StaysAt banned (headKind us) (next a)) : Stays banned (look view >>= next) := by
  intro k us close hus hclose _
  obtain ⟨a, hview, hnext⟩ := h us close hus hclose
  obtain ⟨es, o, vs, hvs, ho, hrun⟩ := hnext us close hus hclose rfl
  refine ⟨es, o, vs, hvs, ho, fun s more => ?_⟩
  rw [bind_run, look_run, Reply.follow_done, hview, hrun, Reply.after_nil]

private theorem head?_line (us : List Token) {close : Token} (hclose : close.kind = .newline)
    (more : List Token) : (us ++ close :: more).head?.map (·.kind) = some (headKind us) := by
  cases us with
  | nil => exact congrArg some hclose
  | cons u us => rfl

/-- A rule that goes on with the kind of the next token. -/
theorem Stays.nextKindBind {next : Option TokenKind → Rule ε β}
    (h : ∀ k, StaysAt banned k (next (some k))) : Stays banned (nextKind >>= next) :=
  .lookBind fun _ _ _ hclose => ⟨_, head?_line _ hclose, h _⟩

theorem StaysAt.advance (hk : k ≠ .newline) : StaysAt banned k (advance : Rule ε Token) := by
  intro us close _ _ hhead
  cases us with
  | nil => exact absurd hhead.symm hk
  | cons u us => exact ⟨[], .done u, us, us.suffix_cons u, nofun, fun _ _ => rfl⟩

theorem Stays.accept {kind : TokenKind} (hkind : kind ≠ .newline) :
    Stays banned (accept kind : Rule ε Bool) := by
  intro k us close hus hclose hk
  by_cases h : headKind us = kind
  · cases us with
    | nil => exact absurd h.symm hkind
    | cons u us =>
      exact ⟨[], .done true, us, us.suffix_cons u, nofun, fun _ _ => accept_cons h _⟩
  · refine ⟨[], .done false, us, us.suffix_refl, nofun, fun _ more => accept_of_ne ?_⟩
    rw [head?_line _ hclose]
    exact fun hsome => h (Option.some.inj hsome)

theorem Stays.expect {kind : TokenKind} (hkind : kind ≠ .newline) (m : Expectation) :
    Stays banned (expect kind m : Rule ε Token) := by
  intro k us close hus hclose hk
  by_cases h : headKind us = kind
  · cases us with
    | nil => exact absurd h.symm hkind
    | cons u us =>
      exact ⟨[], .done u, us, us.suffix_cons u, nofun, fun _ _ => expect_cons h m _⟩
  · refine ⟨[], .failed m, us, us.suffix_refl, nofun, fun s more => ?_⟩
    cases us with
    | nil => simp [Rule.expect, hclose, Ne.symm hkind]
    | cons u us =>
      have hu : u.kind ≠ kind := h
      simp [Rule.expect, hu]

/-- What a reader takes stands on one line. -/
theorem ReadsLine.exists_taken {read : List Token → α × List Token} (h : ReadsLine read)
    (hr : Reads read) (ts : List Token) :
    ∃ taken, taken ++ (read ts).2 = ts ∧ ∀ t ∈ taken, t.kind ≠ .newline := by
  have hline : ∀ t ∈ ts.takeWhile (·.kind != .newline), t.kind ≠ .newline :=
    fun t ht => by simpa using List.mem_takeWhile_imp ht
  have hts := List.takeWhile_append_dropWhile (p := (·.kind != .newline)) (l := ts)
  cases hd : ts.dropWhile (·.kind != .newline) with
  | nil =>
    rw [hd, List.append_nil] at hts
    obtain ⟨taken, htaken⟩ := hr ts
    refine ⟨taken, htaken, fun t ht => hline t ?_⟩
    rw [hts, ← htaken]
    exact List.mem_append_left _ ht
  | cons close more =>
    have hclose : close.kind = .newline := by
      have hhead := List.head?_dropWhile_not (·.kind != .newline) ts
      simpa [hd] using hhead
    obtain ⟨_, vs, ⟨taken, htaken⟩, hread⟩ := h _ close hline hclose
    rw [hd] at hts
    refine ⟨taken, ?_, fun t ht => hline t (htaken ▸ List.mem_append_left _ ht)⟩
    rw [← hts, hread, ← List.append_assoc, htaken]

theorem ReadsLine.span {p : Token → Bool} (hp : ∀ t, t.kind = .newline → p t = false) :
    ReadsLine (List.span p) := by
  rintro us close - hclose
  refine ⟨us.takeWhile p, us.dropWhile p, List.dropWhile_suffix p, fun more => ?_⟩
  rw [List.span_eq_takeWhile_dropWhile]
  induction us with
  | nil => simp [hp close hclose]
  | cons u us ih =>
    rw [Prod.mk.injEq] at ih
    cases hu : p u <;> simp [hu, ih]

theorem Stays.skipLine : Stays banned (skipLine : Rule ε (List Token)) :=
  .take (.span fun t ht => by simp [ht])

/-- A loop whose rounds stay on lines, and are ready for no line break. -/
theorem Stays.iterate {ready : Token → Bool} {step : α → Rule ε α}
    (hready : ∀ t, t.kind = .newline → ready t = false)
    (h : ∀ a k, k ≠ .newline → StaysAt banned k (step a)) (a : α) :
    Stays banned (iterate ready step a) := by
  rintro k us close hus hclose -
  -- A round may leave any end part of the line, so the induction is on the length of the line.
  induction hn : us.length using Nat.strongRecOn generalizing a us with
  | ind n ih =>
    cases us with
    | nil =>
      exact ⟨[], .done a, [], List.nil_suffix, nofun, fun _ _ =>
        iterate_stop (hready close hclose) a _⟩
    | cons u us =>
      cases hr : ready u with
      | false =>
        exact ⟨[], .done a, u :: us, List.suffix_refl _, nofun, fun _ _ => iterate_stop hr a _⟩
      | true =>
        obtain ⟨es, o, vs, hvs, ho, hrun⟩ :=
          h a u.kind (hus u List.mem_cons_self).1 (u :: us) close hus hclose rfl
        have hround : ∀ s more, step a s (u :: (us ++ close :: more)) =
            ⟨es, o, vs ++ close :: more⟩ := hrun
        by_cases hlast : ∃ b, o = .done b ∧ vs.length ≤ us.length
        · obtain ⟨b, rfl, hl⟩ := hlast
          obtain ⟨es', o', ws, hws, ho', hrun'⟩ :=
            ih vs.length (hn ▸ Nat.lt_succ_of_le hl) b vs (hus.suffix hvs) rfl
          refine ⟨es ++ es', o', ws, hws.trans hvs, ho', fun s more => ?_⟩
          rw [List.cons_append, iterate_cons hr (hround s more) (by simpa using hl), hrun',
            Reply.after_mk]
        · refine ⟨es, o, vs, hvs, ho, fun s more => ?_⟩
          rw [List.cons_append, iterate_last hr ?_, hround]
          intro b hb
          rw [hround] at hb ⊢
          have hl : us.length < vs.length := Nat.lt_of_not_le fun hle => hlast ⟨b, hb, hle⟩
          simpa using hl

/-- A rule that passes over blank lines first, on a line that is not blank. -/
theorem StaysAt.pastBlank {next : Option TokenKind → Rule ε β} (hk : k ≠ .newline ∧ k ≠ .comment)
    (h : StaysAt banned k (next (some k))) :
    StaysAt banned k (do skipBlankLines; next (← nextKind)) := by
  intro us close hus hclose hhead
  obtain ⟨es, o, vs, hvs, ho, hrun⟩ := h us close hus hclose hhead
  refine ⟨es, o, vs, hvs, ho, fun s more => ?_⟩
  have hblank : (us ++ close :: more).dropWhile separates = us ++ close :: more := by
    refine dropWhile_separates fun t ht => ?_
    have hkind := head?_line us hclose more
    rw [ht, hhead] at hkind
    have hkind : t.kind = k := Option.some.inj hkind
    simp [separates, hkind, hk.1, hk.2]
  rw [bind_run, skipBlankLines_run, Reply.follow_done, hblank, Reply.after_nil, bind_run,
    nextKind_run, head?_line _ hclose, hhead, Reply.follow_done, hrun, Reply.after_nil]

end rules

section recovery
variable [Recovers ε] {statement : Rule ε Unit} {P : ε → Prop}

/-- A statement that stays on its line and writes only events of which `P` holds, unless it begins
with a token of the kind `banned`. -/
structure LineLocal (banned : TokenKind) (P : ε → Prop) (statement : Rule ε Unit) : Prop where
  taken : ∀ s t ts, (statement s (t :: ts)).rest <:+ ts
  stays : ∀ k, k ≠ .newline ∧ k ≠ .comment → k ≠ banned → StaysAt banned k statement
  events : ∀ s t ts, separates t = false → t.kind ≠ banned →
    ∀ e ∈ (statement s (t :: ts)).events, P e
  recovered : ∀ d, P (Recovers.recovered d)
  restarts : Recovers.restarts ε .newline = false

/-- Behind a token of a line recovery goes on at a token of the line, or behind its break. -/
private theorem resumption_line {restarts : TokenKind → Bool} (hrestarts : restarts .newline = false)
    {last : Token} (hlast : last.kind ≠ .newline) {vs : List Token} (hvs : OnLine banned vs)
    {close : Token} (hclose : close.kind = .newline) : ∃ left, left <:+ vs ++ [close] ∧
      ∀ more, resumption restarts (some last) (vs ++ close :: more) = left ++ more := by
  induction vs generalizing last with
  | nil =>
    refine ⟨[], List.nil_suffix, fun more => ?_⟩
    rw [List.nil_append, resumption_cons hlast (hclose ▸ hrestarts), resumption_newline hclose,
      List.nil_append]
  | cons v vs ih =>
    cases hv : restarts v.kind with
    | true => exact ⟨v :: vs ++ [close], List.suffix_refl _, fun more => by simp [resumption, hv]⟩
    | false =>
      obtain ⟨left, hleft, hrun⟩ :=
        ih (hvs v List.mem_cons_self).1 (hvs.suffix (vs.suffix_cons v))
      refine ⟨left, hleft.trans (List.suffix_cons v _), fun more => ?_⟩
      rw [List.cons_append, resumption_cons hlast hv, hrun]

/-- The token before an end part of a line is on the line. -/
theorem previous?_line {us vs : List Token} (hvs : vs <:+ us)
    (hlength : vs.length < us.length) : ∃ last ∈ us, ∀ (s : Stream) (rest : List Token),
      us ++ rest <:+ s.tokens → s.previous? (vs ++ rest) = some last := by
  obtain ⟨taken, rfl⟩ := hvs
  rcases List.eq_nil_or_concat taken with rfl | ⟨init, last, rfl⟩
  · exact absurd hlength (Nat.lt_irrefl _)
  · refine ⟨last, by simp, fun s rest ⟨front, hfront⟩ => ?_⟩
    have htokens : s.tokens = front ++ init ++ last :: (vs ++ rest) := by simp [← hfront]
    have hindex : s.index (vs ++ rest) = (front ++ init).length + 1 := by
      rw [Stream.index, htokens, List.length_append, List.length_cons]
      omega
    rw [Stream.previous?, hindex]
    simp [htokens]

/-- A statement takes tokens of its own line only, the one that it begins with among them. -/
theorem LineLocal.statement_line (h : LineLocal banned P statement) {u : Token} {us : List Token}
    {close : Token} (hus : OnLine banned (u :: us)) (hu : separates u = false)
    (hclose : close.kind = .newline) : ∃ es o vs, (∀ e ∈ es, P e) ∧ vs <:+ us ∧ o ≠ .tooDeep ∧
      ∀ s more, statement s (u :: us ++ close :: more) = ⟨es, o, vs ++ close :: more⟩ := by
  obtain ⟨hnewline, hbanned⟩ := hus u List.mem_cons_self
  have hcomment : u.kind ≠ .comment := by
    simp only [separates, Bool.or_eq_false_iff, beq_eq_false_iff_ne] at hu
    exact hu.2
  obtain ⟨es, o, vs, hvs, ho, hrun⟩ :=
    h.stays u.kind ⟨hnewline, hcomment⟩ hbanned (u :: us) close hus hclose rfl
  -- The reply is the same on every stream: one without tokens tells what is taken and written.
  have halone := hrun ⟨[], ⟨1, 1⟩⟩ []
  rw [List.cons_append] at halone
  refine ⟨es, o, vs, ?_, List.suffix_of_suffix_length_le hvs (us.suffix_cons u) ?_, ho, hrun⟩
  · have hwritten := h.events ⟨[], ⟨1, 1⟩⟩ u (us ++ [close]) hu hbanned
    rwa [halone] at hwritten
  · have htaken := (h.taken ⟨[], ⟨1, 1⟩⟩ u (us ++ [close])).length_le
    rw [halone] at htaken
    simpa using htaken

/-- A guarded statement takes tokens of its own line only. -/
theorem LineLocal.guarded_line (h : LineLocal banned P statement) {u : Token} {us : List Token}
    {close : Token} (hus : OnLine banned (u :: us)) (hu : separates u = false)
    (hclose : close.kind = .newline) : ∃ es left, (∀ e ∈ es, P e) ∧ left <:+ us ++ [close] ∧
      ∀ s more, u :: us ++ close :: more <:+ s.tokens →
        guarded statement s (u :: us ++ close :: more) = ⟨es, .done (), left ++ more⟩ := by
  obtain ⟨es, o, vs, hevents, hvs, ho, hrun⟩ := h.statement_line hus hu hclose
  cases o with
  | done _ =>
    refine ⟨es, vs ++ [close], hevents, ?_, fun s more _ => ?_⟩
    · exact (List.suffix_append_inj_of_length_eq rfl).mpr ⟨hvs, rfl⟩
    · rw [guarded_of_done (hrun s more), List.append_assoc]
      rfl
  | failed m =>
    have hline : vs <:+ u :: us := hvs.trans (us.suffix_cons u)
    obtain ⟨last, hlast, hprevious⟩ := previous?_line hline (Nat.lt_succ_of_le hvs.length_le)
    obtain ⟨left, hleft, hresumption⟩ :=
      resumption_line h.restarts (hus last hlast).1 (hus.suffix hline) hclose
    have hcurrent : ∀ (s : Stream) more, s.current (vs ++ close :: more) = vs.headD close := by
      cases vs <;> exact fun _ _ => rfl
    refine ⟨es ++ [Recovers.recovered (m.unmetAt (vs.headD close))], left, ?_, ?_,
      fun s more hs => ?_⟩
    · exact List.forall_mem_append.mpr ⟨hevents, List.forall_mem_singleton.mpr (h.recovered _)⟩
    · exact hleft.trans ((List.suffix_append_inj_of_length_eq rfl).mpr ⟨hvs, rfl⟩)
    · rw [guarded_of_failed (by rw [hrun]), hrun]
      simp only [hcurrent, hprevious s _ hs, hresumption]
  | tooDeep => exact absurd rfl ho

/-- A statement that begins on a line leaves the rest of its line, its break included, and the lines
behind it; if it fails, recovery takes no more than the rest of the line. -/
def KeepsLines (banned : TokenKind) (statement : Rule ε Unit) (s : Stream) : Prop :=
  ∀ u us close more, u :: us ++ close :: more <:+ s.tokens → OnLine banned (u :: us) →
    separates u = false → close.kind = .newline →
      (∃ vs, vs <:+ us ∧ (statement s (u :: us ++ close :: more)).rest = vs ++ close :: more) ∧
      ∃ left, left <:+ us ++ [close] ∧
        (guarded statement s (u :: us ++ close :: more)).rest = left ++ more

theorem LineLocal.keepsLines (h : LineLocal banned P statement) (s : Stream) :
    KeepsLines banned statement s := by
  intro u us close more hs hus hu hclose
  obtain ⟨_, _, vs, -, hvs, -, hrun⟩ := h.statement_line hus hu hclose
  obtain ⟨_, left, -, hleft, hguarded⟩ := h.guarded_line hus hu hclose
  exact ⟨⟨vs, hvs, by rw [hrun]⟩, left, hleft, by rw [hguarded s more hs]⟩

/-- The block of a line, and the block of what comes behind it. -/
theorem LineLocal.block_line (h : LineLocal banned P statement) {us : List Token} {close : Token}
    (hus : OnLine banned us) (hclose : close.kind = .newline) : ∃ es, (∀ e ∈ es, P e) ∧
      ∀ s more, us ++ close :: more <:+ s.tokens →
        block statement none s (us ++ close :: more) = (block statement none s more).after es := by
  induction hn : us.length using Nat.strongRecOn generalizing us with
  | ind n ih =>
    cases hd : us.dropWhile separates with
    | nil =>
      refine ⟨[], List.forall_mem_nil _, fun s more _ => ?_⟩
      have hblank : (us ++ close :: more).dropWhile separates = more.dropWhile separates := by
        simp [List.dropWhile_append, hd, separates, hclose]
      rw [block_run, hblank, Reply.after_nil]
      rfl
    | cons u vs =>
      have hblank : ∀ more, (us ++ close :: more).dropWhile separates =
          u :: (vs ++ close :: more) := by
        simp [List.dropWhile_append, hd]
      have hvs : u :: vs <:+ us := hd ▸ List.dropWhile_suffix _
      have hu : separates u = false := separates_of_dropWhile hd
      obtain ⟨es, left, hes, hleft, hrun⟩ := h.guarded_line (hus.suffix hvs) hu hclose
      have hround : ∀ s more, us ++ close :: more <:+ s.tokens →
          block statement none s (us ++ close :: more) =
            (block statement none s (left ++ more)).after es := by
        intro s more hs
        have hsuffix : u :: vs ++ close :: more <:+ s.tokens := by
          have hdrop := List.dropWhile_suffix separates (l := us ++ close :: more)
          rw [hblank] at hdrop
          exact hdrop.trans hs
        have hlength : (left ++ more).length ≤ (vs ++ close :: more).length := by
          have hlength := hleft.length_le
          simp only [List.length_append, List.length_cons, List.length_nil] at hlength ⊢
          omega
        have hfirst : block statement none s (us ++ close :: more) =
            block statement none s (u :: (vs ++ close :: more)) := by
          rw [block_run, hblank, block_run, dropWhile_separates (by simpa using hu)]
        exact hfirst.trans
          (block_cons hu (Option.some_ne_none _) (hrun s more hsuffix) hlength)
      -- The statement took the break of the line too, or the block goes on within the line.
      rcases List.suffix_concat_iff.mp hleft with rfl | ⟨ws, rfl, hws⟩
      · exact ⟨es, hes, hround⟩
      · have hlength := hws.length_le
        have hlength' := hvs.length_le
        rw [List.length_cons] at hlength'
        obtain ⟨es', hes', hblock⟩ :=
          ih ws.length (by omega) (hus.suffix (hws.trans ((vs.suffix_cons u).trans hvs))) rfl
        refine ⟨es ++ es', List.forall_mem_append.mpr ⟨hes, hes'⟩, fun s more hs => ?_⟩
        have hws' : ws ++ close :: more <:+ s.tokens := by
          have hline := hws.trans ((vs.suffix_cons u).trans hvs)
          exact ((List.suffix_append_inj_of_length_eq rfl).mpr ⟨hline, rfl⟩).trans hs
        rw [hround s more hs, List.append_assoc, List.singleton_append, hblock s more hws',
          Reply.after_after]

end recovery

section lines
variable [Recovers ε] {statement : Rule ε Unit} {P : ε → Prop}

/-- What a block of statements writes about a line that is read on its own as line `n`. -/
def lineEvents (statement : Rule ε Unit) (l : String) (n : Nat) : List ε :=
  let s := Stream.ofTextFrom n (l ++ "\n")
  (block statement none s s.tokens).events

/-- A text without breaks, and without tokens of the kind `banned`. -/
def PlainLine (banned : TokenKind) (l : String) : Prop :=
  Unbroken l.toList ∧ ∀ t ∈ scan (l ++ "\n"), t.kind ≠ banned

instance (l : String) : Decidable (PlainLine banned l) :=
  inferInstanceAs (Decidable (Unbroken l.toList ∧ ∀ t ∈ scan (l ++ "\n"), t.kind ≠ banned))

/-- A line is read to its end on its own, and in front of other lines as on its own. -/
theorem LineLocal.block_ofTextFrom (h : LineLocal banned P statement) {l : String}
    (hl : PlainLine banned l) (n : Nat) :
    let line := Stream.ofTextFrom n (l ++ "\n")
    (∀ e ∈ lineEvents statement l n, P e) ∧
    block statement none line line.tokens = ⟨lineEvents statement l n, .done (), []⟩ ∧
    ∀ s more, line.tokens ++ more <:+ s.tokens →
      block statement none s (line.tokens ++ more) =
        (block statement none s more).after (lineEvents statement l n) := by
  intro line
  obtain ⟨us, close, htokens, hus, hclose⟩ := Stream.exists_tokens_line n hl.1
  have honLine : OnLine banned us := by
    intro u hu
    obtain ⟨t, ht, hkind⟩ := Stream.exists_kind_eq (htokens ▸ List.mem_append_left [close] hu)
    exact ⟨hus u hu, hkind ▸ hl.2 t ht⟩
  obtain ⟨es, hes, hblock⟩ := h.block_line honLine hclose
  have halone : block statement none line line.tokens = ⟨es, .done (), []⟩ := by
    have hrun := hblock line [] (htokens ▸ List.suffix_refl _)
    have hnil : block statement none line [] = ⟨[], .done (), []⟩ := iterate_nil ()
    rw [hnil, Reply.after_mk, List.append_nil] at hrun
    exact htokens ▸ hrun
  have hevents : lineEvents statement l n = es := congrArg Reply.events halone
  refine ⟨hevents ▸ hes, hevents ▸ halone, fun s more hs => ?_⟩
  have hline : line.tokens ++ more = us ++ close :: more := by
    rw [htokens, List.append_assoc]
    rfl
  rw [hline] at hs ⊢
  exact hevents ▸ hblock s more hs

/-- A block of lines writes what the blocks of the lines do. -/
theorem LineLocal.block_lines (h : LineLocal banned P statement) {lines : List String}
    (hlines : ∀ l ∈ lines, PlainLine banned l) (n : Nat) {s : Stream}
    (hs : Stream.lineTokens n lines <:+ s.tokens) :
    block statement none s (Stream.lineTokens n lines) =
      ⟨(lines.zipIdx n).flatMap fun (l, n) => lineEvents statement l n, .done (), []⟩ := by
  induction lines generalizing n with
  | nil => exact iterate_nil ()
  | cons l lines ih =>
    obtain ⟨hl, hmore⟩ := List.forall_mem_cons.mp hlines
    obtain ⟨-, -, hblock⟩ := h.block_ofTextFrom hl n
    have hs' : Stream.lineTokens (n + 1) lines <:+ s.tokens := (List.suffix_append _ _).trans hs
    rw [Stream.lineTokens, hblock s _ hs, ih hmore (n + 1) hs', Reply.after_mk, List.zipIdx_cons,
      List.flatMap_cons]

end lines
end Mermaid.Rule
