import Mermaid.Proofs.Flowchart.Balance
import Mermaid.Proofs.Flowchart.Missing

/-! How subgraphs nest. Read with nothing but a count of the subgraphs that are open, one statement after
the other, a text is read just as by the grammar; those that are still open at its end are closed there. -/
namespace Mermaid.Flowchart
open Rule

/-- One step of a reading that counts the subgraphs that are open: from some tokens, where `k` are open,
to others where `k'` are. An end where a statement can begin closes the innermost subgraph that is open,
if one is. -/
inductive Step (s : Stream) : Nat → List Token → List Event → Nat → List Token → Prop
  | blank {k : Nat} {t : Token} {ts : List Token} (ht : separates t) : Step s k (t :: ts) [] k ts
  | statement {k : Nat} {t : Token} {ts rest : List Token} {es : List Event}
      (hblank : separates t = false) (hhead : t.kind ≠ .subgraph) (hend : t.kind = .endSubgraph → k = 0)
      (h : guarded (Grammar.statement 0) s (t :: ts) = ⟨es, .done (), rest⟩) :
      Step s k (t :: ts) es k rest
  | headless {k : Nat} {t : Token} {ts rest : List Token} {m : Expectation} (ht : t.kind = .subgraph)
      (hh : Grammar.subgraphHead s (t :: ts) = ⟨[], .failed m, rest⟩) :
      Step s k (t :: ts) [.recovered (m.unmetAt (s.current rest))] k
        (resumption (Recovers.restarts Event) (s.previous? rest) rest)
  | enter {k : Nat} {t : Token} {ts rest : List Token} {head : Subgraph} (ht : t.kind = .subgraph)
      (hh : Grammar.subgraphHead s (t :: ts) = ⟨[], .done head, rest⟩) :
      Step s k (t :: ts) [.enter head] (k + 1) rest
  | leave {k : Nat} {t : Token} {ts : List Token} (ht : t.kind = .endSubgraph) :
      Step s (k + 1) (t :: ts) [.leave] k ts

/-- Reads step by step. -/
inductive Nested (s : Stream) : Nat → List Token → List Event → Nat → List Token → Prop
  | refl (k : Nat) (ts : List Token) : Nested s k ts [] k ts
  | step {k n k' : Nat} {ts us vs : List Token} {es fs : List Event} (h : Step s k ts es n us)
      (more : Nested s n us fs k' vs) : Nested s k ts (es ++ fs) k' vs

/-- The diagnostic of a subgraph that the text does not end. -/
def unendedAt (s : Stream) : Diagnostic := Expectation.subgraphEnd.unmetAt s.endToken

/-- What closes `k` subgraphs at the end of a text. -/
def closing (s : Stream) (k : Nat) : List Event :=
  (List.replicate k [Event.leave, .recovered (unendedAt s)]).flatten

theorem closing_succ (s : Stream) (k : Nat) :
    closing s (k + 1) = closing s k ++ [.leave, .recovered (unendedAt s)] := by
  simp [closing, List.replicate_succ']

/-- There is one step at most. -/
theorem Step.unique {s : Stream} {k n n' : Nat} {ts us us' : List Token} {es es' : List Event}
    (h : Step s k ts es n us) (h' : Step s k ts es' n' us') : es = es' ∧ n = n' ∧ us = us' := by
  cases h with
  | blank ht =>
    cases h' with
    | blank _ => exact ⟨rfl, rfl, rfl⟩
    | statement hblank _ _ _ => simp [ht] at hblank
    | headless ht' _ | enter ht' _ | leave ht' => simp [separates, ht'] at ht
  | statement hblank hhead hend h =>
    cases h' with
    | blank ht' => simp [ht'] at hblank
    | statement _ _ _ h' => simpa [h] using h'
    | headless ht' _ | enter ht' _ => exact absurd ht' hhead
    | leave ht' => cases hend ht'
  | headless ht hh =>
    cases h' with
    | blank ht' => simp [separates, ht] at ht'
    | statement _ hhead _ _ => exact absurd ht hhead
    | headless _ hh' =>
      rw [hh] at hh'
      cases hh'
      exact ⟨rfl, rfl, rfl⟩
    | enter _ hh' =>
      rw [hh] at hh'
      cases hh'
    | leave ht' => simp [ht] at ht'
  | enter ht hh =>
    cases h' with
    | blank ht' => simp [separates, ht] at ht'
    | statement _ hhead _ _ => exact absurd ht hhead
    | headless _ hh' =>
      rw [hh] at hh'
      cases hh'
    | enter _ hh' =>
      rw [hh] at hh'
      cases hh'
      exact ⟨rfl, rfl, rfl⟩
    | leave ht' => simp [ht] at ht'
  | leave ht =>
    cases h' with
    | blank ht' => simp [separates, ht] at ht'
    | statement _ _ hend _ => cases hend ht
    | headless ht' _ | enter ht' _ => simp [ht] at ht'
    | leave _ => exact ⟨rfl, rfl, rfl⟩

namespace Nested
variable {s : Stream} {k k' k'' : Nat} {ts us vs : List Token} {es fs : List Event}

theorem of_step (h : Step s k ts es k' us) : Nested s k ts es k' us := by
  simpa using Nested.step h (.refl k' us)

theorem trans (h : Nested s k ts es k' us) (h' : Nested s k' us fs k'' vs) :
    Nested s k ts (es ++ fs) k'' vs := by
  induction h with
  | refl => exact h'
  | step h _ ih =>
    rw [List.append_assoc]
    exact .step h (ih h')

theorem pastBlank (h : Nested s k (ts.dropWhile separates) es k' us) : Nested s k ts es k' us := by
  induction ts with
  | nil => exact h
  | cons t ts ih =>
    cases ht : separates t with
    | false => rwa [List.dropWhile_cons_of_neg (by simp [ht])] at h
    | true =>
      rw [List.dropWhile_cons_of_pos ht] at h
      exact .step (.blank ht) (ih h)

/-- A reading to the end of the text goes through every place that a reading reaches. -/
theorem split (h : Nested s k ts es k' []) (h' : Nested s k ts fs k'' us) :
    ∃ gs, es = fs ++ gs ∧ Nested s k'' us gs k' [] := by
  induction h' generalizing es with
  | refl => exact ⟨es, rfl, h⟩
  | step hstep _ ih =>
    cases h with
    | refl => cases hstep
    | step hstep' more =>
      obtain ⟨rfl, rfl, rfl⟩ := hstep.unique hstep'
      obtain ⟨gs, rfl, hgs⟩ := ih more
      exact ⟨gs, (List.append_assoc _ _ _).symm, hgs⟩

end Nested

/-- Reads as with a count of the open subgraphs, but for those that the end of the text closes. -/
def ReadsNested (s : Stream) (k : Nat) (ts : List Token) (r : Reply Event Unit) : Prop :=
  ∃ es j, r.events = es ++ closing s j ∧ Nested s k ts es (k + j) r.rest ∧ (0 < j → r.rest = [])

namespace ReadsNested
variable {s : Stream} {k : Nat} {ts us : List Token} {es : List Event} {o : Outcome Unit}
  {r : Reply Event Unit}

theorem of_nested (h : Nested s k ts es k us) : ReadsNested s k ts ⟨es, o, us⟩ :=
  ⟨es, 0, (List.append_nil es).symm, h, fun h => absurd h (Nat.lt_irrefl 0)⟩

theorem pastBlank (h : ReadsNested s k (ts.dropWhile separates) r) : ReadsNested s k ts r := by
  obtain ⟨es, j, hevents, hnested, hend⟩ := h
  exact ⟨es, j, hevents, hnested.pastBlank, hend⟩

/-- At the end of the text nothing is read any more. -/
theorem of_nil (h : ReadsNested s k [] r) : r.events = [] ∧ r.rest = [] := by
  obtain ⟨events, o, rest⟩ := r
  obtain ⟨es, j, hevents, hnested, -⟩ := h
  generalize hj : k + j = k' at hnested
  cases hnested with
  | refl =>
    obtain rfl : j = 0 := by omega
    exact ⟨hevents, rfl⟩
  | step hstep _ => cases hstep

theorem after (h : ReadsNested s k ts ⟨es, o, us⟩) (h' : ReadsNested s k us r) :
    ReadsNested s k ts (r.after es) := by
  obtain ⟨fs, j, rfl, hnested, hend⟩ := h
  rcases Nat.eq_zero_or_pos j with rfl | hj
  · obtain ⟨gs, i, hevents, hnested', hend'⟩ := h'
    refine ⟨fs ++ gs, i, ?_, hnested.trans hnested', hend'⟩
    simp [Reply.after, closing, hevents]
  · -- what comes behind the end of the text is empty
    obtain rfl : us = [] := hend hj
    obtain ⟨hevents, hrest⟩ := h'.of_nil
    refine ⟨fs, j, ?_, ?_, fun _ => hrest⟩
    · rw [Reply.after, hevents, List.append_nil]
    · rw [Reply.after, hrest]
      exact hnested

end ReadsNested

namespace Grammar
variable {s : Stream}

/-- A statement reads as with a count wherever a block can begin it. -/
def StatementNests (s : Stream) (statement : Rule Event Unit) : Prop :=
  ∀ k t ts, separates t = false → (t.kind = .endSubgraph → k = 0) →
    (guarded statement s (t :: ts)).outcome ≠ .tooDeep →
      ReadsNested s k (t :: ts) (guarded statement s (t :: ts))

/-- A block reads as with a count where its statements do. -/
theorem readsNested_block {k : Nat} {stop : Option TokenKind} {statement : Rule Event Unit}
    (htakes : Takes True statement) (h : StatementNests s statement)
    (hstop : stop = some .endSubgraph ∨ k = 0) (ts : List Token)
    (hdeep : (block statement stop s ts).outcome ≠ .tooDeep) :
    ReadsNested s k ts (block statement stop s ts) := by
  induction hn : ts.length using Nat.strongRecOn generalizing ts with
  | ind n ih =>
    have hdrop := (List.dropWhile_sublist separates (l := ts)).length_le
    refine .pastBlank ?_
    rw [← block_dropWhile] at hdeep ⊢
    cases hts : ts.dropWhile separates with
    | nil =>
      rw [block_of_head (by simp) (by simp)]
      exact .of_nested (.refl k [])
    | cons t us =>
      have ht : separates t = false := separates_of_dropWhile hts
      rw [hts] at hdeep hdrop
      by_cases hend : some t.kind = stop
      · rw [block_of_head (by simpa using ht) (by simpa using hend)]
        exact .of_nested (.refl k _)
      · have hguard := h k t us ht fun hkind =>
          hstop.resolve_left fun hstop => hend (hkind ▸ hstop.symm)
        have hrest := (Takes.guarded htakes).taken s t us
        have hdone : (guarded statement s (t :: us)).outcome ≠ .tooDeep → _ = _ := guarded_done
        rcases hg : guarded statement s (t :: us) with ⟨es, o, rest⟩
        rw [hg] at hguard hdone hrest
        by_cases ho : o = .tooDeep
        · subst ho
          exact absurd (by rw [block_of_tooDeep ht hend hg]) hdeep
        · obtain rfl : o = .done () := hdone ho
          have hlength : rest.length ≤ us.length := hrest.length_le
          rw [List.length_cons] at hdrop
          rw [block_cons ht hend hg hlength] at hdeep ⊢
          exact (hguard (by simp)).after (ih rest.length (by omega) rest hdeep rfl)

/-- A subgraph is entered behind its head. It is left at its end, or else at the end of the text. -/
theorem readsNested_subgraph {inner : Option (Rule Event Unit)}
    (h : ∀ statement ∈ inner, Takes True statement ∧ StatementNests s statement) (k : Nat) {t : Token}
    (ht : t.kind = .subgraph) (ts : List Token)
    (hdeep : (guarded (subgraph inner) s (t :: ts)).outcome ≠ .tooDeep) :
    ReadsNested s k (t :: ts) (guarded (subgraph inner) s (t :: ts)) := by
  have hblock : ∀ {statement : Rule Event Unit} {rest left : List Token} {body : List Event},
      inner = some statement → block statement (some .endSubgraph) s rest = ⟨body, .done (), left⟩ →
        (∀ t ∈ left.head?, t.kind = .endSubgraph) ∧ ReadsNested s (k + 1) rest ⟨body, .done (), left⟩ := by
    intro statement rest left body hinner hb
    obtain ⟨htakes, hstatement⟩ := h statement hinner
    have hdone : (block statement (some .endSubgraph) s rest).outcome = .done () := by rw [hb]
    have hend := block_rest htakes hdone
    have hreads := readsNested_block (k := k + 1) htakes hstatement (.inl rfl) rest
    rw [hb] at hend hreads
    exact ⟨fun t ht => Option.some.inj (hend t ht), hreads (by simp)⟩
  have hreads := subgraph_reads (s := s) inner (t :: ts)
  generalize hr : subgraph inner s (t :: ts) = r at hreads
  cases hreads with
  | @headless m rest hh =>
    rw [guarded_fault hr]
    exact .of_nested (.of_step (.headless ht hh))
  | tooDeep | abandoned =>
    rw [guarded_of_tooDeep hr] at hdeep
    exact absurd rfl hdeep
  | @closed _ head t' rest left body hinner hh hb ht' =>
    obtain ⟨-, es, j, hevents, hnested, hend⟩ := hblock hinner hb
    obtain rfl : j = 0 := by
      by_contra hj
      cases hend (Nat.pos_of_ne_zero hj)
    obtain rfl : body = es := by simpa [closing] using hevents
    rw [guarded_of_done hr]
    exact .of_nested (.step (.enter ht hh) (hnested.trans (.of_step (.leave ht'))))
  | @unclosed _ head rest left body hinner hh hb hend =>
    obtain ⟨hstop, es, j, hevents, hnested, -⟩ := hblock hinner hb
    obtain rfl : left = [] := by
      cases left with
      | nil => rfl
      | cons u us => exact absurd (congrArg some (hstop u rfl)) hend
    rw [guarded_fault hr]
    refine ⟨.enter head :: es, j + 1, ?_, ?_, fun _ => rfl⟩
    · obtain rfl : body = es ++ closing s j := hevents
      simp [closing_succ]
      rfl
    · rw [Nat.add_comm j 1, ← Nat.add_assoc]
      exact .step (.enter ht hh) hnested

/-- At a token that no blank line separates from the rest, a statement is the one that the token begins. -/
theorem statementOver_run {t : Token} (ht : separates t = false) (inner : Option (Rule Event Unit))
    (ts : List Token) :
    statementOver inner s (t :: ts) = statementFrom inner (some t.kind) s (t :: ts) := by
  have hdrop : (t :: ts).dropWhile separates = t :: ts := dropWhile_separates (by simpa using ht)
  simp only [statementOver_eq, bind_run, skipBlankLines_run, nextKind_run, Reply.follow_done,
    Reply.after_nil, hdrop, List.head?_cons, Option.map_some]

/-- A statement that is no subgraph does not depend on those in a subgraph. -/
theorem statementFrom_congr {k : Option TokenKind} (hk : k ≠ some .subgraph)
    (inner inner' : Option (Rule Event Unit)) : statementFrom inner k = statementFrom inner' k := by
  rw [statementFrom.eq_def, statementFrom.eq_def]
  split
  case h_2 => contradiction
  all_goals rfl

theorem statementNests_statementOver {inner : Option (Rule Event Unit)}
    (h : ∀ statement ∈ inner, Takes True statement ∧ StatementNests s statement) :
    StatementNests s (statementOver inner) := by
  intro k t ts hblank hend hdeep
  have hrun := statementOver_run (s := s) hblank inner ts
  by_cases ht : t.kind = .subgraph
  · rw [ht] at hrun
    rw [guarded_congr hrun] at hdeep ⊢
    exact readsNested_subgraph h k ht ts hdeep
  · have hplain : statementOver inner s (t :: ts) = statement 0 s (t :: ts) := by
      have hk : some t.kind ≠ some .subgraph := fun h => ht (Option.some.inj h)
      rw [hrun, statementFrom_congr hk inner none]
      exact (statementOver_run hblank none ts).symm
    rw [guarded_congr hplain] at hdeep ⊢
    have hdone := guarded_done hdeep
    rcases hg : guarded (statement 0) s (t :: ts) with ⟨es, o, rest⟩
    rw [hg] at hdone
    obtain rfl : o = .done () := hdone
    exact .of_nested (.of_step (.statement hblank ht hend hg))

theorem statementNests_statement (depth : Nat) : StatementNests s (statement depth) := by
  induction depth with
  | zero => exact statementNests_statementOver fun _ h => by cases h
  | succ depth ih =>
    refine statementNests_statementOver fun r hr => ?_
    cases hr
    exact ⟨takes_statement depth, ih⟩

/-- Behind its header a text is read to its end with a count of the open subgraphs, and then those that
are still open are closed. -/
theorem document_nested {depth : Nat} {ts : List Token}
    (hdeep : (document depth s ts).outcome ≠ .tooDeep) :
    ∃ opening rest es k, header s ts = ⟨opening, .done (), rest⟩ ∧
      document depth s ts = ⟨opening ++ es ++ closing s k, .done (), []⟩ ∧ Nested s 0 rest es k [] := by
  obtain ⟨_, hheader⟩ := sure_header s ts
  rcases hh : header s ts with ⟨opening, o, rest⟩
  rw [hh] at hheader
  subst hheader
  have hdocument : document depth s ts = (block (statement depth) none s rest).after opening := by
    rw [document, bind_run, hh, Reply.follow_done]
  rw [hdocument] at hdeep ⊢
  have htakes := takes_statement depth
  obtain ⟨es, k, hevents, hnested, -⟩ :=
    readsNested_block (k := 0) htakes (statementNests_statement depth) (.inr rfl) rest hdeep
  have hdone : (block (statement depth) none s rest).outcome = .done () := block_done hdeep
  have hrest : (block (statement depth) none s rest).rest = [] := by
    have hend := block_rest htakes hdone
    cases hr : (block (statement depth) none s rest).rest with
    | nil => rfl
    | cons t us =>
      rw [hr] at hend
      exact absurd (hend t rfl) (Option.some_ne_none _)
  rw [hrest, Nat.zero_add] at hnested
  refine ⟨opening, rest, es, k, rfl, ?_, hnested⟩
  rw [Reply.after, hevents, hdone, hrest, List.append_assoc]

end Grammar
end Mermaid.Flowchart
