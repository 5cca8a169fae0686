import Mermaid.Proofs.Flowchart.Curtailing
import Mermaid.Proofs.Flowchart.Depth

/-! Subgraphs that are nested too deeply. A text is left at the first head of a subgraph that would be
too deep; what its chart has then is what the text up to that head says, but for the subgraphs that are
open there. -/
namespace Mermaid.Flowchart
open Rule Draft

section overflow
variable {s : Stream}

/-- From `k` open subgraphs on, what is read comes to a head that can be read, where `k + depth` are open.
The last `depth` of these are dropped. -/
def Overflows (s : Stream) (k depth : Nat) (ts : List Token) (r : Reply Event Unit) : Prop :=
  ∃ es t us head left, Nested s k ts es (k + depth) (t :: us) ∧ t.kind = .subgraph ∧
    Grammar.subgraphHead s (t :: us) = ⟨[], .done head, left⟩ ∧
      r = ⟨es ++ List.replicate depth .abandon, .tooDeep, left⟩

theorem Overflows.after {k depth : Nat} {ts us : List Token} {es : List Event} {r : Reply Event Unit}
    (h : Nested s k ts es k us) (hr : Overflows s k depth us r) : Overflows s k depth ts (r.after es) := by
  obtain ⟨fs, t, vs, head, left, hnested, ht, hh, rfl⟩ := hr
  refine ⟨es ++ fs, t, vs, head, left, h.trans hnested, ht, hh, ?_⟩
  rw [Reply.after_mk, List.append_assoc]

theorem Overflows.pastBlank {k depth : Nat} {ts : List Token} {r : Reply Event Unit}
    (h : Overflows s k depth (ts.dropWhile separates) r) : Overflows s k depth ts r := by
  obtain ⟨es, t, us, head, left, hnested, hrest⟩ := h
  exact ⟨es, t, us, head, left, hnested.pastBlank, hrest⟩

namespace Grammar

/-- A statement overflows as with a count wherever a block can begin it. -/
def StatementOverflows (s : Stream) (depth : Nat) (statement : Rule Event Unit) : Prop :=
  ∀ k t ts, separates t = false → (guarded statement s (t :: ts)).outcome = .tooDeep →
    Overflows s k depth (t :: ts) (guarded statement s (t :: ts))

theorem overflows_block {depth k : Nat} {stop : Option TokenKind} {statement : Rule Event Unit}
    (htakes : Takes True statement) (hnests : StatementNests s statement)
    (h : StatementOverflows s depth statement) (hstop : stop = some .endSubgraph ∨ k = 0)
    (ts : List Token) (hdeep : (block statement stop s ts).outcome = .tooDeep) :
    Overflows s k depth ts (block statement stop s ts) := by
  induction hn : ts.length using Nat.strongRecOn generalizing ts with
  | ind n ih =>
    have hdrop := (List.dropWhile_sublist separates (l := ts)).length_le
    refine .pastBlank ?_
    rw [← block_dropWhile] at hdeep ⊢
    cases hts : ts.dropWhile separates with
    | nil =>
      rw [hts, block_of_head (by simp) (by simp)] at hdeep
      cases hdeep
    | cons t us =>
      have ht : separates t = false := separates_of_dropWhile hts
      rw [hts] at hdeep hdrop
      by_cases hend : some t.kind = stop
      · rw [block_of_head (by simpa using ht) (by simpa using hend)] at hdeep
        cases hdeep
      · have hnest := hnests k t us ht fun hkind =>
          hstop.resolve_left fun hstop => hend (hkind ▸ hstop.symm)
        have hover := h k t us ht
        have hrest := (Takes.guarded htakes).taken s t us
        have hdone : (guarded statement s (t :: us)).outcome ≠ .tooDeep → _ = _ := guarded_done
        rcases hg : guarded statement s (t :: us) with ⟨es, o, rest⟩
        rw [hg] at hnest hover hdone hrest
        by_cases ho : o = .tooDeep
        · subst ho
          rw [block_of_tooDeep ht hend hg]
          exact hover rfl
        · obtain rfl : o = .done () := hdone ho
          have hlength : rest.length ≤ us.length := hrest.length_le
          rw [List.length_cons] at hdrop
          rw [block_cons ht hend hg hlength] at hdeep ⊢
          obtain ⟨fs, j, hevents, hnested, hclosed⟩ := hnest (by simp)
          rcases Nat.eq_zero_or_pos j with rfl | hj
          · obtain rfl : es = fs := by simpa [closing] using hevents
            exact .after hnested (ih rest.length (by omega) rest hdeep rfl)
          · obtain rfl : rest = [] := hclosed hj
            rw [block_of_head (by simp) (by simp)] at hdeep
            cases hdeep

theorem overflows_subgraph {depth : Nat} {inner : Option (Rule Event Unit)}
    (hnone : inner = none → depth = 0) (hsome : ∀ statement ∈ inner, ∃ n, depth = n + 1 ∧
      Takes True statement ∧ StatementNests s statement ∧ StatementOverflows s n statement)
    (k : Nat) {t : Token} (ht : t.kind = .subgraph) (ts : List Token)
    (hdeep : (guarded (subgraph inner) s (t :: ts)).outcome = .tooDeep) :
    Overflows s k depth (t :: ts) (guarded (subgraph inner) s (t :: ts)) := by
  have hreads := subgraph_reads (s := s) inner (t :: ts)
  generalize hr : subgraph inner s (t :: ts) = r at hreads
  cases hreads with
  | headless _ | unclosed _ _ _ _ =>
    rw [guarded_fault hr] at hdeep
    cases hdeep
  | closed _ _ _ _ =>
    rw [guarded_of_done hr] at hdeep
    cases hdeep
  | @tooDeep head rest hh hinner =>
    obtain rfl := hnone hinner
    rw [guarded_of_tooDeep hr]
    exact ⟨[], t, ts, head, rest, .refl k _, ht, hh, rfl⟩
  | @abandoned statement head rest left body hinner hh hb =>
    obtain ⟨n, rfl, htakes, hnests, hover⟩ := hsome statement hinner
    have hblock := overflows_block (k := k + 1) htakes hnests hover (.inl rfl) rest (by rw [hb])
    obtain ⟨fs, u, us, inner, left', hnested, hu, hinner, heq⟩ := hblock
    obtain ⟨rfl, -, rfl⟩ := Reply.mk.inj (hb.symm.trans heq)
    rw [guarded_of_tooDeep hr]
    refine ⟨.enter head :: fs, u, us, inner, left, ?_, hu, hinner, ?_⟩
    · rw [show k + (n + 1) = k + 1 + n by omega]
      exact .step (.enter ht hh) hnested
    · rw [List.replicate_succ', List.cons_append, List.append_assoc]

theorem overflows_statementOver {depth : Nat} {inner : Option (Rule Event Unit)}
    (hnone : inner = none → depth = 0) (hsome : ∀ statement ∈ inner, ∃ n, depth = n + 1 ∧
      Takes True statement ∧ StatementNests s statement ∧ StatementOverflows s n statement) :
    StatementOverflows s depth (statementOver inner) := by
  intro k t ts hblank hdeep
  have hrun := statementOver_run (s := s) hblank inner ts
  by_cases ht : t.kind = .subgraph
  · rw [ht] at hrun
    rw [guarded_congr hrun] at hdeep ⊢
    exact overflows_subgraph hnone hsome k ht ts hdeep
  · -- No other statement overflows.
    have hsteady : Steady False (statementFrom inner (some t.kind)) :=
      (takes_statementFrom fun h => absurd h ht).toSteady
    rw [guarded_congr hrun] at hdeep
    exact (hsteady.guarded.overflow s _ hdeep).elim

theorem overflows_statement (depth : Nat) : StatementOverflows s depth (statement depth) := by
  induction depth with
  | zero => exact overflows_statementOver (fun _ => rfl) nofun
  | succ depth ih =>
    refine overflows_statementOver nofun fun r hr => ?_
    cases hr
    exact ⟨depth, rfl, takes_statement depth, statementNests_statement depth, ih⟩

/-- A text that is nested too deeply is read with a count of the open subgraphs up to the head of the one
that is too deep, and then those that are open are dropped. -/
theorem document_overflow {depth : Nat} {ts : List Token}
    (hdeep : (document depth s ts).outcome = .tooDeep) :
    ∃ opening rest es t us head left, header s ts = ⟨opening, .done (), rest⟩ ∧
      Nested s 0 rest es depth (t :: us) ∧ t.kind = .subgraph ∧
      subgraphHead s (t :: us) = ⟨[], .done head, left⟩ ∧
      document depth s ts = ⟨opening ++ es ++ List.replicate depth .abandon, .tooDeep, left⟩ := by
  obtain ⟨_, hheader⟩ := sure_header s ts
  rcases hh : header s ts with ⟨opening, o, rest⟩
  rw [hh] at hheader
  subst hheader
  have hdocument : document depth s ts = (block (statement depth) none s rest).after opening := by
    rw [document, bind_run, hh, Reply.follow_done]
  rw [hdocument] at hdeep ⊢
  obtain ⟨es, t, us, head, left, hnested, ht, hhead, heq⟩ :=
    overflows_block (k := 0) (takes_statement depth) (statementNests_statement depth)
      (overflows_statement depth) (.inr rfl) rest hdeep
  rw [Nat.zero_add] at hnested
  refine ⟨opening, rest, es, t, us, head, left, rfl, hnested, ht, hhead, ?_⟩
  rw [heq, Reply.after_mk, List.append_assoc]

end Grammar
end overflow

section limit
variable {s : Stream} {k k' k'' depth : Nat} {ts us : List Token} {es fs : List Event}

/-- How many subgraphs the tokens can open. -/
def heads (ts : List Token) : Nat := ts.countP (·.kind == .subgraph)

theorem Step.count_le (h : Step s k ts es k' us) : k' + heads us ≤ k + heads ts := by
  cases ts with
  | nil => cases h
  | cons t ts =>
    have htaken : heads us ≤ heads ts := h.rest.sublist.countP_le
    have hcount : heads (t :: ts) = heads ts + if t.kind = .subgraph then 1 else 0 := by
      simp [heads, List.countP_cons]
    cases h with
    | enter ht _ =>
      rw [if_pos ht] at hcount
      omega
    | blank _ | statement _ _ _ _ | headless _ _ | leave _ => omega

/-- A reading opens no more subgraphs than it takes tokens that can open one. -/
theorem Nested.count_le (h : Nested s k ts es k' us) : k' + heads us ≤ k + heads ts := by
  induction h with
  | refl => exact Nat.le_refl _
  | step h _ ih => exact ih.trans h.count_le

/-- At the end of the text nothing is read any more. -/
theorem Nested.of_nil (h : Nested s k [] es k' us) : es = [] ∧ k' = k := by
  generalize hts : [] = ts at h
  cases h with
  | refl => exact ⟨rfl, rfl⟩
  | step h _ =>
    subst hts
    cases h

/-- There is one reading to the end of the text. -/
theorem Nested.unique (h : Nested s k ts es k' []) (h' : Nested s k ts fs k'' []) :
    es = fs ∧ k' = k'' := by
  obtain ⟨gs, rfl, hgs⟩ := h.split h'
  obtain ⟨rfl, rfl⟩ := hgs.of_nil
  exact ⟨List.append_nil _, rfl⟩

/-- Some of the events leave more than `depth` subgraphs open. -/
def Exceeds (depth : Nat) (events : List Event) : Prop :=
  ∃ es, es <+: events ∧ depth < (start.applyAll es).opened.length

namespace Grammar

/-- A text cannot be nested more deeply than it has tokens that open subgraphs. -/
theorem outcome_ne_tooDeep_of_heads (h : heads s.tokens ≤ depth) :
    (document depth s s.tokens).outcome ≠ .tooDeep := by
  intro hdeep
  obtain ⟨opening, rest, es, t, us, head, left, hh, hnested, ht, -⟩ := document_overflow hdeep
  have hcount := hnested.count_le
  have hsteady : Steady True header := steady_header
  have hrest := hsteady.rest s s.tokens
  rw [hh] at hrest
  have hheads : heads rest ≤ heads s.tokens := hrest.sublist.countP_le
  have hhead : heads (t :: us) = heads us + 1 := by simp [heads, ht]
  omega

/-- The number of the tokens is no limit. -/
theorem document_unlimited (s : Stream) : (document s.tokens.length s s.tokens).outcome ≠ .tooDeep :=
  outcome_ne_tooDeep_of_heads List.countP_le_length

/-- What is not nested too deeply is read to its end. -/
theorem document_outcome (h : (document depth s ts).outcome ≠ .tooDeep) :
    (document depth s ts).outcome = .done () := by
  obtain ⟨_, _, _, _, -, hdocument, -⟩ := document_nested h
  exact congrArg Reply.outcome hdocument

/-- The limit makes no difference to texts that are not nested too deeply. -/
theorem document_congr {depth depth' : Nat} (h : (document depth s ts).outcome ≠ .tooDeep)
    (h' : (document depth' s ts).outcome ≠ .tooDeep) : document depth s ts = document depth' s ts := by
  obtain ⟨opening, rest, es, k, hh, hdocument, hnested⟩ := document_nested h
  obtain ⟨opening', rest', es', k', hh', hdocument', hnested'⟩ := document_nested h'
  obtain ⟨rfl, -, rfl⟩ := Reply.mk.inj (hh.symm.trans hh')
  obtain ⟨rfl, rfl⟩ := hnested.unique hnested'
  rw [hdocument, hdocument']

end Grammar

/-- A text overflows where the reading without a limit goes on to open one more subgraph than it may. -/
structure OverflowsAt (depth : Nat) (s : Stream) (before : List Token) (t : Token) (behind : List Token)
    (es : List Event) : Prop where
  tokens : s.tokens = before ++ t :: behind
  opened : (start.applyAll es).opened.length = depth
  head : t.kind = .subgraph ∧ ∃ head left more,
    Grammar.subgraphHead s (t :: behind) = ⟨[], .done head, left⟩ ∧
    Grammar.document depth s s.tokens = ⟨es ++ List.replicate depth .abandon, .tooDeep, left⟩ ∧
    (Grammar.document s.tokens.length s s.tokens).events = es ++ .enter head :: more
  /-- What is read up to there is what is read of the text that ends there. -/
  upTo : Grammar.document depth ⟨before, t.position⟩ before =
    ⟨es ++ closing ⟨before, t.position⟩ depth, .done (), []⟩

/-- A text is not nested too deeply if it can be read with no more than `depth` subgraphs open. -/
theorem Grammar.document_of_nested {s : Stream} {depth k : Nat} {rest : List Token}
    {opening es : List Event} (hh : header s s.tokens = ⟨opening, .done (), rest⟩)
    (hnested : Nested s 0 rest es k [])
    (hbound : ∀ fs, fs <+: es → (start.applyAll (opening ++ fs)).opened.length ≤ depth) :
    document depth s s.tokens = ⟨opening ++ es ++ closing s k, .done (), []⟩ := by
  by_cases hdeep : (document depth s s.tokens).outcome = .tooDeep
  · obtain ⟨opening', rest', fs, t, us, head, left, hh', hnested', ht, hhead, -⟩ := document_overflow hdeep
    obtain ⟨rfl, -, rfl⟩ := Reply.mk.inj (hh.symm.trans hh')
    have henter := hnested'.trans (.of_step (.enter ht hhead))
    obtain ⟨gs, rfl, -⟩ := hnested.split henter
    have hlength := henter.counts _ (length_opening hh)
    have hle := hbound (fs ++ [.enter head]) (List.prefix_append _ _)
    rw [applyAll_append, hlength] at hle
    omega
  · obtain ⟨opening', rest', fs, k', hh', hdocument, hnested'⟩ := document_nested hdeep
    obtain ⟨rfl, -, rfl⟩ := Reply.mk.inj (hh.symm.trans hh')
    obtain ⟨rfl, rfl⟩ := hnested.unique hnested'
    exact hdocument

theorem Grammar.exists_overflowsAt {s : Stream} {depth : Nat}
    (hdeep : (document depth s s.tokens).outcome = .tooDeep) :
    ∃ before t behind es, OverflowsAt depth s before t behind es := by
  obtain ⟨opening, rest, es, t, us, head, left, hh, hnested, ht, hhead, hdocument⟩ :=
    document_overflow hdeep
  have hsteady : Steady True header := steady_header
  have hrest := hsteady.rest s s.tokens
  rw [hh] at hrest
  obtain ⟨front, hfront⟩ := hnested.rest
  obtain ⟨before, hbefore⟩ := hrest
  have htokens : s.tokens = before ++ front ++ t :: us := by
    rw [List.append_assoc, hfront]
    exact hbefore.symm
  have hlength : (start.applyAll (opening ++ es)).opened.length = depth := by
    rw [applyAll_append]
    exact hnested.counts _ (length_opening hh)
  refine ⟨before ++ front, t, us, opening ++ es, htokens, hlength, ⟨ht, head, left, ?_⟩, ?_⟩
  · obtain ⟨opening', rest', es', k, hh', hdocument', hnested'⟩ :=
      document_nested (document_unlimited s)
    obtain ⟨rfl, -, rfl⟩ := Reply.mk.inj (hh.symm.trans hh')
    obtain ⟨gs, rfl, -⟩ := hnested'.split (hnested.trans (.of_step (.enter ht hhead)))
    refine ⟨gs ++ closing s k, hhead, hdocument, ?_⟩
    rw [hdocument']
    simp
  · have hp : s.Curtailed ⟨before ++ front, t.position⟩ t us := ⟨htokens, rfl⟩
    subst hfront
    refine document_of_nested (s := ⟨before ++ front, t.position⟩) ?_ (hnested.curtail hp ht)
      fun fs hfs => ?_
    · refine (curtails_header ht hp).run (Eq.trans ?_ hh)
      rw [htokens]
    · refine length_opened_le (s := s) ?_
      rw [hdocument]
      exact ((List.prefix_append_right_inj _).mpr hfs).trans (List.prefix_append _ _)

/-- A text is nested too deeply if it opens more subgraphs at a time, read without a limit. -/
theorem Grammar.exceeds_iff (depth : Nat) (s : Stream) :
    Exceeds depth (document s.tokens.length s s.tokens).events ↔
      (document depth s s.tokens).outcome = .tooDeep := by
  constructor
  · rintro ⟨es, hes, hlength⟩
    by_contra hdeep
    rw [← document_congr hdeep (document_unlimited s)] at hes
    exact absurd (length_opened_le hes) (Nat.not_le_of_lt hlength)
  · intro hdeep
    obtain ⟨before, t, behind, es, hover⟩ := exists_overflowsAt hdeep
    obtain ⟨-, head, left, more, -, -, hevents⟩ := hover.head
    refine ⟨es ++ [.enter head], ⟨more, by rw [hevents]; simp⟩, ?_⟩
    rw [applyAll_append]
    exact Nat.lt_succ_of_le hover.opened.ge

end limit

end Mermaid.Flowchart
