import Mermaid.Proofs.Flowchart.Nesting
import Mermaid.Proofs.Flowchart.Outline
import Mermaid.Proofs.Flowchart.Reporting

/-! The subgraphs of every text that is not nested too deeply: which ones it opens, where they end, what
they are attached to, and what becomes of those that it does not end. -/
namespace Mermaid.Flowchart
open Rule Draft

theorem length_opened {es : List Event} (h : ∀ e ∈ es, e.nests = false) (d : Draft) :
    (d.applyAll es).opened.length = d.opened.length := by
  have hlevel : Balanced false es := .of_level h
  simpa using congrArg List.length (hlevel.sameOpen d).2

section counts
variable {s : Stream} {k k' : Nat} {ts us : List Token} {es : List Event} {Q : Expectation → Prop}
  (hQ : ∀ m : Expectation, m.Listed → m ≠ .subgraphEnd → Q m)
include hQ

/-- A statement that is no subgraph opens and closes none, and misses the end of none. -/
theorem Grammar.level_guarded {t : Token} (hblank : separates t = false) (ht : t.kind ≠ .subgraph)
    (ts : List Token) :
    ∀ e ∈ (guarded (statement 0) s (t :: ts)).events, e.nests = false ∧ Reporting.Names Q e := by
  have hk : some t.kind ≠ some .subgraph := fun h => ht (Option.some.inj h)
  have hsilent : ∀ e : Event, e.nests = false → e.diagnostic? = none →
      e.nests = false ∧ Reporting.Names Q e := fun e he hd => ⟨he, .of_silent hd⟩
  have hwrites : Writes (fun e : Event => e.nests = false ∧ Reporting.Names Q e) (fun _ => True)
      (statementFrom none (some t.kind)) :=
    writes_statementFrom hk
      (fun _ => writes_nodeOrEdge (fun _ _ => hsilent _ rfl rfl) (fun _ _ _ _ => hsilent _ rfl rfl)
        fun _ _ => hsilent _ rfl rfl)
      (fun _ => hsilent _ rfl rfl) (fun _ => writes_classAssignment fun _ _ _ => hsilent _ rfl rfl) none
  rw [statement, guarded_congr (statementOver_run hblank none ts)]
  exact ((misses_statementFrom hQ hk none).writes_guarded hwrites
    fun m u hm => ⟨rfl, .of_unmet rfl hm⟩).events s _

theorem Grammar.level_header (ts : List Token) :
    ∀ e ∈ (header s ts).events, e.nests = false ∧ Reporting.Names Q e :=
  (writes_header (fun _ => ⟨rfl, .of_silent rfl⟩)
    fun _ => ⟨rfl, .of_unmet rfl (hQ _ trivial nofun)⟩).events s ts

/-- What a step reports is no missing end. -/
theorem Step.names (h : Step s k ts es k' us) : ∀ e ∈ es, Reporting.Names Q e := by
  cases h with
  | blank _ => exact List.forall_mem_nil _
  | @statement _ _ ts _ _ hblank hhead _ h =>
    have hlevel := Grammar.level_guarded (s := s) hQ hblank hhead ts
    rw [h] at hlevel
    exact fun e he => (hlevel e he).2
  | @headless _ _ ts _ m _ hh =>
    have hm : Q m := Grammar.misses_subgraphHead hQ s _ m (by rw [hh])
    exact List.forall_mem_singleton.mpr (.of_unmet rfl hm)
  | enter _ _ | leave _ => exact List.forall_mem_singleton.mpr (.of_silent rfl)

theorem Nested.names (h : Nested s k ts es k' us) : ∀ e ∈ es, Reporting.Names Q e := by
  induction h with
  | refl => exact List.forall_mem_nil _
  | step h _ ih => exact List.forall_mem_append.mpr ⟨h.names hQ, ih⟩

omit hQ

/-- A step counts the subgraphs that are open. -/
theorem Step.counts (h : Step s k ts es k' us) (d : Draft) (hd : d.opened.length = k) :
    (d.applyAll es).opened.length = k' := by
  cases h with
  | blank _ | headless _ _ => exact hd
  | @statement _ _ ts _ _ hblank hhead _ h =>
    have hlevel := Grammar.level_guarded (s := s) (Q := fun _ => True) (fun _ _ _ => trivial) hblank hhead ts
    rw [h] at hlevel
    exact (length_opened (fun e he => (hlevel e he).1) d).trans hd
  | enter _ _ => exact congrArg (· + 1) hd
  | leave _ => exact (d.length_opened_apply .leave).trans (by rw [hd]; rfl)

theorem Nested.counts (h : Nested s k ts es k' us) (d : Draft) (hd : d.opened.length = k) :
    (d.applyAll es).opened.length = k' := by
  induction h generalizing d with
  | refl => exact hd
  | step h _ ih =>
    rw [applyAll_append]
    exact ih _ (h.counts d hd)

end counts

section attachment

/-- Every subgraph that is opened is closed later on, when it is the innermost one that is open. It is
attached then to the one that was innermost where it was opened, or else to the top of the chart. -/
def Attaches (events : List Event) : Prop :=
  ∀ before head behind, events = before ++ .enter head :: behind →
    ∃ body more chart child, behind = body ++ .leave :: more ∧ child.heading = head.heading ∧
      start.applyAll (before ++ .enter head :: body) = ⟨chart, child :: (start.applyAll before).opened⟩ ∧
      start.applyAll (before ++ .enter head :: (body ++ [.leave])) =
        attach ⟨chart, (start.applyAll before).opened⟩ child

theorem Balanced.attaches {events : List Event} (h : Balanced false events) : Attaches events := by
  rintro before head behind rfl
  obtain ⟨body, more, hbody, rfl⟩ := h.exists_leave
  obtain ⟨chart, child, hdraft, hheading⟩ := hbody.exists_child (start.applyAll before) head
  refine ⟨body, more, chart, child, rfl, hheading, ?_, ?_⟩
  · rw [applyAll_append, hdraft]
  · rw [applyAll_append, ← List.cons_append, applyAll_append, hdraft]
    exact close_cons chart child _

/-- Each subgraph is the last child of the one before it. -/
def LastChildren (chain : List Subgraph) : Prop :=
  chain.IsChain fun parent child => parent.children.getLast? = some child

/-- The subgraphs that are closed at the end of a text form a chain of last children, which begins with
the last one at the top of the chart. -/
theorem exists_chain (s : Stream) (c : Flowchart) (opened : List Subgraph) :
    ∃ chain : List Subgraph,
      chain.map Subgraph.heading = (opened.map Subgraph.heading).reverse ∧
      chain.getLast? = opened.head? ∧ LastChildren chain ∧
      (applyAll ⟨c, opened⟩ (closing s opened.length)).chart.subgraphs =
        c.subgraphs ++ chain.head?.toList := by
  induction hn : opened.length generalizing c opened with
  | zero =>
    obtain rfl := List.eq_nil_of_length_eq_zero hn
    exact ⟨[], rfl, rfl, .nil, (List.append_nil _).symm⟩
  | succ n ih =>
    cases opened with
    | nil => cases hn
    | cons innermost outer =>
      cases outer with
      | nil =>
        cases hn
        exact ⟨[innermost], rfl, rfl, .singleton _, rfl⟩
      | cons parent outer =>
        obtain ⟨chain, hheadings, hlast, hchain, hsubgraphs⟩ :=
          ih (c.report (unendedAt s)) (parent.addChild innermost :: outer) (Nat.succ.inj hn)
        obtain ⟨front, rfl⟩ := List.getLast?_eq_some_iff.mp hlast
        refine ⟨front ++ [parent.addChild innermost] ++ [innermost], ?_, ?_, ?_, ?_⟩
        · rw [List.map_append, hheadings]
          simp
        · exact List.getLast?_concat
        · refine List.isChain_append.mpr ⟨hchain, .singleton _, ?_⟩
          simp [Subgraph.addChild]
        · refine hsubgraphs.trans ?_
          simp [report]

theorem reports_closing (s : Stream) (k : Nat) :
    (closing s k).filterMap Event.diagnostic? = List.replicate k (unendedAt s) := by
  induction k with
  | zero => rfl
  | succ k ih =>
    rw [closing_succ, List.filterMap_append, ih, List.replicate_succ']
    rfl

/-- What becomes of the subgraphs that are open in the draft at the end of a text. They are in the chart,
each of them as the last child of the one around it and the outermost as the last one of all. For each of
them the end is reported to be missing, where the text ends, and for no other subgraph. -/
structure ClosesAtEnd (s : Stream) (d : Draft) (chart : Flowchart) : Prop where
  chain : ∃ chain : List Subgraph,
    chain.map Subgraph.heading = (d.opened.map Subgraph.heading).reverse ∧
    chain.getLast? = d.opened.head? ∧ LastChildren chain ∧
    chart.subgraphs = d.chart.subgraphs ++ chain.head?.toList
  reported : chart.diagnostics =
    d.chart.diagnostics ++ List.replicate d.opened.length (unendedAt s)
  unlike : ∀ x ∈ d.chart.diagnostics, x.message ≠ Expectation.subgraphEnd.message

theorem closesAtEnd (s : Stream) (d : Draft)
    (h : ∀ x ∈ d.chart.diagnostics, x.message ≠ Expectation.subgraphEnd.message) :
    ClosesAtEnd s d (d.applyAll (closing s d.opened.length)).chart where
  chain := exists_chain s d.chart d.opened
  reported := by rw [diagnostics_applyAll, reports_closing]
  unlike := h

end attachment

/-- Behind its header, which writes `opening`, a text is read to its end with a count of the subgraphs
that are open. Wherever a statement can begin, a head that can be read opens a subgraph, and an end closes
just the innermost one that is open, if one is. -/
structure ReadsToEnd (s : Stream) (opening : List Event) (rest : List Token) (es : List Event)
    (k : Nat) : Prop where
  header : Grammar.header s s.tokens = ⟨opening, .done (), rest⟩
  nested : Nested s 0 rest es k []
  opens : ∀ fs n t us head left, Nested s 0 rest fs n (t :: us) → t.kind = .subgraph →
    Grammar.subgraphHead s (t :: us) = ⟨[], .done head, left⟩ →
      ∃ gs, es = fs ++ .enter head :: gs ∧ Nested s (n + 1) left gs k []
  closes : ∀ fs n t us, Nested s 0 rest fs (n + 1) (t :: us) → t.kind = .endSubgraph →
    ∃ gs chart child outer, es = fs ++ .leave :: gs ∧ Nested s n us gs k [] ∧
      start.applyAll (opening ++ fs) = ⟨chart, child :: outer⟩ ∧ outer.length = n ∧
      start.applyAll (opening ++ fs ++ [.leave]) = attach ⟨chart, outer⟩ child

theorem length_opening {s : Stream} {opening : List Event} {rest : List Token}
    (h : Grammar.header s s.tokens = ⟨opening, .done (), rest⟩) :
    (start.applyAll opening).opened.length = 0 := by
  have hlevel := Grammar.level_header (s := s) (Q := fun _ => True) (fun _ _ _ => trivial) s.tokens
  rw [h] at hlevel
  exact length_opened (fun e he => (hlevel e he).1) start

theorem readsToEnd {s : Stream} {opening es : List Event} {rest : List Token} {k : Nat}
    (h : Grammar.header s s.tokens = ⟨opening, .done (), rest⟩) (hnested : Nested s 0 rest es k []) :
    ReadsToEnd s opening rest es k where
  header := h
  nested := hnested
  opens fs n t us head left hreached ht hh := by
    obtain ⟨gs, hes, hgs⟩ := hnested.split (hreached.trans (.of_step (.enter ht hh)))
    exact ⟨gs, by simpa using hes, hgs⟩
  closes fs n t us hreached ht := by
    obtain ⟨gs, hes, hgs⟩ := hnested.split (hreached.trans (.of_step (.leave ht)))
    have hlength := hreached.counts _ (length_opening h)
    rw [← applyAll_append] at hlength
    rcases hdraft : start.applyAll (opening ++ fs) with ⟨chart, _ | ⟨child, outer⟩⟩
    · rw [hdraft] at hlength
      cases hlength
    · rw [hdraft] at hlength
      refine ⟨gs, chart, child, outer, by simpa using hes, hgs, rfl, Nat.succ.inj hlength, ?_⟩
      rw [applyAll_append, hdraft]
      exact close_cons chart child outer

/-- How the events of a text, and its chart, are about its subgraphs. -/
structure SubgraphsNest (s : Stream) (events : List Event) (chart : Flowchart) : Prop where
  attached : Attaches events
  /-- The chart has just the subgraphs that are opened, each as deep as there were others open. -/
  outlined : Subgraph.outline 0 chart.subgraphs = entered 0 events
  ordered : chart.allSubgraphs.map Subgraph.heading =
    events.filterMap fun e => e.enter?.map Subgraph.heading
  listed : Traced HeadedBy s.tokens (chart.allSubgraphs.map (·.id))
  ended : ∃ opening rest es k, events = opening ++ es ++ closing s k ∧
    ReadsToEnd s opening rest es k ∧ (start.applyAll (opening ++ es)).opened.length = k ∧
    ClosesAtEnd s (start.applyAll (opening ++ es)) chart

/-- What a reading reports is no missing end. -/
theorem unlike_diagnostics {s : Stream} {opening es : List Event} {rest : List Token} {k : Nat}
    (h : ReadsToEnd s opening rest es k) :
    ∀ x ∈ (start.applyAll (opening ++ es)).chart.diagnostics,
      x.message ≠ Expectation.subgraphEnd.message := by
  have hopening := Grammar.level_header (s := s) Grammar.unlikeEnd_of_listed s.tokens
  rw [h.header] at hopening
  have hnames : ∀ e ∈ opening ++ es, Reporting.Names Grammar.UnlikeEnd e :=
    List.forall_mem_append.mpr
      ⟨fun e he => (hopening e he).2, h.nested.names Grammar.unlikeEnd_of_listed⟩
  intro x hx
  rw [diagnostics_applyAll] at hx
  obtain ⟨e, he, hx⟩ := List.mem_filterMap.mp hx
  obtain ⟨m, t, hm, rfl⟩ := hnames e he x hx
  exact hm

theorem subgraphsNest {s : Stream} (hs : s.InLines) {limit : Limit}
    (hdeep : (Grammar.document limit.depth s s.tokens).outcome ≠ .tooDeep) :
    SubgraphsNest s (Grammar.document limit.depth s s.tokens).events (ofStreamWithin limit s) := by
  have hbalances : Grammar.Balances s (Grammar.document limit.depth) := Grammar.balances_document _
  have hbalanced := hbalances s.tokens s.tokens.suffix_refl
  have hsound := (Grammar.sound_document limit.depth).events s s.tokens
  have hcourse := Grammar.traces_heads limit.depth s.tokens s.tokens.suffix_refl
  have htraced := hcourse.traced hs HeadedBy.inLine
  obtain ⟨opening, rest, es, k, hheader, hdocument, hnested⟩ := Grammar.document_nested hdeep
  have hchart : ofStreamWithin limit s = (start.applyAll (opening ++ es ++ closing s k)).chart := by
    rw [ofStreamWithin, hdocument, ofReply_of_done rfl]
  rw [hchart]
  rw [hdocument] at hbalanced hsound htraced ⊢
  have houtline := hbalanced.outline hsound
  have hordered := congrArg (List.map Prod.snd) houtline
  rw [Subgraph.outline_unfold, entered_headings] at hordered
  have hreads := readsToEnd hheader hnested
  have hlength : (start.applyAll (opening ++ es)).opened.length = k := by
    rw [applyAll_append]
    exact hnested.counts _ (length_opening hheader)
  have hends := closesAtEnd s _ (unlike_diagnostics hreads)
  rw [hlength, ← applyAll_append] at hends
  refine ⟨hbalanced.attaches, houtline, hordered, ?_, opening, rest, es, k, rfl, hreads, hlength, hends⟩
  rw [entered_ids, ← hordered, List.map_map] at htraced
  exact htraced

/-- Every text has its subgraphs in place. If it is not nested more deeply than they are read, all those
whose heads can be read are in its chart, in the order of their heads and each within the subgraph that is
innermost there; and so are those that the text does not end. However deep it is, reading a subgraph leaves
those open that were open before. -/
theorem subgraphs_nest (limit : Limit) (text : String) :
    let s := Stream.ofText text
    ((Grammar.document limit.depth s s.tokens).outcome ≠ .tooDeep →
      SubgraphsNest s (Grammar.document limit.depth s s.tokens).events (ofStreamWithin limit s)) ∧
    ∀ inner : Option (Rule Event Unit), (∀ r ∈ inner, ∃ n, r = Grammar.statement n) → ∀ d ts,
      ts <:+ s.tokens →
        Grammar.KeepsOpened d (Grammar.subgraphHead s ts).outcome (Grammar.subgraph inner s ts) := by
  intro s
  refine ⟨subgraphsNest (Stream.inLines_ofText text), fun inner hinner d ts hts => ?_⟩
  refine Grammar.keepsOpened_subgraph (fun r hr => ?_) d hts
  obtain ⟨n, rfl⟩ := hinner r hr
  exact ⟨(Grammar.takes_statement n).toSteady, Grammar.balances_statement n⟩

/-- An end that closes nothing, and behind it a subgraph with an end, one without a head, and two without
ends. -/
def unendedText : String :=
  "flowchart TD\nend\nsubgraph A\nsubgraph B\nend\nsubgraph\nsubgraph C\nX -->\n"

theorem subgraphs_nest_unendedText :
    let s := Stream.ofText unendedText
    (Grammar.document nestingLimit s s.tokens).outcome ≠ .tooDeep ∧
    SubgraphsNest s (Grammar.document nestingLimit s s.tokens).events (parse unendedText) ∧
    (parse unendedText).subgraphs =
      [{ id := "A", children := [{ id := "B" }, { id := "C", members := ["X"] }] }] ∧
    (parse unendedText).diagnostics =
      [⟨"Expected subgraph identifier", ⟨6, 9⟩⟩, ⟨"Expected node identifier after arrow", ⟨8, 6⟩⟩,
        ⟨"Expected 'end' to close subgraph", ⟨9, 1⟩⟩, ⟨"Expected 'end' to close subgraph", ⟨9, 1⟩⟩] := by
  have hdeep : (Grammar.document nestingLimit (.ofText unendedText)
      (Stream.ofText unendedText).tokens).outcome ≠ .tooDeep := by
    decide +kernel
  refine ⟨hdeep, (subgraphs_nest {} unendedText).1 hdeep, ?_, ?_⟩
  · decide +kernel
  · decide +kernel

end Mermaid.Flowchart
