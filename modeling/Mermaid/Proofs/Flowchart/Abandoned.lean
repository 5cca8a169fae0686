import Mermaid.Proofs.Flowchart.Overflow

/-! What is in the chart of a text that is nested too deeply: what the text says up to the head of the
subgraph that is too deep, without the subgraphs that are open there. -/
namespace Mermaid.Flowchart
open Rule

namespace Draft

theorem applyAll_abandon (d : Draft) (n : Nat) :
    d.applyAll (List.replicate n .abandon) = ⟨d.chart, d.opened.drop n⟩ := by
  induction n generalizing d with
  | zero => rfl
  | succ n ih =>
    rw [List.replicate_succ, applyAll_cons, ih]
    exact congrArg (mk d.chart) List.drop_tail

/-- Closing subgraphs changes nothing of a chart but its subgraphs, and reports that their ends are missing. -/
theorem exists_closing (d : Draft) (s : Stream) (k : Nat) : ∃ subgraphs,
    (d.applyAll (closing s k)).chart = { d.chart with
      subgraphs, diagnostics := d.chart.diagnostics ++ List.replicate k (unendedAt s) } := by
  have hclose : ∀ d : Draft, ∃ subgraphs, d.close.chart = { d.chart with subgraphs } := by
    rintro ⟨c, _ | ⟨s, _ | ⟨parent, outer⟩⟩⟩
    · exact ⟨_, rfl⟩
    · exact ⟨_, rfl⟩
    · exact ⟨_, rfl⟩
  induction k with
  | zero => exact ⟨d.chart.subgraphs, by simp [closing, applyAll]⟩
  | succ k ih =>
    obtain ⟨_, hchart⟩ := ih
    obtain ⟨subgraphs, hclosed⟩ := hclose (d.applyAll (closing s k))
    refine ⟨subgraphs, ?_⟩
    rw [closing_succ, applyAll_append, List.replicate_succ', ← List.append_assoc]
    change ((d.applyAll (closing s k)).close.chart.report (unendedAt s)) = _
    rw [hclosed, hchart]
    rfl

/-- While a subgraph is open none is added to the top of the chart. -/
theorem subgraphs_apply (d : Draft) (e : Event) (h : (d.apply e).opened ≠ []) :
    (d.apply e).chart.subgraphs = d.chart.subgraphs := by
  cases e with
  | leave =>
    obtain ⟨c, _ | ⟨s, _ | ⟨parent, outer⟩⟩⟩ := d
    · rfl
    · exact absurd rfl h
    · rfl
  | enter _ | abandon => rfl
  | orient _ | mention _ _ | define _ _ _ _ | link _ | style _ | assign _ _ _ | fault _ | recovered _ =>
    exact d.subgraphs_apply_of_level rfl

/-- The subgraphs at the top of the chart are those that were closed before the outermost one of those that
are open was entered. -/
theorem exists_outermost (events : List Event) : ∃ closed inside, events = closed ++ inside ∧
    (start.applyAll closed).opened = [] ∧
    (∀ es, es <+: inside → es ≠ [] → (start.applyAll (closed ++ es)).opened ≠ []) ∧
    (start.applyAll events).chart.subgraphs = (start.applyAll closed).chart.subgraphs := by
  induction events using List.reverseRecOn with
  | nil => exact ⟨[], [], rfl, rfl, fun es hes hne => absurd (List.prefix_nil.mp hes) hne, rfl⟩
  | append_singleton events e ih =>
    by_cases hopened : (start.applyAll (events ++ [e])).opened = []
    · exact ⟨events ++ [e], [], (List.append_nil _).symm, hopened,
        fun es hes hne => absurd (List.prefix_nil.mp hes) hne, rfl⟩
    · obtain ⟨closed, inside, rfl, hclosed, hinside, hsubgraphs⟩ := ih
      refine ⟨closed, inside ++ [e], List.append_assoc _ _ _, hclosed, fun es hes hne => ?_, ?_⟩
      · rcases List.prefix_concat_iff.mp hes with rfl | hes
        · rwa [← List.append_assoc]
        · exact hinside es hes hne
      · rw [applyAll_append] at hopened ⊢
        exact (subgraphs_apply _ e hopened).trans hsubgraphs

end Draft

open Draft

/-- What is kept of a text that overflows behind `es`, as against the chart `upTo` of the text that ends
there: all but the subgraphs that are open, and of the diagnostics those up to there. -/
structure KeepsUpTo (limit : Limit) (es : List Event) (unended : Diagnostic) (chart upTo : Flowchart) :
    Prop where
  direction : chart.direction = upTo.direction
  nodes : chart.nodes = upTo.nodes
  edges : chart.edges = upTo.edges
  styles : chart.styles = upTo.styles
  reported : ∃ kept, chart.diagnostics = kept ++ [.abandoned "flowchart" limit.reason] ∧
    upTo.diagnostics = kept ++ List.replicate limit.depth unended ∧
    kept = (start.applyAll es).chart.diagnostics ∧ ∀ d ∈ kept, ¬ d.GivesUp
  closed : ∃ closed inside, es = closed ++ inside ∧ (start.applyAll closed).opened = [] ∧
    (∀ fs, fs <+: inside → fs ≠ [] → (start.applyAll (closed ++ fs)).opened ≠ []) ∧
    chart.subgraphs = (start.applyAll closed).chart.subgraphs
  chain : ∃ chain : List Subgraph,
    chain.map Subgraph.heading = ((start.applyAll es).opened.map Subgraph.heading).reverse ∧
    upTo.subgraphs = chart.subgraphs ++ chain.head?.toList

/-- A text reports nothing but what its header and its statements can miss. -/
theorem Grammar.names_document {s : Stream} (depth : Nat) : ∀ e ∈ (document depth s s.tokens).events,
    Reporting.Names Expectation.Listed e := by
  have hlisted : ∀ m : Expectation, m.Listed → m ≠ .subgraphEnd → m.Listed := fun _ h _ => h
  have hread : ∀ {opening rest es k us}, header s s.tokens = ⟨opening, .done (), rest⟩ →
      Nested s 0 rest es k us → ∀ e ∈ opening ++ es, Reporting.Names Expectation.Listed e := by
    intro opening rest es k us hh hnested
    have hlevel := level_header (s := s) hlisted s.tokens
    rw [hh] at hlevel
    exact List.forall_mem_append.mpr ⟨fun e he => (hlevel e he).2, hnested.names hlisted⟩
  by_cases hdeep : (document depth s s.tokens).outcome = .tooDeep
  · obtain ⟨opening, rest, es, t, us, head, left, hh, hnested, -, -, hdocument⟩ := document_overflow hdeep
    rw [hdocument]
    refine List.forall_mem_append.mpr ⟨hread hh hnested, fun e he => ?_⟩
    obtain rfl := List.eq_of_mem_replicate he
    exact .of_silent rfl
  · obtain ⟨opening, rest, es, k, hh, hdocument, hnested⟩ := document_nested hdeep
    rw [hdocument]
    refine List.forall_mem_append.mpr ⟨hread hh hnested, fun e he => ?_⟩
    obtain ⟨es, hes, he⟩ := List.mem_flatten.mp he
    obtain rfl := List.eq_of_mem_replicate hes
    rcases List.mem_pair.mp he with rfl | rfl
    · exact .of_silent rfl
    · exact .of_unmet rfl trivial

theorem OverflowsAt.keeps {limit : Limit} {s : Stream} {before behind : List Token} {t : Token}
    {es : List Event} (h : OverflowsAt limit.depth s before t behind es) :
    KeepsUpTo limit es (unendedAt ⟨before, t.position⟩) (ofStreamWithin limit s)
      (ofStreamWithin limit ⟨before, t.position⟩) := by
  obtain ⟨-, head, left, more, -, hdocument, -⟩ := h.head
  let d := start.applyAll es
  have hchart : ofStreamWithin limit s = d.chart.report (.abandoned "flowchart" limit.reason) := by
    rw [ofStreamWithin, ofReply, hdocument, applyAll_append, applyAll_abandon]
    rfl
  have hupTo : ofStreamWithin limit ⟨before, t.position⟩ =
      (d.applyAll (closing ⟨before, t.position⟩ limit.depth)).chart := by
    rw [ofStreamWithin, h.upTo, ofReply_of_done rfl, applyAll_append]
  obtain ⟨subgraphs, hclosed⟩ := d.exists_closing ⟨before, t.position⟩ limit.depth
  obtain ⟨chain, hheadings, -, -, hchain⟩ := exists_chain ⟨before, t.position⟩ d.chart d.opened
  obtain ⟨closed, inside, hes, hnone, hinside, hsubgraphs⟩ := exists_outermost es
  have hkept : ∀ x ∈ d.chart.diagnostics, ¬ x.GivesUp := by
    have hnames := Grammar.names_document (s := s) limit.depth
    rw [hdocument] at hnames
    rw [diagnostics_applyAll]
    exact Reporting.Names.not_givesUp fun e he => hnames e (List.mem_append_left _ he)
  rw [hchart, hupTo]
  refine ⟨?_, ?_, ?_, ?_, ⟨d.chart.diagnostics, rfl, ?_, rfl, hkept⟩,
    ⟨closed, inside, hes, hnone, hinside, hsubgraphs⟩, chain, hheadings, ?_⟩
  · rw [hclosed]; rfl
  · rw [hclosed]; rfl
  · rw [hclosed]; rfl
  · rw [hclosed]; rfl
  · rw [hclosed]
  · have hlength : d.opened.length = limit.depth := h.opened
    rw [hlength] at hchain
    exact hchain

end Mermaid.Flowchart
