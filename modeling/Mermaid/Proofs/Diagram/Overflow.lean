import Mermaid.Proofs.ClassDiagram.Missing
import Mermaid.Proofs.Flowchart.Abandoned

/-! What is kept of every text that is nested too deeply. -/
namespace Mermaid
open Rule

namespace Flowchart

/-- What a parser of flowcharts keeps from one text to the next. -/
structure Parser where
  stream : Stream
  rest : List Token
  draft : Draft

namespace Parser

def new : Parser := ⟨⟨[], ⟨1, 1⟩⟩, [], .start⟩

/-- Reads a text from its start, with an empty chart and no subgraph open. -/
def read (limit : Limit) (p : Parser) (text : String) : Parser :=
  let s := Stream.ofText text
  let p := { p with stream := s, rest := s.tokens, draft := .start }
  let r := Grammar.document limit.depth p.stream p.rest
  let draft := p.draft.applyAll r.events
  { p with
    rest := r.rest
    draft := match r.outcome.abandoned? "flowchart" limit.reason with
      | none => draft
      | some d => { draft with chart := draft.chart.report d } }

/-- Behind every text the chart is that of the text, and no subgraph is open. -/
theorem read_draft (limit : Limit) (p : Parser) (text : String) :
    (p.read limit text).draft = ⟨ofStreamWithin limit (.ofText text), []⟩ := by
  have hbalances : Grammar.Balances (.ofText text) (Grammar.document limit.depth) :=
    Grammar.balances_document limit.depth
  have hopened : (Draft.start.applyAll
      (Grammar.document limit.depth (.ofText text) (Stream.ofText text).tokens).events).opened = [] :=
    List.map_eq_nil_iff.mp ((hbalances _ (List.suffix_refl _)).sameOpen .start).2
  rw [read, ofStreamWithin, ofReply]
  dsimp only
  cases (Grammar.document limit.depth (.ofText text) (Stream.ofText text).tokens).outcome with
  | done _ | failed _ | tooDeep => exact congrArg (Draft.mk _) hopened

end Parser
end Flowchart

open Flowchart

/-- Whether it is nested too deeply shows where a text is read without a limit. If it is, this is reported
last of all, and the rest is what the text says up to the head of the subgraph that is too deep; but the
subgraphs that are open there are lost. No parser has any of them open afterwards, and class diagrams do
not overflow. -/
theorem overflow_keeps (limit : Limit) (text : String) :
    let s := Stream.ofText text
    let unlimited := Grammar.document s.tokens.length s s.tokens
    let chart := ofStreamWithin limit s
    unlimited.outcome = .done () ∧
    ((∃ d ∈ chart.diagnostics, d.GivesUp) ↔ Exceeds limit.depth unlimited.events) ∧
    (¬ Exceeds limit.depth unlimited.events → Grammar.document limit.depth s s.tokens = unlimited) ∧
    (Exceeds limit.depth unlimited.events → ∃ before t behind es, OverflowsAt limit.depth s before t behind es ∧
      KeepsUpTo limit es (unendedAt ⟨before, t.position⟩) chart
        (ofStreamWithin limit ⟨before, t.position⟩)) ∧
    (∀ p : Parser, (p.read limit text).draft = ⟨chart, []⟩ ∧
      ∀ later, (p.read limit text).read limit later = Parser.new.read limit later) ∧
    ∀ d ∈ (ClassDiagram.parse text).diagnostics, ¬ d.GivesUp := by
  intro s unlimited chart
  have hunlimited : unlimited.outcome ≠ .tooDeep := Grammar.document_unlimited s
  have hexceeds := Grammar.exceeds_iff limit.depth s
  have hkeeps : (Grammar.document limit.depth s s.tokens).outcome = .tooDeep →
      ∃ before t behind es, OverflowsAt limit.depth s before t behind es ∧
        KeepsUpTo limit es (unendedAt ⟨before, t.position⟩) chart
          (ofStreamWithin limit ⟨before, t.position⟩) := by
    intro hdeep
    obtain ⟨before, t, behind, es, hover⟩ := Grammar.exists_overflowsAt hdeep
    exact ⟨before, t, behind, es, hover, hover.keeps⟩
  have hgivesUp : (∃ d ∈ chart.diagnostics, d.GivesUp) ↔
      (Grammar.document limit.depth s s.tokens).outcome = .tooDeep := by
    constructor
    · rintro ⟨d, hd, hgives⟩
      by_contra hdeep
      have hnames := Grammar.names_document (s := s) limit.depth
      have hchart : chart = (Draft.start.applyAll (Grammar.document limit.depth s s.tokens).events).chart :=
        ofReply_of_done (Grammar.document_outcome hdeep)
      rw [hchart, Draft.diagnostics_applyAll] at hd
      exact Reporting.Names.not_givesUp hnames d hd hgives
    · intro hdeep
      obtain ⟨before, t, behind, es, -, hkept⟩ := hkeeps hdeep
      obtain ⟨kept, hreported, -⟩ := hkept.reported
      refine ⟨.abandoned "flowchart" limit.reason, ?_, Diagnostic.givesUp_abandoned _ _⟩
      rw [hreported]
      exact List.mem_append_right _ List.mem_cons_self
  refine ⟨Grammar.document_outcome hunlimited, hgivesUp.trans hexceeds.symm, fun h => ?_,
    fun h => hkeeps (hexceeds.mp h), fun p => ⟨p.read_draft limit text, fun _ => rfl⟩,
    ClassDiagram.Grammar.not_givesUp (Stream.kind_ne_eof text)⟩
  exact Grammar.document_congr (fun hdeep => h (hexceeds.mpr hdeep)) hunlimited

/-- A subgraph, and behind it two of which one is in the other. -/
def nestedText : String := "flowchart TD\nsubgraph A\nend\nsubgraph B\nX\nsubgraph C\nY\nend\nend\n"

theorem overflow_keeps_nestedText :
    let s := Stream.ofText nestedText
    let unlimited := Grammar.document s.tokens.length s s.tokens
    Exceeds 1 unlimited.events ∧
    (∃ before t behind es, OverflowsAt 1 s before t behind es ∧
      KeepsUpTo { depth := 1 } es (unendedAt ⟨before, t.position⟩) (ofStreamWithin { depth := 1 } s)
        (ofStreamWithin { depth := 1 } ⟨before, t.position⟩)) ∧
    ((ofStreamWithin { depth := 1 } s).nodes.keys, (ofStreamWithin { depth := 1 } s).subgraphs) =
      (["X"], [{ id := "A" }]) ∧
    ¬ Exceeds 2 unlimited.events ∧ Grammar.document 2 s s.tokens = unlimited := by
  have hdeep : (Grammar.document 1 (.ofText nestedText) (Stream.ofText nestedText).tokens).outcome =
      .tooDeep := by decide +kernel
  have hdone : (Grammar.document 2 (.ofText nestedText) (Stream.ofText nestedText).tokens).outcome ≠
      .tooDeep := by decide +kernel
  have hexceeds := (Grammar.exceeds_iff 1 _).mpr hdeep
  have hwithin := fun h => hdone ((Grammar.exceeds_iff 2 _).mp h)
  refine ⟨hexceeds, (overflow_keeps { depth := 1 } nestedText).2.2.2.1 hexceeds, ?_, hwithin,
    (overflow_keeps { depth := 2 } nestedText).2.2.1 hwithin⟩
  decide +kernel

end Mermaid
