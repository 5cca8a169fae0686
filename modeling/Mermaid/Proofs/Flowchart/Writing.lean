import Mermaid.Flowchart.Grammar
import Mermaid.Proofs.Flowchart.Integrity
import Mermaid.Proofs.Flowchart.Progress
import Mermaid.Proofs.Grammar.Writing

/-! The rules of the flowchart grammar write sound events only, wherever they end, and so every
chart that is read has integrity. Of faults only the blocks write, and the header. -/
namespace Mermaid.Flowchart
open Rule

/-- The diagnostic that an event keeps. -/
def Event.diagnostic? : Event → Option Diagnostic
  | .fault d | .recovered d => some d
  | _ => none

/-- Whether an event opens a subgraph. -/
def Event.opens : Event → Bool
  | .enter _ => true
  | _ => false

/-- Sound, and neither about a fault nor the beginning of a subgraph. -/
def Event.Plain (e : Event) : Prop := e.Sound ∧ e.diagnostic? = none ∧ e.opens = false

namespace Grammar
variable {P : Event → Prop} {α : Type}

/-- Writes events only that are plain. -/
def Plain (r : Rule Event α) : Prop := Writes Event.Plain (fun _ => True) r

/-- Writes sound events only. -/
def Sound (r : Rule Event α) : Prop := Writes Event.Sound (fun _ => True) r

/-- A node is mentioned or defined. -/
theorem writes_node (hmention : ∀ id line, P (.mention id line))
    (hdefine : ∀ id text shape line, P (.define id text shape line)) (id : Token) :
    Writes P (fun _ => True) (node id) := by
  refine .bind .nextKind fun k _ => ?_
  cases k.bind shape? with
  | none => exact .bind (.emit (hmention _ _)) fun _ _ => .pure trivial
  | some shape =>
    refine .bind .advance fun _ _ => .bind (.take _) fun (_, closed) _ => ?_
    cases closed with
    | true => exact .bind (.emit (hdefine _ _ _ _)) fun _ _ => .pure trivial
    | false => exact .bind (.fail _) fun _ _ => .pure trivial

/-- A label that says nothing is none. -/
theorem writes_edgeLabel : Writes P (· ≠ some "") edgeLabel := by
  refine .bind (.accept _) fun given _ => ?_
  cases given with
  | true =>
    refine .bind (.take _) fun label _ => .bind (.expect _ _) fun _ _ => .pure ?_
    split
    · exact (Option.some_ne_none _).symm
    · rename_i hlabel
      exact fun h => hlabel (Option.some.inj h)
  | false => exact .pure (Option.some_ne_none _).symm

theorem writes_link (hmention : ∀ id line, P (.mention id line))
    (hdefine : ∀ id text shape line, P (.define id text shape line))
    (hlink : ∀ e, (Event.link e).Sound → P (.link e)) (source : String) :
    Writes P (fun _ => True) (link source) := by
  refine .bind .advance fun t _ => ?_
  cases arrow? t.kind with
  | none => exact .pure trivial
  | some arrow =>
    exact .bind writes_edgeLabel fun label hlabel => .bind (.expect _ _) fun _ _ =>
      .bind (writes_node hmention hdefine _) fun _ _ =>
        .bind (.emit (hlink _ ⟨hlabel, Int.le_max_left _ _⟩)) fun _ _ => .pure trivial

theorem writes_nodeOrEdge (hmention : ∀ id line, P (.mention id line))
    (hdefine : ∀ id text shape line, P (.define id text shape line))
    (hlink : ∀ e, (Event.link e).Sound → P (.link e)) : Writes P (fun _ => True) nodeOrEdge := by
  have hlinks : ∀ source, Writes P (fun _ => True) (links source) :=
    fun _ => .iterate (fun source _ => writes_link hmention hdefine hlink source) trivial
  refine .bind .advance fun _ _ => .bind (writes_node hmention hdefine _) fun source _ =>
    .bind .nextKind fun k _ => ?_
  by_cases h : k = some .solidLink
  · rw [if_pos h]
    exact .bind (.fail _) fun _ _ => .bind (hlinks _) fun _ _ => .pure trivial
  · rw [if_neg h]
    exact .bind (hlinks _) fun _ _ => .pure trivial

theorem writes_subgraphTitle (id : String) : Writes P (fun _ => True) (subgraphTitle id) := by
  refine .bind .nextKind fun k _ => ?_
  split
  · exact .pure trivial
  · exact .pure trivial
  · exact .bind .advance fun _ _ => .pure trivial
  · refine .bind .advance fun _ _ => .bind (.take _) fun (_, closed) _ => ?_
    cases closed with
    | true => exact .pure trivial
    | false => exact .fail _
  · exact .bind .skipLine fun _ _ => .pure trivial

theorem writes_direction : Writes P (fun _ => True) direction := by
  refine .bind .nextKind fun k _ => ?_
  cases k.bind direction? with
  | none => exact .pure trivial
  | some d => exact .bind .advance fun _ _ => .pure trivial

/-- A head is silent, and has neither members nor children. -/
theorem writes_subgraphHead :
    Writes P (fun s => s.members = [] ∧ s.children = []) subgraphHead := by
  refine .bind .advance fun _ _ => .bind (.expect _ _) fun id _ => .bind (writes_subgraphTitle _)
    fun title _ => .bind .skipBlankLines fun _ _ => .bind (.accept _) fun given _ => ?_
  cases given with
  | true =>
    exact .bind .skipBlankLines fun _ _ => .bind writes_direction fun _ _ => .pure ⟨rfl, rfl⟩
  | false => exact .pure ⟨rfl, rfl⟩

theorem writes_nodeStyle : Writes P (fun _ => True) nodeStyle :=
  .bind .advance fun _ _ => .bind (.expect _ _) fun _ _ => .bind .skipLine fun _ _ => .pure trivial

theorem writes_styleClass (hstyle : ∀ style, P (.style style)) :
    Writes P (fun _ => True) styleClass :=
  .bind .advance fun _ _ => .bind (.expect _ _) fun _ _ => .bind .skipLine fun _ _ => .emit (hstyle _)

theorem writes_classAssignment (hassign : ∀ ids className line, P (.assign ids className line)) :
    Writes P (fun _ => True) classAssignment := by
  have hids : ∀ ids, Writes P (fun _ => True) (iterate (·.kind == .comma) furtherId ids) := fun _ =>
    .iterate (fun _ _ => .bind .advance fun _ _ => .bind (.expect _ _) fun _ _ => .pure trivial) trivial
  exact .bind .advance fun _ _ => .bind (.expect _ _) fun _ _ => .bind (hids _) fun _ _ =>
    .bind (.expect _ _) fun _ _ => .bind (.emit (hassign _ _ _)) fun _ _ =>
      .bind .skipLine fun _ _ => .pure trivial

/-- What a statement writes that is no subgraph: nodes and links, or else style classes and who has
them. -/
theorem writes_statementFrom {k : Option TokenKind} (hk : k ≠ some .subgraph)
    (hnode : k = some .identifier → Writes P (fun _ => True) nodeOrEdge)
    (hstyle : ∀ style, P (.style style))
    (hassign : k = some .classWord → Writes P (fun _ => True) classAssignment)
    (inner : Option (Rule Event Unit)) : Writes P (fun _ => True) (statementFrom inner k) := by
  rw [statementFrom.eq_def]
  split
  · exact .pure trivial
  · contradiction
  · exact writes_nodeStyle
  · exact writes_styleClass hstyle
  · exact hassign rfl
  · exact .bind .skipLine fun _ _ => .pure trivial
  · exact hnode rfl
  · exact .bind .advance fun _ _ => .pure trivial

/-- A statement that is no subgraph writes plain events. -/
theorem plain_statementFrom {k : Option TokenKind} (hk : k ≠ some .subgraph)
    (inner : Option (Rule Event Unit)) : Plain (statementFrom inner k) :=
  writes_statementFrom hk
    (fun _ => writes_nodeOrEdge (fun _ _ => ⟨trivial, rfl, rfl⟩) (fun _ _ _ _ => ⟨trivial, rfl, rfl⟩)
      fun _ he => ⟨he, rfl, rfl⟩)
    (fun _ => ⟨trivial, rfl, rfl⟩) (fun _ => writes_classAssignment fun _ _ _ => ⟨trivial, rfl, rfl⟩) inner

/-- Whether a subgraph is the next statement. -/
def atSubgraph (ts : List Token) : Bool := (ts.dropWhile separates).head?.any (·.kind == .subgraph)

theorem exists_statementOver (depth : Nat) : ∃ inner, statement depth = statementOver inner := by
  cases depth with
  | zero => exact ⟨_, rfl⟩
  | succ depth => exact ⟨_, rfl⟩

theorem plain_statement (depth : Nat) (s : Stream) {ts : List Token} (h : atSubgraph ts = false) :
    ∀ e ∈ (statement depth s ts).events, e.Plain := by
  obtain ⟨inner, hinner⟩ := exists_statementOver depth
  have hk : (ts.dropWhile separates).head?.map (·.kind) ≠ some .subgraph := by
    rw [atSubgraph] at h
    cases hd : (ts.dropWhile separates).head? with
    | none => simp
    | some t => simpa [hd] using h
  simp only [hinner, statementOver_eq, bind_run, skipBlankLines_run, nextKind_run,
    Reply.follow_done, Reply.after_nil]
  exact (plain_statementFrom hk inner).events s (ts.dropWhile separates)

theorem sound_block {statement : Rule Event Unit} (h : Sound statement) (stop : Option TokenKind) :
    Sound (block statement stop) := .block (fun _ => trivial) h stop

/-- A subgraph writes sound events where the statements in it do. -/
theorem sound_subgraph {inner : Option (Rule Event Unit)}
    (h : ∀ statement ∈ inner, Sound statement) : Sound (subgraph inner) := by
  refine .bind writes_subgraphHead fun head hhead => ?_
  cases inner with
  | none => exact .tooDeep
  | some statement =>
    exact .bind (.emit hhead) fun _ _ =>
      .bind (.onOverflow (sound_block (h statement rfl) _) trivial) fun _ _ =>
      .bind (.emit trivial) fun _ _ => .bind (.expect _ _) fun _ _ => .pure trivial

theorem sound_statementOver {inner : Option (Rule Event Unit)}
    (h : ∀ statement ∈ inner, Sound statement) : Sound (statementOver inner) := by
  rw [statementOver_eq]
  refine .bind .skipBlankLines fun _ _ => .bind .nextKind fun k _ => ?_
  by_cases hk : k = some .subgraph
  · rw [hk]
    exact sound_subgraph h
  · exact (plain_statementFrom hk inner).mono fun _ he => he.1

theorem sound_statement (depth : Nat) : Sound (statement depth) := by
  induction depth with
  | zero => exact sound_statementOver fun _ h => by cases h
  | succ depth ih =>
    refine sound_statementOver fun r hr => ?_
    cases hr
    exact ih

/-- A header gives the direction of the chart, or else it is missing. -/
theorem writes_header (horient : ∀ d, P (.orient d))
    (hfault : ∀ t, P (.fault (Expectation.flowchartHeader.unmetAt t))) :
    Writes P (fun _ => True) header := by
  refine .bind .skipBlankLines fun _ _ => .bind (.accept _) fun given _ => ?_
  cases given with
  | true =>
    refine .bind .skipBlankLines fun _ _ => .bind writes_direction fun d _ => ?_
    cases d with
    | some d => exact .emit (horient d)
    | none => exact .pure trivial
  | false =>
    refine .bind (.unmet _) fun d hd => .emit ?_
    obtain ⟨t, rfl⟩ := hd
    exact hfault t

theorem sound_header : Sound header := writes_header (fun _ => trivial) (fun _ => trivial)

theorem sound_document (depth : Nat) : Sound (document depth) :=
  .bind sound_header fun _ _ => sound_block (sound_statement depth) none

end Grammar

/-- The draft has integrity at every event of a text, whatever becomes of the rest. -/
theorem integrity_applyAll (depth : Nat) (s : Stream) {events : List Event}
    (h : events <+: (Grammar.document depth s s.tokens).events) :
    (Draft.start.applyAll events).Integrity :=
  Draft.Integrity.start.applyAll fun e he =>
    (Grammar.sound_document depth).events s s.tokens e (h.subset he)

theorem integrity_ofStreamWithin (limit : Limit) (s : Stream) : (ofStreamWithin limit s).Integrity := by
  have hdraft := integrity_applyAll limit.depth s (List.prefix_refl _)
  rw [ofStreamWithin, ofReply]
  split
  · exact hdraft.chart
  · exact hdraft.chart.report _

end Mermaid.Flowchart
