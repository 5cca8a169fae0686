import Mermaid.Proofs.Flowchart.Reporting
import Mermaid.Proofs.Grammar.Staying

/-! Flowcharts line by line. A statement that opens no subgraph stays on its line, so a text without
subgraphs is drawn line by line, each line into the chart of the lines before it. -/
namespace Mermaid.Flowchart
open Rule

section readers

private theorem pieces_line (c : Closer) {us : List Token} (hus : ∀ u ∈ us, u.kind ≠ .newline)
    {close : Token} (hclose : close.kind = .newline) (last : Option TokenKind) :
    ∃ texts closed vs, vs <:+ us ∧ ∀ more,
      NodeText.pieces c last (us ++ close :: more) = (texts, closed, vs ++ close :: more) := by
  induction us generalizing last with
  | nil => exact ⟨[], false, [], List.suffix_refl _, fun more => by simp [NodeText.pieces, hclose]⟩
  | cons u us ih =>
    obtain ⟨hu, hus⟩ := List.forall_mem_cons.mp hus
    have hcons := us.suffix_cons u
    cases NodeText.turn c last u with
    | lineEnd hline _ => exact absurd hline hu
    | closer _ _ run | longer _ _ _ run => exact ⟨_, true, us, hcons, fun more => run _⟩
    | pipe _ _ run =>
      obtain ⟨texts, closed, vs, hvs, hread⟩ := ih hus last
      exact ⟨texts, closed, vs, hvs.trans hcons, fun more => (run _).trans (hread more)⟩
    | word _ _ _ _ run =>
      obtain ⟨texts, closed, vs, hvs, hread⟩ := ih hus (some u.kind)
      refine ⟨NodeText.gap last u.kind :: u.lexeme :: texts, closed, vs, hvs.trans hcons, fun more => ?_⟩
      rw [List.cons_append, run, hread]

theorem NodeText.readsLine (c : Closer) : ReadsLine (NodeText.read c) := by
  intro us close hus hclose
  obtain ⟨texts, closed, vs, hvs, hread⟩ := pieces_line c hus hclose none
  exact ⟨_, vs, hvs, fun more => by rw [NodeText.read, hread]⟩

theorem readsLine_readLabel : ReadsLine readLabel := by
  intro us close hus hclose
  obtain ⟨words, vs, hvs, hread⟩ :=
    ReadsLine.span (p := fun t => t.kind != .pipe && t.kind != .newline) (fun t ht => by simp [ht])
      us close hus hclose
  exact ⟨_, vs, hvs, fun more => by rw [readLabel, hread]⟩

end readers

namespace Grammar
variable {banned : TokenKind}

theorem stays_node (id : Token) : Stays banned (node id) := by
  refine .nextKindBind fun k => ?_
  cases hs : (some k).bind shape? with
  | none => exact Stays.bind (.emit _) (fun _ => .pure _) k
  | some shape =>
    have hk : k ≠ .newline := by
      rintro rfl
      cases hs
    refine .bind (.advance hk) fun _ => .bind (.take (NodeText.readsLine _)) fun (_, closed) => ?_
    cases closed with
    | true => exact .bind (.emit _) fun _ => .pure _
    | false => exact .bind (.fail _) fun _ => .pure _

theorem stays_edgeLabel : Stays banned edgeLabel := by
  refine .bind (.accept (by decide)) fun given => ?_
  cases given with
  | true =>
    exact .bind (.take readsLine_readLabel) fun _ => .bind (.expect (by decide) _) fun _ => .pure _
  | false => exact .pure _

theorem stays_link (source : String) {k : TokenKind} (hk : k ≠ .newline) :
    StaysAt banned k (link source) := by
  refine .bind (.advance hk) fun t => ?_
  cases arrow? t.kind with
  | none => exact .pure _
  | some arrow =>
    exact .bind stays_edgeLabel fun _ => .bind (.expect (by decide) _) fun _ =>
      .bind (stays_node _) fun _ => .bind (.emit _) fun _ => .pure _

theorem stays_links (source : String) : Stays banned (links source) :=
  .iterate (fun t ht => by rw [ht]; rfl) (fun source _ hk => stays_link source hk) source

theorem stays_nodeOrEdge {k : TokenKind} (hk : k ≠ .newline) : StaysAt banned k nodeOrEdge := by
  refine .bind (.advance hk) fun _ => .bind (stays_node _) fun source => .nextKindBind fun k => ?_
  have hlinks : Stays banned (do let _ ← links source : Rule Event Unit) :=
    .bind (stays_links _) fun _ => .pure _
  by_cases h : some k = some .solidLink
  · rw [if_pos h]
    exact Stays.bind (.fail _) (fun _ => hlinks) k
  · rw [if_neg h]
    exact hlinks k

theorem stays_nodeStyle {k : TokenKind} (hk : k ≠ .newline) : StaysAt banned k nodeStyle :=
  .bind (.advance hk) fun _ => .bind (.expect (by decide) _) fun _ => .bind .skipLine fun _ => .pure _

theorem stays_styleClass {k : TokenKind} (hk : k ≠ .newline) : StaysAt banned k styleClass :=
  .bind (.advance hk) fun _ => .bind (.expect (by decide) _) fun _ => .bind .skipLine fun _ => .emit _

theorem stays_classAssignment {k : TokenKind} (hk : k ≠ .newline) :
    StaysAt banned k classAssignment := by
  have hids : ∀ ids, Stays banned (iterate (·.kind == .comma) furtherId ids) :=
    .iterate (fun t ht => by simp [ht]) fun _ _ hk =>
      .bind (.advance hk) fun _ => .bind (.expect (by decide) _) fun _ => .pure _
  exact .bind (.advance hk) fun _ => .bind (.expect (by decide) _) fun _ => .bind (hids _) fun _ =>
    .bind (.expect (by decide) _) fun _ => .bind (.emit _) fun _ => .bind .skipLine fun _ => .pure _

/-- A statement that is no subgraph stays on its line. -/
theorem stays_statementFrom (inner : Option (Rule Event Unit)) {k : TokenKind} (hk : k ≠ .newline)
    (hsubgraph : k ≠ .subgraph) : StaysAt banned k (statementFrom inner (some k)) := by
  rw [statementFrom.eq_def]
  split
  · contradiction
  · simp_all
  · exact stays_nodeStyle hk
  · exact stays_styleClass hk
  · exact stays_classAssignment hk
  · exact Stays.bind .skipLine (fun _ => .pure _) k
  · exact stays_nodeOrEdge hk
  · exact .bind (.advance hk) fun _ => .pure _

/-- Statements stay on their lines, subgraphs apart. -/
theorem lineLocal_statement (depth : Nat) :
    LineLocal .subgraph (fun e => e.opens = false) (statement depth) where
  taken := (takes_statement depth).taken
  stays k hk hsubgraph := by
    obtain ⟨inner, hinner⟩ := exists_statementOver depth
    rw [hinner, statementOver_eq]
    exact .pastBlank hk (stays_statementFrom inner hk.1 hsubgraph)
  events s t ts ht hsubgraph e he := by
    have hat : atSubgraph (t :: ts) = false := by simp [atSubgraph, ht, hsubgraph]
    exact (plain_statement depth s hat e he).2.2
  recovered _ := rfl
  restarts := rfl

end Grammar

section draft

/-- Where no subgraph is opened, there is none to draw in. -/
private theorem opened_applyAll (c : Flowchart) {events : List Event}
    (h : ∀ e ∈ events, e.opens = false) : (Draft.applyAll ⟨c, []⟩ events).opened = [] := by
  induction events generalizing c with
  | nil => rfl
  | cons e events ih =>
    obtain ⟨he, hevents⟩ := List.forall_mem_cons.mp h
    have happly : Draft.apply ⟨c, []⟩ e = ⟨(Draft.apply ⟨c, []⟩ e).chart, []⟩ := by
      cases e with
      | enter s => cases he
      | orient _ | mention _ _ | define _ _ _ _ | link _ | leave | abandon | style _ | assign _ _ _
        | fault _ | recovered _ => rfl
    rw [Draft.applyAll, List.foldl_cons, happly]
    exact ih _ hevents

private theorem assign_diagnostics (ids : List String) (className : String) (line : Int)
    (c : Flowchart) (ds : List Diagnostic) :
    ids.foldl (fun c id => (c.ensureNode id line).styleNode id className)
        { c with diagnostics := ds } =
      { ids.foldl (fun c id => (c.ensureNode id line).styleNode id className) c with
        diagnostics := ds } := by
  induction ids generalizing c with
  | nil => rfl
  | cons id ids ih => exact ih ((c.ensureNode id line).styleNode id className)

/-- What events do to a chart does not depend on its diagnostics, and the diagnostics that they add
do not depend on the chart. -/
theorem Draft.applyAll_withDiagnostics (c : Flowchart) (opened : List Subgraph)
    (ds : List Diagnostic) (events : List Event) :
    Draft.applyAll ⟨{ c with diagnostics := ds }, opened⟩ events =
      ⟨{ (Draft.applyAll ⟨c, opened⟩ events).chart with
          diagnostics := ds ++ events.filterMap Event.diagnostic? },
        (Draft.applyAll ⟨c, opened⟩ events).opened⟩ := by
  induction events generalizing c opened ds with
  | nil => simp [applyAll]
  | cons e events ih =>
    have happly : Draft.apply ⟨{ c with diagnostics := ds }, opened⟩ e =
        ⟨{ (Draft.apply ⟨c, opened⟩ e).chart with diagnostics := ds ++ e.diagnostic?.toList },
          (Draft.apply ⟨c, opened⟩ e).opened⟩ := by
      cases e with
      | mention id line => cases opened <;> simp [apply, join, ensureNode, Event.diagnostic?]
      | define id text shape line =>
        cases opened <;> simp [apply, join, defineNode, Event.diagnostic?]
      | leave =>
        rcases opened with _ | ⟨s, _ | ⟨parent, outer⟩⟩ <;>
          simp [apply, close, addSubgraph, Event.diagnostic?]
      | assign ids className line => simp [apply, assign_diagnostics, Event.diagnostic?]
      | fault _ | recovered _ => rfl
      | orient _ | link _ | enter _ | abandon | style _ =>
        simp [apply, addEdge, ensureNode, addStyle, Event.diagnostic?]
    rw [applyAll, List.foldl_cons, ← applyAll, happly, ih, List.append_assoc, List.filterMap_cons]
    cases e.diagnostic? <;> rfl

end draft

/-- Draws one line into a chart: a block of statements, with the tokens of the line as line `n`. -/
def addLine (depth : Nat) (c : Flowchart) (l : String) (n : Nat) : Flowchart :=
  (Draft.applyAll ⟨c, []⟩ (lineEvents (Grammar.statement depth) l n)).chart

/-- Draws lines into a chart one after the other, the first one as line `n`. -/
def addLines (depth : Nat) (c : Flowchart) (lines : List String) (n : Nat) : Flowchart :=
  (lines.zipIdx n).foldl (fun c (l, n) => c.addLine depth l n) c

private theorem applyAll_lines (depth : Nat) (c : Flowchart) {lines : List String}
    (h : ∀ l ∈ lines, PlainLine .subgraph l) (n : Nat) :
    Draft.applyAll ⟨c, []⟩ ((lines.zipIdx n).flatMap fun (l, n) =>
      lineEvents (Grammar.statement depth) l n) = ⟨c.addLines depth lines n, []⟩ := by
  induction lines generalizing c n with
  | nil => rfl
  | cons l lines ih =>
    obtain ⟨hl, hlines⟩ := List.forall_mem_cons.mp h
    obtain ⟨hevents, -, -⟩ := (Grammar.lineLocal_statement depth).block_ofTextFrom hl n
    have hline : Draft.applyAll ⟨c, []⟩ (lineEvents (Grammar.statement depth) l n) =
        ⟨c.addLine depth l n, []⟩ :=
      congrArg (Draft.mk (c.addLine depth l n)) (opened_applyAll c hevents)
    rw [List.zipIdx_cons, List.flatMap_cons, Draft.applyAll, List.foldl_append, ← Draft.applyAll,
      ← Draft.applyAll, hline, ih _ hlines]
    rfl

/-- What lines do to a chart does not depend on the diagnostics of the lines before them, and the
diagnostics that they add do not depend on the chart. -/
theorem addLines_withDiagnostics (depth : Nat) (lines : List String) (n : Nat) : ∃ added, ∀ c ds,
    addLines depth { c with diagnostics := ds } lines n =
      { addLines depth c lines n with diagnostics := ds ++ added } := by
  induction lines generalizing n with
  | nil => exact ⟨[], fun c ds => by simp [addLines]⟩
  | cons l lines ih =>
    obtain ⟨added, hadded⟩ := ih (n + 1)
    let first := (lineEvents (Grammar.statement depth) l n).filterMap Event.diagnostic?
    refine ⟨first ++ added, fun c ds => ?_⟩
    have hline : addLine depth { c with diagnostics := ds } l n =
        { addLine depth c l n with diagnostics := ds ++ first } :=
      congrArg Draft.chart (Draft.applyAll_withDiagnostics c [] ds _)
    have hcons : ∀ c : Flowchart, c.addLines depth (l :: lines) n = (c.addLine depth l n).addLines depth lines (n + 1) :=
      fun _ => rfl
    rw [hcons, hcons, hline, hadded, List.append_assoc]

namespace Grammar

private theorem header_run {s : Stream} {t u : Token} {d : Direction} (ht : t.kind = .flowchart)
    (hu : direction? u.kind = some d) (rest : List Token) :
    header s (t :: u :: rest) = ⟨[.orient d], .done (), rest⟩ := by
  have hblank : separates u = false := by
    rw [separates, Bool.or_eq_false_iff, beq_eq_false_iff_ne, beq_eq_false_iff_ne]
    exact ⟨fun h => by simp [h, direction?] at hu, fun h => by simp [h, direction?] at hu⟩
  have hblank' : separates t = false := by simp [separates, ht]
  have hdirection : direction s (u :: rest) = ⟨[], .done (some d), rest⟩ := by
    simp [direction, bind_run, hu]
  simp [header, bind_run, skipBlankLines_run, hblank, hblank', accept_cons ht, hdirection]

/-- A document of plain lines writes what the blocks of its lines do. -/
theorem document_lines {lines : List String} (h : ∀ l ∈ lines, PlainLine .subgraph l) (depth : Nat) :
    let s := Stream.ofText ("flowchart TD\n" ++ String.join (lines.map (· ++ "\n")))
    document depth s s.tokens = ⟨.orient .topDown :: (lines.zipIdx 2).flatMap fun (l, n) =>
      lineEvents (statement depth) l n, .done (), []⟩ := by
  intro s
  obtain ⟨t, u, close, hheader, ht, hu, hclose⟩ : ∃ t u close,
      (Stream.ofTextFrom 1 "flowchart TD\n").tokens = [t, u, close] ∧ t.kind = .flowchart ∧
        u.kind = .topDown ∧ close.kind = .newline :=
    ⟨_, _, _, rfl, rfl, rfl, rfl⟩
  have htokens : s.tokens = t :: u :: close :: Stream.lineTokens 2 lines := by
    have hbelow := Stream.tokens_below "flowchart TD" (by decide) fun l hl => (h l hl).1
    exact hbelow.trans (congrArg (· ++ Stream.lineTokens 2 lines) hheader)
  have hsuffix : Stream.lineTokens 2 lines <:+ s.tokens :=
    htokens ▸ List.suffix_append [t, u, close] _
  have hblock := (lineLocal_statement depth).block_lines h 2 hsuffix
  rw [htokens, document, bind_run, header_run ht (by rw [hu]; rfl), Reply.follow_done, block_run,
    dropWhile_close hclose, ← block_run, hblock, Reply.after_mk]
  rfl

end Grammar

/-- A text without subgraphs is drawn line by line. -/
theorem parse_lines (limit : Limit) {lines : List String} (h : ∀ l ∈ lines, PlainLine .subgraph l) :
    parse ("flowchart TD\n" ++ String.join (lines.map (· ++ "\n"))) limit =
      empty.addLines limit.depth lines 2 := by
  rw [parse, ofStreamWithin, Grammar.document_lines h, ofReply_of_done rfl]
  exact congrArg Draft.chart (applyAll_lines limit.depth empty h 2)

end Mermaid.Flowchart
