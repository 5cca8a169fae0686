import Mermaid.Proofs.Flowchart.Commenting

/-! Charts of a text with its comments and without them. They are the same but for the columns of
diagnostics, unless a comment stands on a line that is the title of a subgraph: then it is among the
words of the title. -/
namespace Mermaid

/-- Subgraphs that differ in titles of which `T` holds. -/
inductive Subgraph.Alike (T : Option String → Option String → Prop) : Subgraph → Subgraph → Prop
  | mk {id : String} {title title' : Option String} {direction : Option Direction}
      {hasCustomDirection : Bool} {members : List String} {children children' : List Subgraph}
      (ht : T title title') (hc : List.Forall₂ (Alike T) children children') :
      Alike T ⟨id, title, direction, hasCustomDirection, members, children⟩
        ⟨id, title', direction, hasCustomDirection, members, children'⟩

namespace Subgraph.Alike
variable {T : Option String → Option String → Prop} {s s' t t' : Subgraph}

theorem addMember (h : Alike T s s') (id : String) : Alike T (s.addMember id) (s'.addMember id) := by
  cases h with
  | @mk _ _ _ _ _ members _ _ ht hc =>
    by_cases hm : id ∈ members
    · simpa only [Subgraph.addMember, hm, if_true] using .mk ht hc
    · simpa only [Subgraph.addMember, hm, if_false] using .mk ht hc

theorem addChild (h : Alike T s s') (hchild : Alike T t t') :
    Alike T (s.addChild t) (s'.addChild t') := by
  cases h with
  | mk ht hc => exact .mk ht (List.rel_append hc (.cons hchild .nil))

mutual
theorem refl (hT : ∀ title, T title title) : ∀ s : Subgraph, Alike T s s
  | ⟨_, title, _, _, _, children⟩ => .mk (hT title) (reflAll hT children)

theorem reflAll (hT : ∀ title, T title title) : ∀ ss : List Subgraph, List.Forall₂ (Alike T) ss ss
  | [] => .nil
  | s :: ss => .cons (refl hT s) (reflAll hT ss)
end

mutual
/-- Subgraphs with the same titles are equal. -/
theorem eq : ∀ {s s' : Subgraph}, Alike Eq s s' → s = s'
  | ⟨_, _, _, _, _, _⟩, _, .mk ht hc => by rw [ht, eqAll hc]

theorem eqAll : ∀ {ss ss' : List Subgraph}, List.Forall₂ (Alike Eq) ss ss' → ss = ss'
  | [], _, .nil => rfl
  | _ :: _, _, .cons h hs => by rw [eq h, eqAll hs]
end

end Subgraph.Alike

namespace Flowchart
open Rule

/-- Charts that differ in titles of which `T` holds, and in the columns of diagnostics. -/
structure Alike (T : Option String → Option String → Prop) (c c' : Flowchart) : Prop where
  direction : c'.direction = c.direction
  nodes : c'.nodes = c.nodes
  edges : c'.edges = c.edges
  styles : c'.styles = c.styles
  subgraphs : List.Forall₂ (Subgraph.Alike T) c.subgraphs c'.subgraphs
  diagnostics : List.Forall₂ Diagnostic.SameLine c.diagnostics c'.diagnostics

structure Draft.Alike (T : Option String → Option String → Prop) (d d' : Draft) : Prop where
  chart : d.chart.Alike T d'.chart
  opened : List.Forall₂ (Subgraph.Alike T) d.opened d'.opened

variable {T : Option String → Option String → Prop}

theorem Alike.report {c c' : Flowchart} {d d' : Diagnostic} (h : c.Alike T c')
    (hd : d.SameLine d') : (c.report d).Alike T (c'.report d') :=
  { h with diagnostics := List.rel_append h.diagnostics (.cons hd .nil) }

theorem Alike.alterNodes {c c' : Flowchart} (h : c.Alike T c') (f : Registry Node → Registry Node) :
    Alike T { c with nodes := f c.nodes } { c' with nodes := f c'.nodes } :=
  { h with nodes := congrArg f h.nodes }

/-- Charts with the same titles are equal but for the columns of diagnostics. -/
theorem Alike.eq {c c' : Flowchart} (h : c.Alike Eq c') :
    c' = { c with diagnostics := c'.diagnostics } := by
  obtain ⟨direction, nodes, edges, subgraphs, styles, diagnostics⟩ := c
  obtain ⟨direction', nodes', edges', subgraphs', styles', diagnostics'⟩ := c'
  obtain ⟨rfl, rfl, rfl, rfl, hsubgraphs, -⟩ := h
  rw [Subgraph.Alike.eqAll hsubgraphs]

namespace Draft.Alike
variable {d d' : Draft}

theorem join (h : d.Alike T d') (id : String) : (d.join id).Alike T (d'.join id) := by
  obtain ⟨chart, opened⟩ := d
  obtain ⟨chart', opened'⟩ := d'
  obtain ⟨hchart, hopened⟩ := h
  cases hopened with
  | nil => exact ⟨hchart, .nil⟩
  | cons hs houter => exact ⟨hchart, .cons (hs.addMember id) houter⟩

theorem close (h : d.Alike T d') : d.close.Alike T d'.close := by
  obtain ⟨chart, opened⟩ := d
  obtain ⟨chart', opened'⟩ := d'
  obtain ⟨hchart, hopened⟩ := h
  cases hopened with
  | nil => exact ⟨hchart, .nil⟩
  | cons hs houter =>
    cases houter with
    | nil =>
      exact ⟨{ hchart with subgraphs := List.rel_append hchart.subgraphs (.cons hs .nil) }, .nil⟩
    | cons hparent houter => exact ⟨hchart, .cons (hparent.addChild hs) houter⟩

private theorem assign {className : String} {line : Int} {c c' : Flowchart} (h : c.Alike T c')
    (ids : List String) :
    (ids.foldl (fun c id => (c.ensureNode id line).styleNode id className) c).Alike T
      (ids.foldl (fun c id => (c.ensureNode id line).styleNode id className) c') := by
  induction ids generalizing c c' with
  | nil => exact h
  | cons id ids ih =>
    exact ih (h.alterNodes fun nodes => (nodes.ensure id (.bare id line)).update id fun n =>
      if className ∈ n.classes then n else { n with classes := n.classes ++ [className] })

private theorem tail {ss ss' : List Subgraph} (h : List.Forall₂ (Subgraph.Alike T) ss ss') :
    List.Forall₂ (Subgraph.Alike T) ss.tail ss'.tail := by
  cases h with
  | nil => exact .nil
  | cons _ h => exact h

variable (hT : ∀ title, T title title)
include hT

theorem apply (h : d.Alike T d') {e e' : Event} (he : e.Alike T e') :
    (d.apply e).Alike T (d'.apply e') := by
  have ⟨hchart, hopened⟩ := h
  cases he with
  | @enter s title ht =>
    cases s with
    | mk id _ direction hasCustomDirection members children =>
      exact ⟨hchart, .cons (.mk ht (Subgraph.Alike.reflAll hT children)) hopened⟩
  | fault hf | recovered hf => exact ⟨hchart.report hf, hopened⟩
  | same e =>
    cases e with
    | orient direction => exact ⟨{ hchart with direction := rfl }, hopened⟩
    | mention id line =>
      have hd : Draft.Alike T ⟨d.chart.ensureNode id line, d.opened⟩
          ⟨d'.chart.ensureNode id line, d'.opened⟩ :=
        ⟨hchart.alterNodes (·.ensure id (.bare id line)), hopened⟩
      exact hd.join id
    | define id text shape line =>
      have hd : Draft.Alike T ⟨d.chart.defineNode id text shape line, d.opened⟩
          ⟨d'.chart.defineNode id text shape line, d'.opened⟩ :=
        ⟨hchart.alterNodes fun nodes => (nodes.ensure id { id, text, shape, line }).update id fun n =>
          { n with text, shape, line }, hopened⟩
      exact hd.join id
    | link edge =>
      have hnodes := hchart.alterNodes fun nodes =>
        (nodes.ensure edge.source (.bare edge.source 0)).ensure edge.target (.bare edge.target 0)
      exact ⟨{ hnodes with edges := congrArg (· ++ [edge]) hchart.edges }, hopened⟩
    | enter s => exact ⟨hchart, .cons (.refl hT s) hopened⟩
    | leave => exact h.close
    | abandon => exact ⟨hchart, tail hopened⟩
    | style style => exact ⟨{ hchart with styles := congrArg (· ++ [style]) hchart.styles }, hopened⟩
    | assign ids className line => exact ⟨assign hchart ids, hopened⟩
    | fault f | recovered f => exact ⟨hchart.report ⟨rfl, rfl⟩, hopened⟩

theorem applyAll (h : d.Alike T d') {events events' : List Event}
    (he : List.Forall₂ (Event.Alike T) events events') :
    (d.applyAll events).Alike T (d'.applyAll events') := by
  induction he generalizing d d' with
  | nil => exact h
  | cons he _ ih => exact ih (apply hT h he)

end Draft.Alike

/-- Alike replies give alike charts. -/
theorem alike_ofReply (hT : ∀ title, T title title) (overflow : Option String) {r r' : Reply Event Unit}
    (hevents : List.Forall₂ (Event.Alike T) r.events r'.events) (houtcome : r.outcome.Alike Eq r'.outcome) :
    (ofReply overflow r).Alike T (ofReply overflow r') := by
  have hstart : Draft.start.Alike T Draft.start := ⟨⟨rfl, rfl, rfl, rfl, .nil, .nil⟩, .nil⟩
  have hchart := (hstart.applyAll hT hevents).chart
  obtain ⟨events, outcome, rest⟩ := r
  obtain ⟨events', outcome', rest'⟩ := r'
  cases houtcome with
  | done _ => exact hchart
  | failed _ | tooDeep => exact hchart.report ⟨rfl, rfl⟩

/-- A text without its comments has the same chart but for the columns of diagnostics and for titles
with a comment among their words; and where there is no such title, but for the columns alone. -/
theorem ofStreamWithin_uncommented (limit : Limit) (text : String) :
    let s := Stream.ofText text
    let chart := ofStreamWithin limit s
    let chart' := ofStreamWithin limit s.uncommented
    chart.Alike (Retitled s) chart' ∧
      ((∀ keyword name words, TitleLine s keyword name words → ∀ w ∈ words, w.kind ≠ .comment) →
        chart' = { chart with diagnostics := chart'.diagnostics }) := by
  intro s chart chart'
  have hremains : s.Remains s.tokens := ⟨Stream.inLines_ofText text, List.suffix_refl _⟩
  have halike : ∀ {T : Option String → Option String → Prop}, (∀ title, T title title) →
      (∀ title title', Retitled s title title' → T title title') → chart.Alike T chart' :=
    fun hrefl hT =>
      have hreply := Grammar.alike_document hT limit.depth _ _ hremains rfl
      alike_ofReply hrefl limit.reason hreply.events hreply.outcome
  refine ⟨halike .same fun _ _ h => h, fun hplain => (halike (fun _ => rfl) ?_).eq⟩
  intro title title' h
  cases h with
  | same => rfl
  | remarked h hc =>
    obtain ⟨w, hw, hwc⟩ := hc
    exact absurd hwc (hplain _ _ _ h w hw)

def remarkedTitleText : String := "flowchart TD\nsubgraph S %% note\nA\nend\n"

/-- The comment behind a subgraph's id makes a title of it. -/
theorem parse_remarkedTitleText :
    (parse remarkedTitleText).subgraphs = [{ id := "S", title := some "S note", members := ["A"] }] ∧
      (ofStream (Stream.ofText remarkedTitleText).uncommented).subgraphs =
        [{ id := "S", members := ["A"] }] := by
  decide +kernel

end Flowchart
end Mermaid
