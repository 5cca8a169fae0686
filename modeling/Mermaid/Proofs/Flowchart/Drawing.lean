import Mermaid.Proofs.Flowchart.Arrows
import Mermaid.Proofs.Flowchart.Composing
import Mermaid.Proofs.Flowchart.Definition
import Mermaid.Proofs.Grammar.Tracing

/-! The edges of a chart are those that its text draws. Each has an arrow of its own in the text, right
behind its source and right before its target. -/
namespace Mermaid.Flowchart
open Rule

/-- The tokens between an arrow and its target, and the label that they give. -/
inductive Labelled : List Token → Option String → Prop
  | none : Labelled [] none
  | words {opening closing : Token} {words : List Token} (ho : opening.kind = .pipe)
      (hwords : ∀ t ∈ words, t.kind ≠ .pipe ∧ t.kind ≠ .newline) (hc : closing.kind = .pipe) :
      Labelled (opening :: (words ++ [closing]))
        (let text := Text.joinWords (words.map (·.lexeme)); if text = "" then Option.none else some text)

/-- The tokens that draw an edge: its source and the definition of that node, an arrow, and a label
and the target. -/
inductive DrawnBy (e : Edge) : List Token → Token → List Token → Prop
  | mk {source token target : Token} {definition label : List Token} {arrow : Arrow}
      (hsource : source.kind = .identifier ∧ e.source = source.lexeme)
      (hdefinition : Definition definition)
      (harrow : arrow? token.kind = some arrow) (hstyle : e.style = arrow.style ∧ e.head = arrow.head)
      (hlength : e.minLength = 1 + ((token.lexeme.toList.count arrow.char : Int) - arrow.least))
      (hlabel : Labelled label e.label)
      (htarget : target.kind = .identifier ∧ e.target = target.lexeme) :
      DrawnBy e (source :: definition) token (label ++ [target])

theorem Labelled.inLine {taken : List Token} {label : Option String} (h : Labelled taken label) :
    ∀ t ∈ taken, t.kind ≠ .newline := by
  cases h with
  | none => exact List.forall_mem_nil _
  | words ho hwords hc =>
    refine List.forall_mem_cons.mpr ⟨by simp [ho], List.forall_mem_append.mpr ⟨?_, ?_⟩⟩
    · exact fun t ht => (hwords t ht).2
    · exact List.forall_mem_singleton.mpr (by simp [hc])

/-- An edge is drawn on one line. -/
theorem DrawnBy.inLine (e : Edge) (front : List Token) (t : Token) (back : List Token)
    (h : DrawnBy e front t back) : ∀ u ∈ front ++ t :: back, u.kind ≠ .newline := by
  obtain ⟨hsource, hdefinition, harrow, -, -, hlabel, htarget⟩ := h
  refine List.forall_mem_append.mpr ⟨List.forall_mem_cons.mpr ⟨by simp [hsource.1], hdefinition.inLine⟩,
    List.forall_mem_cons.mpr ⟨fun ht => ?_, List.forall_mem_append.mpr ⟨hlabel.inLine, ?_⟩⟩⟩
  · rw [ht] at harrow
    cases harrow
  · exact List.forall_mem_singleton.mpr (by simp [htarget.1])

/-- The edge that an event adds to the chart. -/
def Event.link? : Event → Option Edge
  | .link e => some e
  | _ => none

theorem Draft.edges_apply (d : Draft) (e : Event) :
    (d.apply e).chart.edges = d.chart.edges ++ e.link?.toList := by
  cases e with
  | mention | define => simp [apply, ensureNode, defineNode, Event.link?]
  | leave =>
    rcases d with ⟨c, _ | ⟨s, _ | ⟨parent, outer⟩⟩⟩ <;> simp [apply, close, addSubgraph, Event.link?]
  | assign ids className line =>
    obtain ⟨nodes, hnodes⟩ := d.exists_nodes_assign ids className line
    simp [hnodes, Event.link?]
  | link _ => rfl
  | orient _ | enter _ | abandon | style _ | fault _ | recovered _ => exact (List.append_nil _).symm

theorem Draft.edges_applyAll (d : Draft) (events : List Event) :
    (d.applyAll events).chart.edges = d.chart.edges ++ events.filterMap Event.link? :=
  foldl_view (fun d : Draft => d.chart.edges) (fun d e _ => d.edges_apply e) d

theorem edges_ofReply (overflow : Option String) (r : Reply Event Unit) :
    (ofReply overflow r).edges = r.events.filterMap Event.link? := by
  have hedges := Draft.edges_applyAll .start r.events
  rw [ofReply]
  split <;> exact hedges

namespace Grammar
variable {s : Stream}

/-- A label that is read stands between pipes, or there is none. -/
theorem exists_label {ts rest : List Token} {es : List Event} {label : Option String}
    (h : edgeLabel s ts = ⟨es, .done label, rest⟩) : ∃ taken, Labelled taken label ∧ taken ++ rest = ts := by
  rw [edgeLabel, bind_run] at h
  by_cases hpipe : ts.head?.map (·.kind) = some .pipe
  · cases ts with
    | nil => cases hpipe
    | cons opening ts =>
      have ho : opening.kind = .pipe := Option.some.inj hpipe
      rw [accept_cons ho, Reply.follow_done, Reply.after_nil] at h
      obtain ⟨_, text, us, _, hread, h, -⟩ := bind_eq_done h
      obtain ⟨_, closing, vs, _, hclosing, h, -⟩ := bind_eq_done h
      obtain ⟨hc, hus⟩ := expect_eq_done (by rw [hclosing])
      rw [hclosing] at hus
      rw [take_run, readLabel_eq] at hread
      obtain ⟨-, htext, hleft⟩ := Reply.mk.inj hread
      obtain ⟨-, hlabel, rfl⟩ := Reply.mk.inj h
      obtain rfl := Outcome.done.inj hlabel
      obtain rfl := Outcome.done.inj htext
      refine ⟨_, .words ho (fun t ht => by simpa [inLabel] using List.mem_takeWhile_imp ht) hc, ?_⟩
      have hsplit := List.takeWhile_append_dropWhile (p := inLabel) (l := ts)
      rw [List.cons_append, List.append_assoc, List.singleton_append, ← hus, ← hleft, hsplit]
  · rw [accept_of_ne hpipe] at h
    obtain ⟨-, hlabel, hrest⟩ := Reply.mk.inj h
    obtain rfl := Outcome.done.inj hlabel
    exact ⟨[], .none, hrest.symm⟩

/-- Right before the tokens a node is named, with its definition. -/
def Named (s : Stream) (name : String) (ts : List Token) : Prop :=
  ∃ id definition, (id.kind = .identifier ∧ name = id.lexeme) ∧ Definition definition ∧
    id :: (definition ++ ts) <:+ s.tokens

theorem named_node {id : Token} {ts rest : List Token} {es : List Event} {name : String}
    (hid : id.kind = .identifier) (hts : id :: ts <:+ s.tokens)
    (h : node id s ts = ⟨es, .done name, rest⟩) : Named s name rest := by
  obtain ⟨hname, definition, hdefinition, rfl⟩ := exists_definition h
  exact ⟨id, definition, ⟨hid, hname⟩, hdefinition, hts⟩

theorem unlinked_node (id : Token) : Writes (fun e => e.link? = none) (fun _ => True) (node id) :=
  writes_node (fun _ _ => rfl) (fun _ _ _ _ => rfl) id

/-- A link is written at the end, when its target has been read. -/
theorem reserves_link (source : String) : Reserves (fun e => e.link? = none) (link source) := by
  refine .bind .advance fun t _ => ?_
  cases arrow? t.kind with
  | none => exact .of_sure fun _ _ => ⟨_, rfl⟩
  | some arrow =>
    exact .bind writes_edgeLabel fun _ _ => .bind (.expect _ _) fun _ _ =>
      .bind (unlinked_node _) fun _ _ => .of_sure fun _ _ => ⟨_, rfl⟩

/-- From a node on, a link that is read draws an edge to the node that is named behind it. -/
theorem link_eq_done (hs : ∀ t ∈ s.tokens, ReachesLeast t.kind t.lexeme.toList) {source name : String}
    {t : Token} {ts rest : List Token} {es : List Event} (hsource : Named s source (t :: ts))
    (hready : (arrow? t.kind).isSome) (h : link source s (t :: ts) = ⟨es, .done name, rest⟩) :
    Named s name rest ∧ ∃ e, es.filterMap Event.link? = [e] ∧ MadeAt DrawnBy s e (t :: ts) := by
  obtain ⟨arrow, harrow⟩ := Option.isSome_iff_exists.mp hready
  obtain ⟨id, definition, hid, hdefinition, hbehind⟩ := hsource
  rw [link, bind_run, advance_cons, Reply.follow_done, Reply.after_nil] at h
  simp only [harrow] at h
  obtain ⟨es₁, label, us, fs₁, hlabel, hbehindLabel, rfl⟩ := bind_eq_done h
  obtain ⟨es₂, target, vs, fs₂, hexpect, hbehindTarget, rfl⟩ := bind_eq_done hbehindLabel
  obtain ⟨es₃, id', ws, fs₃, hnode, hend, rfl⟩ := bind_eq_done hbehindTarget
  obtain ⟨rfl, hname, rfl⟩ := Reply.mk.inj hend
  obtain rfl := Outcome.done.inj hname
  obtain ⟨taken, hlabelled, htaken⟩ := exists_label hlabel
  obtain ⟨htarget, hus⟩ := expect_eq_done (by rw [hexpect])
  rw [hexpect] at hus
  have htokens : (id :: definition) ++ t :: (taken ++ target :: vs) <:+ s.tokens := by
    rw [← hus, htaken]
    exact hbehind
  have hts : t :: (taken ++ target :: vs) <:+ s.tokens := (List.suffix_append _ _).trans htokens
  have htargetHere : target :: vs <:+ s.tokens :=
    (List.suffix_append (t :: taken) _).trans hts
  have hlength : arrow.minLength t.lexeme =
      1 + ((t.lexeme.toList.count arrow.char : Int) - arrow.least) := by
    have hleast := hs t (hts.subset List.mem_cons_self) arrow harrow
    rw [Arrow.minLength]
    omega
  refine ⟨named_node htarget htargetHere hnode, ⟨source, id', arrow.style, arrow.head, label, _⟩, ?_,
    id :: definition, t, taken ++ [target], vs, .mk hid hdefinition harrow ⟨rfl, rfl⟩ hlength hlabelled
      ⟨htarget, (exists_definition hnode).1⟩, ?_, ?_⟩
  · simp only [List.filterMap_append, writes_edgeLabel.filterMap_eq_nil hlabel,
      (Writes.expect _ _).filterMap_eq_nil hexpect, (unlinked_node target).filterMap_eq_nil hnode]
    rfl
  · rw [← htaken, hus, List.append_assoc, List.singleton_append]
  · rw [← htaken, hus]
    exact htokens

/-- A chain of links draws its edges on the way: each link begins behind a node, as the last one
left it. -/
theorem course_links (hs : ∀ t ∈ s.tokens, ReachesLeast t.kind t.lexeme.toList) (source : String)
    (ts : List Token) (hsource : Named s source ts) :
    Course (MadeAt DrawnBy s) ts ((links source s ts).events.filterMap Event.link?)
      (links source s ts).rest := by
  have hlink : ∀ source t ts, Named s source (t :: ts) → (arrow? t.kind).isSome →
      Course (MadeAt DrawnBy s) (t :: ts) ((link source s (t :: ts)).events.filterMap Event.link?)
        (link source s (t :: ts)).rest := by
    intro source t ts hsource hready
    have htakes : Takes True (link source) := takes_link source
    refine (reserves_link source).obeys (Course.composes _ _) htakes.toSteady fun es name rest h => ?_
    obtain ⟨-, e, he, hmade⟩ := link_eq_done hs hsource hready h
    have hrest := htakes.taken s t ts
    rw [h] at hrest
    rw [he]
    exact .cons (List.suffix_refl _) hmade (.nil hrest)
  revert hsource
  apply iterate_induction (P := fun source ts (r : Reply Event String) =>
    Named s source ts → Course (MadeAt DrawnBy s) ts (r.events.filterMap Event.link?) r.rest)
  · exact fun _ ts _ _ => .nil ts.suffix_refl
  · exact fun source t ts hready _ hsource => hlink source t ts hsource hready
  · intro source t ts es name rest hready h _ ih hsource
    have hround := hlink source t ts hsource hready
    rw [h] at hround
    simp only [Reply.after, List.filterMap_append]
    exact hround.append (ih (link_eq_done hs hsource hready h).1)

variable (hs : ∀ t ∈ s.tokens, ReachesLeast t.kind t.lexeme.toList)
include hs

theorem traces_nodeOrEdge : TracesAt s (MadeAt DrawnBy s) Event.link? .identifier nodeOrEdge := by
  have hlaw := Course.composes (MadeAt DrawnBy s) Event.link?
  intro id ts hts hid
  rw [nodeOrEdge, bind_run, advance_cons, Reply.follow_done, Reply.after_nil, bind_run]
  have hcons := ts.suffix_cons id
  have hnode := hlaw.silent (steady_node id) (unlinked_node id) ts (hcons.trans hts)
  refine hlaw.follow (hnode.before hcons) fun name hname => ?_
  have hnamed : Named s name (node id s ts).rest := named_node hid hts (by rw [← hname])
  generalize (node id s ts).rest = rest at hnamed ⊢
  rw [bind_run, nextKind_run, Reply.follow_done, Reply.after_nil]
  by_cases h : rest.head?.map (·.kind) = some .solidLink
  · rw [if_pos h]
    exact .nil rest.suffix_refl
  · rw [if_neg h]
    exact hlaw.follow (course_links hs name rest hnamed) fun _ _ => .nil (List.suffix_refl _)

theorem traces_document (depth : Nat) : Traces s (MadeAt DrawnBy s) Event.link? (document depth) := by
  have hlaw := Course.composes (MadeAt DrawnBy s) Event.link?
  exact obeys_document hlaw (fun _ => rfl) (obeys_classAssignment hlaw fun _ _ _ => rfl)
    (traces_nodeOrEdge hs) (fun _ => obeys_subgraph hlaw (fun _ => rfl) rfl rfl fun _ => rfl)
    (fun _ => rfl) (fun _ => rfl) (fun _ => rfl) depth

end Grammar

/-- The edges of a text are drawn in it, in their order. -/
theorem traced_edges (limit : Limit) (text : String) :
    Traced DrawnBy (Stream.ofText text).tokens (parse text limit).edges := by
  have hcourse := Grammar.traces_document (reachesLeast_ofText text) limit.depth _ (List.suffix_refl _)
  rw [parse, ofStreamWithin, edges_ofReply]
  exact hcourse.traced (Stream.inLines_ofText text) DrawnBy.inLine

end Mermaid.Flowchart
