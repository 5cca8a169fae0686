import Mermaid.Proofs.Flowchart.Balance
import Mermaid.Proofs.Flowchart.Preorder
import Mermaid.Proofs.Grammar.Tracing

/-! The outline of a chart. It lists the subgraphs in the order in which their heads stand in the text,
each as deep as there are subgraphs open at its head. -/
namespace Mermaid

namespace Subgraph

/-- The headings of subgraphs and of all that is in them, each one with its depth: a subgraph, then what
is in it, then the next one. -/
def outline (depth : Nat) : List Subgraph → List (Nat × Subgraph.Heading)
  | [] => []
  | s :: more => (depth, s.heading) :: (outline (depth + 1) s.children ++ outline depth more)
  termination_by stack => countAll stack
  decreasing_by all_goals simp only [countAll, count_eq]; omega

theorem outline_append (depth : Nat) (xs ys : List Subgraph) :
    outline depth (xs ++ ys) = outline depth xs ++ outline depth ys := by
  induction xs with
  | nil => simp [outline]
  | cons s xs ih => simp [outline, ih]

/-- The outline lists the headings in the order in which subgraphs are unfolded. -/
theorem outline_unfold (depth : Nat) (stack : List Subgraph) :
    (outline depth stack).map Prod.snd = (unfold stack).map heading := by
  induction depth, stack using outline.induct with
  | case1 => simp [outline, unfold]
  | case2 depth s more ihchildren ihmore => simp [outline, unfold, unfold_append, ihchildren, ihmore]

end Subgraph

namespace Flowchart
open Rule

/-- The subgraph that an event opens. -/
def Event.enter? : Event → Option Subgraph
  | .enter s => some s
  | _ => none

def Event.enteredId (e : Event) : Option String := e.enter?.map (·.id)

/-- How many subgraphs are open behind an event, where `depth` of them are before it. -/
def Event.depthAfter (depth : Nat) : Event → Nat
  | .enter _ => depth + 1
  | .leave | .abandon => depth - 1
  | _ => depth

/-- The headings of the subgraphs that events open, each with the number of those that are open there. -/
def entered : Nat → List Event → List (Nat × Subgraph.Heading)
  | _, [] => []
  | depth, e :: es =>
    (e.enter?.map fun s => (depth, s.heading)).toList ++ entered (e.depthAfter depth) es

theorem entered_headings (depth : Nat) (es : List Event) :
    (entered depth es).map Prod.snd = es.filterMap fun e => e.enter?.map Subgraph.heading := by
  induction es generalizing depth with
  | nil => rfl
  | cons e es ih =>
    rw [entered, List.map_append, ih, List.filterMap_cons]
    cases e.enter? <;> rfl

theorem entered_ids (es : List Event) : es.filterMap Event.enteredId =
    (es.filterMap fun e => e.enter?.map Subgraph.heading).map Prod.fst := by
  simp only [List.map_filterMap, Option.map_map]
  rfl

namespace Draft

/-- The outline of what is open, from the outermost subgraph to the innermost. -/
def outlineOpened : List Subgraph → List (Nat × Subgraph.Heading)
  | [] => []
  | s :: outer => outlineOpened outer ++ Subgraph.outline outer.length [s]

/-- The outline of all subgraphs, as if those that are open were closed. -/
def outline (d : Draft) : List (Nat × Subgraph.Heading) :=
  Subgraph.outline 0 d.chart.subgraphs ++ outlineOpened d.opened

theorem outline_attach (d : Draft) (s : Subgraph) :
    (d.attach s).outline = d.outline ++ Subgraph.outline d.opened.length [s] := by
  obtain ⟨c, _ | ⟨parent, outer⟩⟩ := d
  · simp [attach, outline, outlineOpened, addSubgraph, Subgraph.outline_append]
  · simp [attach, outline, outlineOpened, Subgraph.outline, Subgraph.addChild, Subgraph.outline_append,
      Subgraph.heading]

theorem outline_cons (c : Flowchart) (s : Subgraph) (outer : List Subgraph) :
    outline ⟨c, s :: outer⟩ = outline ⟨c, outer⟩ ++ Subgraph.outline outer.length [s] := by
  simp [outline, outlineOpened]

theorem outline_join (d : Draft) (id : String) : (d.join id).outline = d.outline := by
  obtain ⟨c, _ | ⟨s, outer⟩⟩ := d
  · rfl
  · have hchildren : (s.addMember id).children = s.children := by
      rw [Subgraph.addMember]
      split <;> rfl
    simp only [join, outline_cons, Subgraph.outline, hchildren, Subgraph.heading_addMember]

/-- Subgraphs are in the outline once they are entered, and keep their places when they are left. -/
theorem outline_apply (d : Draft) {e : Event} (he : e.Sound) (hkept : e ≠ .abandon) :
    (d.apply e).outline =
      d.outline ++ (e.enter?.map fun s => (d.opened.length, s.heading)).toList := by
  cases e with
  | mention id line | define id text shape line =>
    rw [apply, outline_join]
    exact (List.append_nil _).symm
  | enter s =>
    obtain ⟨c, opened⟩ := d
    rw [apply, outline_cons, Subgraph.outline, he.2]
    simp [Event.enter?, Subgraph.outline]
  | leave =>
    obtain ⟨c, _ | ⟨s, outer⟩⟩ := d
    · exact (List.append_nil _).symm
    · rw [apply, close_cons, outline_attach, outline_cons]
      exact (List.append_nil _).symm
  | abandon => exact absurd rfl hkept
  | assign ids className line =>
    obtain ⟨nodes, hnodes⟩ := d.exists_nodes_assign ids className line
    rw [hnodes]
    exact (List.append_nil _).symm
  | orient _ | link _ | style _ | fault _ | recovered _ => exact (List.append_nil _).symm

theorem length_opened_apply (d : Draft) (e : Event) :
    (d.apply e).opened.length = e.depthAfter d.opened.length := by
  have hlevel : e.nests = false → (d.apply e).opened.length = d.opened.length := fun he => by
    simpa using congrArg List.length (d.sameOpen_apply he).2
  cases e with
  | enter _ => rfl
  | leave =>
    obtain ⟨c, _ | ⟨s, outer⟩⟩ := d
    · rfl
    · rw [apply, close_cons]
      simpa [Event.depthAfter] using congrArg List.length (sameOpen_attach ⟨c, outer⟩ s).2
  | abandon => exact List.length_tail
  | orient _ | mention _ _ | define _ _ _ _ | link _ | style _ | assign _ _ _ | fault _ | recovered _ =>
    exact hlevel rfl

theorem outline_applyAll {es : List Event} (h : ∀ e ∈ es, e.Sound ∧ e ≠ .abandon) (d : Draft) :
    (d.applyAll es).outline = d.outline ++ entered d.opened.length es := by
  induction es generalizing d with
  | nil => exact (List.append_nil _).symm
  | cons e es ih =>
    obtain ⟨⟨he, hkept⟩, hes⟩ := List.forall_mem_cons.mp h
    rw [applyAll_cons, ih hes, d.outline_apply he hkept, d.length_opened_apply, List.append_assoc, entered]

/-- An event adds no subgraph to the outline but the one that it enters. -/
theorem outline_apply_subset (d : Draft) {e : Event} (he : e.Sound) : (d.apply e).outline ⊆
    d.outline ++ (e.enter?.map fun s => (d.opened.length, s.heading)).toList := by
  by_cases hkept : e = .abandon
  · subst hkept
    obtain ⟨c, _ | ⟨s, outer⟩⟩ := d
    · exact List.subset_append_left _ _
    · rw [outline_cons]
      exact List.subset_append_of_subset_left _ (List.subset_append_left _ _)
  · rw [d.outline_apply he hkept]
    exact List.Subset.refl _

theorem outline_applyAll_subset {es : List Event} (h : ∀ e ∈ es, e.Sound) (d : Draft) :
    (d.applyAll es).outline ⊆ d.outline ++ entered d.opened.length es := by
  induction es generalizing d with
  | nil => exact List.subset_append_left _ _
  | cons e es ih =>
    obtain ⟨he, hes⟩ := List.forall_mem_cons.mp h
    refine List.Subset.trans (ih hes (d.apply e)) (List.append_subset.mpr ⟨?_, ?_⟩)
    · rw [entered, ← List.append_assoc]
      exact List.subset_append_of_subset_left _ (d.outline_apply_subset he)
    · rw [entered, ← d.length_opened_apply, ← List.append_assoc]
      exact List.subset_append_right _ _

end Draft

/-- However deep the text is, the chart has no subgraphs but those that are entered. -/
theorem ids_ofReply_subset (overflow : Option String) {r : Reply Event Unit} (h : ∀ e ∈ r.events, e.Sound) :
    (ofReply overflow r).allSubgraphs.map (·.id) ⊆ r.events.filterMap Event.enteredId := by
  have hchart : (ofReply overflow r).subgraphs = (Draft.start.applyAll r.events).chart.subgraphs := by
    rw [ofReply]
    split <;> rfl
  have hentered := Draft.outline_applyAll_subset h .start
  have hoffered : Subgraph.outline 0 (ofReply overflow r).subgraphs ⊆ entered 0 r.events := fun item hitem => by
    simpa [Draft.outline, Draft.outlineOpened, Draft.start, Flowchart.empty, Subgraph.outline] using
      hentered (List.mem_append_left _ (hchart ▸ hitem))
  have hheadings := List.map_subset Prod.snd hoffered
  rw [Subgraph.outline_unfold, entered_headings] at hheadings
  rw [allSubgraphs, entered_ids]
  simpa [Function.comp_def, Subgraph.heading] using List.map_subset Prod.fst hheadings

/-- Where no subgraph is dropped none is abandoned. -/
theorem Balanced.ne_abandon {es : List Event} (h : Balanced false es) : ∀ e ∈ es, e ≠ .abandon := by
  induction h with
  | nil => exact List.forall_mem_nil _
  | level he _ ih =>
    refine List.forall_mem_cons.mpr ⟨fun h => ?_, ih⟩
    rw [h] at he
    cases he
  | nest _ hclose _ ihbody ihmore =>
    refine List.forall_mem_cons.mpr ⟨fun h => (by cases h), List.forall_mem_append.mpr ⟨ihbody,
      List.forall_mem_cons.mpr ⟨fun h => ?_, ihmore⟩⟩⟩
    rw [h] at hclose
    simp at hclose

/-- Events in balance leave no subgraph open, and the outline of the chart is that of those that they
open. -/
theorem Balanced.outline {es : List Event} (h : Balanced false es) (hsound : ∀ e ∈ es, e.Sound) :
    Subgraph.outline 0 (Draft.start.applyAll es).chart.subgraphs = entered 0 es := by
  have hopened : (Draft.start.applyAll es).opened = [] :=
    List.map_eq_nil_iff.mp (h.sameOpen .start).2
  have houtline := Draft.start.outline_applyAll fun e he => ⟨hsound e he, h.ne_abandon e he⟩
  rw [Draft.outline, hopened] at houtline
  simpa [Draft.outline, Draft.outlineOpened, Draft.start, Flowchart.empty, Subgraph.outline] using houtline

/-- The token of a subgraph and its id, which comes next. -/
inductive HeadedBy (id : String) : List Token → Token → List Token → Prop
  | mk {keyword name : Token} (hkeyword : keyword.kind = .subgraph)
      (hname : name.kind = .identifier ∧ id = name.lexeme) : HeadedBy id [] keyword [name]

theorem HeadedBy.inLine (id : String) (front : List Token) (t : Token) (back : List Token)
    (h : HeadedBy id front t back) : ∀ u ∈ front ++ t :: back, u.kind ≠ .newline := by
  obtain ⟨hkeyword, hname⟩ := h
  simp [hkeyword, hname.1]

namespace Grammar
variable {s : Stream}

/-- Right behind the token of a subgraph whose head is read comes its id. -/
theorem subgraphHead_eq_done {t : Token} {ts rest : List Token} {head : Subgraph} {es : List Event}
    (h : subgraphHead s (t :: ts) = ⟨es, .done head, rest⟩) :
    ∃ name us, ts = name :: us ∧ name.kind = .identifier ∧ head.id = name.lexeme := by
  rw [subgraphHead, bind_run, advance_cons, Reply.follow_done, Reply.after_nil] at h
  obtain ⟨_, name, us, _, hname, hbehind, -⟩ := bind_eq_done h
  obtain ⟨hkind, hts⟩ := expect_eq_done (by rw [hname])
  rw [hname] at hts
  refine ⟨name, us, hts, hkind, ?_⟩
  refine Writes.value (P := fun _ => True) (Q := fun head : Subgraph => head.id = name.lexeme) ?_ s us head
    (congrArg Reply.outcome hbehind)
  refine .bind (writes_subgraphTitle _) fun _ _ => .bind .skipBlankLines fun _ _ =>
    .bind (.accept _) fun given _ => ?_
  cases given with
  | true => exact .bind .skipBlankLines fun _ _ => .bind writes_direction fun _ _ => .pure rfl
  | false => exact .pure rfl

/-- A subgraph is made at its token, and what is in it behind its head. -/
theorem traces_subgraph {inner : Option (Rule Event Unit)}
    (h : ∀ statement ∈ inner, Steady True statement ∧ Traces s (MadeAt HeadedBy s) Event.enteredId statement) :
    TracesAt s (MadeAt HeadedBy s) Event.enteredId .subgraph (subgraph inner) := by
  intro t ts hts ht
  have htakes : Takes True subgraphHead := takes_subgraphHead
  have hhead := htakes.taken s t ts
  have hcons := ts.suffix_cons t
  have hbody : ∀ {statement : Rule Event Unit} {head : Subgraph} {rest left : List Token}
      {body : List Event} {o : Outcome Unit} {close : Event}, inner = some statement →
      subgraphHead s (t :: ts) = ⟨[], .done head, rest⟩ →
      block statement (some .endSubgraph) s rest = ⟨body, o, left⟩ → Event.enteredId close = none →
      Course (MadeAt HeadedBy s) (t :: ts) ((Event.enter head :: (body ++ [close])).filterMap Event.enteredId)
        left := by
    intro statement head rest left body o close hinner hh hb hclose
    rw [hh] at hhead
    obtain ⟨hsteady, htraces⟩ := h statement hinner
    have hblock := (Course.composes (MadeAt HeadedBy s) Event.enteredId).block (fun _ => rfl) hsteady htraces
      (some .endSubgraph) rest (hhead.trans (hcons.trans hts))
    rw [hb] at hblock
    obtain ⟨name, us, rfl, hname⟩ := subgraphHead_eq_done hh
    have hitems : (Event.enter head :: (body ++ [close])).filterMap Event.enteredId =
        head.id :: body.filterMap Event.enteredId := by
      have henter : Event.enteredId (.enter head) = some head.id := rfl
      rw [List.filterMap_cons_some henter, List.filterMap_append, List.filterMap_cons_none hclose,
        List.filterMap_nil, List.append_nil]
    rw [hitems]
    exact .cons (List.suffix_refl _) ⟨[], t, [name], us, .mk ht hname, rfl, hts⟩ (hblock.before hhead)
  have hreads := subgraph_reads (s := s) inner (t :: ts)
  generalize subgraph inner s (t :: ts) = r at hreads
  cases hreads with
  | headless hh | tooDeep hh _ =>
    rw [hh] at hhead
    exact .nil (hhead.trans hcons)
  | abandoned hinner hh hb => exact hbody hinner hh hb rfl
  | closed hinner hh hb _ => exact (hbody hinner hh hb rfl).after (List.suffix_cons _ _)
  | unclosed hinner hh hb _ => exact hbody hinner hh hb rfl

theorem traces_heads (depth : Nat) : Traces s (MadeAt HeadedBy s) Event.enteredId (document depth) := by
  have hlaw := Course.composes (MadeAt HeadedBy s) Event.enteredId
  have hnode : Writes (fun e => Event.enteredId e = none) (fun _ => True) nodeOrEdge :=
    writes_nodeOrEdge (fun _ _ => rfl) (fun _ _ _ _ => rfl) fun _ _ => rfl
  exact obeys_document hlaw (fun _ => rfl) (obeys_classAssignment hlaw fun _ _ _ => rfl)
    ((hlaw.silent takes_nodeOrEdge.toSteady hnode).at _) (fun _ h => traces_subgraph h) (fun _ => rfl)
    (fun _ => rfl) (fun _ => rfl) depth

end Grammar
end Flowchart
end Mermaid
