import Mermaid.Proofs.Flowchart.Drawing
import Mermaid.Proofs.Grammar.Anchoring
import Mermaid.Proofs.Sighting

/-! Where the nodes of a chart come from. A node is sighted wherever it is named in the text, and is
in the end as its last definition says. -/
namespace Mermaid.Flowchart
open Rule

/-- The sightings that an event is written for. A definition says what the text and the shape are. -/
def Event.sightings : Event → List (Sighting (String × NodeShape))
  | .mention id line => [⟨id, line, none⟩]
  | .define id text shape line => [⟨id, line, some (text, shape)⟩]
  | .assign ids _ line => ids.map fun id => ⟨id, line, none⟩
  | _ => []

/-- The tokens by which a node is sighted: its id, with a definition or without one, or as one of the ids
behind `class`. -/
inductive SightedBy : Sighting (String × NodeShape) → List Token → Token → List Token → Prop
  | mention {id : Token} (hid : id.kind = .identifier) :
      SightedBy ⟨id.lexeme, id.position.line, none⟩ [] id []
  | define {id opening : Token} {inner : List Token} {shape : NodeShape} {closer : Closer} {text : String}
      (hid : id.kind = .identifier) (hs : shape? opening.kind = some (shape, closer))
      (hline : ∀ t ∈ inner, t.kind ≠ .newline)
      (hread : ∀ more, NodeText.read closer (inner ++ more) = ((text, true), more)) :
      SightedBy ⟨id.lexeme, id.position.line, some (text, shape)⟩ [] id (opening :: inner)
  | assign {word id : Token} {others : List Token} (hword : word.kind = .classWord)
      (hothers : ∀ t ∈ others, t.kind = .identifier ∨ t.kind = .comma) (hid : id.kind = .identifier) :
      SightedBy ⟨id.lexeme, word.position.line, none⟩ (word :: others) id []

/-- A node is sighted at an identifier on one line. -/
theorem SightedBy.spec {x : Sighting (String × NodeShape)} {front back : List Token} {t : Token}
    (h : SightedBy x front t back) : (∀ u ∈ front ++ t :: back, u.kind ≠ .newline) ∧
      t.kind = .identifier ∧ t.lexeme = x.name ∧ ∃ u ∈ front ++ [t], u.position.line = x.line := by
  cases h with
  | mention hid => exact ⟨by simp [hid], hid, rfl, t, List.mem_singleton_self t, rfl⟩
  | define hid hs hline hread =>
    refine ⟨?_, hid, rfl, t, List.mem_singleton_self t, rfl⟩
    exact List.forall_mem_cons.mpr ⟨by simp [hid], (Definition.shape hs hline hread).inLine⟩
  | @assign word _ others hword hothers hid =>
    refine ⟨?_, hid, rfl, word, List.mem_cons_self, rfl⟩
    simp only [List.cons_append, List.forall_mem_cons, List.forall_mem_append, hword, hid]
    refine ⟨by simp, fun u hu => ?_, by simp, List.forall_mem_nil _⟩
    rcases hothers u hu with hu | hu <;> simp [hu]

namespace Grammar
variable {s : Stream}

/-- A node is sighted at its id, unless its definition fails. -/
theorem course_node {id : Token} {ts : List Token} (hid : id.kind = .identifier)
    (hts : id :: ts <:+ s.tokens) :
    Course (MadeAt SightedBy s) (id :: ts) ((node id s ts).events.flatMap Event.sightings)
      (node id s ts).rest := by
  have hsteady : Steady True (node id) := steady_node id
  have hrest := (hsteady.rest s ts).trans (ts.suffix_cons id)
  have hreads := node_reads s id ts
  generalize node id s ts = r at hreads hrest
  cases hreads with
  | mention _ =>
    exact .cons (List.suffix_refl _) ⟨[], id, [], ts, .mention hid, rfl, hts⟩ (.nil ts.suffix_refl)
  | @define opening inner rest shape closer text htokens hs hline hread =>
    refine .cons (List.suffix_refl _) ⟨[], id, opening :: inner, rest, .define hid hs hline hread,
      congrArg (id :: ·) htokens, hts⟩ (.nil ?_)
    rw [htokens]
    exact List.suffix_append (opening :: inner) rest
  | unclosed _ _ _ => exact .nil hrest

/-- The sightings of a rule are made on its way. -/
abbrev SightsAt (s : Stream) (k : TokenKind) (r : Rule Event Unit) : Prop :=
  ObeysAt s (fun _ ts es rest => Course (MadeAt SightedBy s) ts (es.flatMap Event.sightings) rest) k r

theorem sights_nodeOrEdge : SightsAt s .identifier nodeOrEdge := by
  have hlaw := Course.composesAll (MadeAt SightedBy s) Event.sightings
  have hrest : ∀ {id : Token} {ts : List Token}, id :: ts <:+ s.tokens →
      (node id s ts).rest <:+ s.tokens := by
    intro id ts hts
    have hsteady : Steady True (node id) := steady_node id
    exact (hsteady.rest s ts).trans ((ts.suffix_cons id).trans hts)
  have hlink : ∀ source, Obeys s (fun _ ts es rest =>
      Course (MadeAt SightedBy s) ts (es.flatMap Event.sightings) rest) (link source) := by
    intro source
    refine hlaw.bind .advance (hlaw.silent .advance .advance) fun t => ?_
    cases arrow? t.kind with
    | none => exact hlaw.silent (.pure _) (.silent fun _ _ => rfl)
    | some arrow =>
      refine hlaw.bind steady_edgeLabel (hlaw.silent steady_edgeLabel writes_edgeLabel) fun label =>
        hlaw.expectBind fun id ts hts hid => ?_
      rw [bind_run]
      exact hlaw.follow (course_node hid hts) fun target _ => hlaw.silent (.bind (.emit _) fun _ => .pure _)
        (.bind (.emit rfl) fun _ _ => .silent fun _ _ => rfl) _ (hrest hts)
  intro id ts hts hid
  rw [nodeOrEdge, bind_run, advance_cons, Reply.follow_done, Reply.after_nil, bind_run]
  refine hlaw.follow (course_node hid hts) fun source _ => ?_
  have hlinks : Obeys s (fun _ ts es rest =>
      Course (MadeAt SightedBy s) ts (es.flatMap Event.sightings) rest) (links source) :=
    hlaw.iterate (fun source => (takes_link source).toSteady) hlink source
  rw [bind_run, nextKind_run, Reply.follow_done, Reply.after_nil]
  split
  · exact .nil (List.suffix_refl _)
  · exact hlaw.bind (steady_links source) hlinks
      (fun _ => hlaw.silent (.pure _) (.silent fun _ _ => rfl)) _ (hrest hts)

/-- Of what stands behind the word `class`, the ids have been read up to the tokens, and are sighted
where they stand. -/
def Assigned (s : Stream) (word : Token) (behind : List Token) (ids : List String) (ts : List Token) : Prop :=
  ∃ others, (∀ t ∈ others, t.kind = .identifier ∨ t.kind = .comma) ∧ behind = others ++ ts ∧
    Course (MadeAt SightedBy s) (word :: behind) (ids.map fun id => ⟨id, word.position.line, none⟩) ts

section assignment
variable {word : Token} {behind ts : List Token} {ids : List String}

theorem Assigned.past {t : Token} (h : Assigned s word behind ids (t :: ts)) (ht : t.kind = .comma) :
    Assigned s word behind ids ts := by
  obtain ⟨others, hothers, rfl, hcourse⟩ := h
  refine ⟨others ++ [t], List.forall_mem_append.mpr ⟨hothers, ?_⟩, by simp,
    hcourse.after (ts.suffix_cons t)⟩
  exact List.forall_mem_singleton.mpr (.inr ht)

variable (hword : word.kind = .classWord) (hbehind : word :: behind <:+ s.tokens)
include hword hbehind

theorem Assigned.listed {id : Token} (h : Assigned s word behind ids (id :: ts))
    (hid : id.kind = .identifier) : Assigned s word behind (ids ++ [id.lexeme]) ts := by
  obtain ⟨others, hothers, rfl, hcourse⟩ := h
  have hhere : Course (MadeAt SightedBy s) (id :: ts) [⟨id.lexeme, word.position.line, none⟩] ts :=
    .cons (List.suffix_refl _) ⟨word :: others, id, [], ts, .assign hword hothers hid, rfl, hbehind⟩
      (.nil ts.suffix_refl)
  refine ⟨others ++ [id], List.forall_mem_append.mpr ⟨hothers, ?_⟩, by simp, ?_⟩
  · exact List.forall_mem_singleton.mpr (.inl hid)
  · rw [List.map_append]
    exact hcourse.append hhere

/-- The ids are read one by one; nothing is written before all of them are. -/
theorem assigned_furtherIds (h : Assigned s word behind ids ts) :
    let r := iterate (·.kind == .comma) furtherId ids s ts
    r.events = [] ∧ ∀ all, r.outcome = .done all → Assigned s word behind all r.rest := by
  have hround : ∀ ids t ts, (t.kind == .comma) = true → Assigned s word behind ids (t :: ts) →
      (furtherId ids s (t :: ts)).events = [] ∧ ∀ all, (furtherId ids s (t :: ts)).outcome = .done all →
        Assigned s word behind all (furtherId ids s (t :: ts)).rest := by
    intro ids t ts ht h
    have hpast := h.past (beq_iff_eq.mp ht)
    rw [furtherId, bind_run, advance_cons, Reply.follow_done, Reply.after_nil]
    by_cases hhead : ts.head?.map (·.kind) = some .identifier
    · cases ts with
      | nil => cases hhead
      | cons id ts =>
        have hid := Option.some.inj hhead
        rw [bind_run, expect_cons hid]
        refine ⟨rfl, fun all hall => ?_⟩
        obtain rfl := Outcome.done.inj hall
        exact hpast.listed hword hbehind hid
    · rw [bind_run, expect_of_ne hhead]
      exact ⟨rfl, nofun⟩
  revert h
  apply iterate_induction (P := fun ids ts (r : Reply Event (List String)) =>
    Assigned s word behind ids ts →
      r.events = [] ∧ ∀ all, r.outcome = .done all → Assigned s word behind all r.rest)
  · intro ids ts _ h
    refine ⟨rfl, fun all hall => ?_⟩
    obtain rfl := Outcome.done.inj hall
    exact h
  · exact fun ids t ts ht _ => hround ids t ts ht
  · intro ids t ts es more rest ht hs _ ih h
    obtain ⟨hevents, hdone⟩ := hround ids t ts ht h
    rw [hs] at hevents hdone
    obtain ⟨hlater, hall⟩ := ih (hdone more rfl)
    exact ⟨List.append_eq_nil_iff.mpr ⟨hevents, hlater⟩, hall⟩

end assignment

theorem sights_classAssignment : SightsAt s .classWord classAssignment := by
  have hlaw := Course.composesAll (MadeAt SightedBy s) Event.sightings
  have hids (ids : List String) : Writes (fun e => e.sightings = []) (fun _ => True)
      (iterate (·.kind == .comma) furtherId ids) :=
    .iterate (fun _ _ => .bind .advance fun _ _ => .bind (.expect _ _) fun _ _ => .pure trivial) trivial
  have hreserves : Reserves (fun e => e.sightings = []) classAssignment :=
    .bind .advance fun _ _ => .bind (.expect _ _) fun _ _ => .bind (hids _) fun _ _ =>
      .bind (.expect _ _) fun _ _ => .of_sure fun _ _ => ⟨_, rfl⟩
  intro word ts hts hword
  refine hreserves.obeys hlaw takes_classAssignment.toSteady fun es _ rest h => ?_
  rw [classAssignment, bind_run, advance_cons, Reply.follow_done, Reply.after_nil] at h
  obtain ⟨_, first, us, _, hfirst, hbehindFirst, rfl⟩ := bind_eq_done h
  obtain ⟨_, ids, vs, _, hfurther, hbehindIds, rfl⟩ := bind_eq_done hbehindFirst
  obtain ⟨_, name, ws, _, hname, hend, rfl⟩ := bind_eq_done hbehindIds
  obtain ⟨hkind, hus⟩ := expect_eq_done (by rw [hfirst])
  obtain ⟨-, hws⟩ := expect_eq_done (by rw [hname])
  rw [hfirst] at hus
  rw [hname] at hws
  have hnone : Assigned s word ts [] (first :: us) :=
    ⟨[], List.forall_mem_nil _, hus, .nil (hus ▸ ts.suffix_cons word)⟩
  have hall := (assigned_furtherIds hword hts (hnone.listed hword hts hkind)).2
  rw [List.nil_append, hfurther] at hall
  obtain ⟨-, -, -, hcourse⟩ := hall ids rfl
  have hleft : rest <:+ ws := by
    have hsteady : Steady True (do
        emit (.assign ids name.lexeme word.position.line)
        let _ ← skipLine : Rule Event Unit) := .bind (.emit _) fun _ => .bind .skipLine fun _ => .pure _
    have hrest := hsteady.rest s ws
    rwa [hend] at hrest
  have hwritten : [Event.assign ids name.lexeme word.position.line] = _ := (Reply.mk.inj hend).1
  simp only [← hwritten, List.flatMap_append, (Writes.expect _ _).flatMap_eq_nil hfirst,
    (hids _).flatMap_eq_nil hfurther, (Writes.expect _ _).flatMap_eq_nil hname]
  have hvs : rest <:+ vs := hleft.trans (hws ▸ ws.suffix_cons name)
  simpa [Event.sightings] using hcourse.after hvs

theorem sights_document (depth : Nat) {ts : List Token} (hts : ts <:+ s.tokens) :
    Course (MadeAt SightedBy s) ts ((document depth s ts).events.flatMap Event.sightings)
      (document depth s ts).rest := by
  have hlaw := Course.composesAll (MadeAt SightedBy s) Event.sightings
  exact obeys_document hlaw (fun _ => rfl) sights_classAssignment sights_nodeOrEdge
    (fun _ => obeys_subgraph hlaw (fun _ => rfl) rfl rfl fun _ => rfl) (fun _ => rfl) (fun _ => rfl)
    (fun _ => rfl) depth ts hts

end Grammar

/-- The nodes that an event takes for granted. -/
def Event.refers : Event → List String
  | .link e => [e.source, e.target]
  | _ => []

def Event.sightedNames (e : Event) : List String := e.sightings.map (·.name)

namespace Grammar

theorem refers_node (id : Token) (known : List String) :
    Refers Event.sightedNames Event.refers known (fun after name => known ⊆ after ∧ name ∈ after)
      (node id) where
  events s ts := by
    have hidle : Writes (fun e => e.refers = []) (fun _ => True) (node id) :=
      writes_node (fun _ _ => rfl) (fun _ _ _ _ => rfl) id
    exact .of_idle (hidle.events s ts)
  value s ts name := by
    have hreads := node_reads s id ts
    generalize node id s ts = r at hreads
    intro hname
    cases hreads with
    | mention _ | define _ _ _ _ =>
      obtain rfl := Outcome.done.inj hname
      exact ⟨List.subset_append_left _ _, by simp [Event.sightedNames, Event.sightings]⟩
    | unclosed _ _ _ => cases hname

/-- A link connects nodes that have been sighted: its source before, and its target in it. -/
theorem refers_link (source : String) {known : List String} (h : source ∈ known) :
    Refers Event.sightedNames Event.refers known (fun after name => name ∈ after) (link source) := by
  refine .bind (.of_writes .advance) fun t after₁ h₁ => ?_
  cases arrow? t.kind with
  | none => exact .pure (h₁ h)
  | some arrow =>
    refine .bind (.of_writes writes_edgeLabel) fun label after₂ h₂ => .bind (.of_writes (.expect _ _))
      fun id after₃ h₃ => .bind (refers_node id after₃) fun target after₄ ⟨h₄, htarget⟩ => ?_
    have hends : [source, target] ⊆ after₄ :=
      List.cons_subset.mpr ⟨h₄ (h₃ (h₂ (h₁ h))), List.cons_subset.mpr ⟨htarget, List.nil_subset _⟩⟩
    refine .bind (.emit hends) fun _ after₅ h₅ => .pure ?_
    rw [h₅]
    exact List.mem_append_left _ htarget

theorem refers_nodeOrEdge (known : List String) :
    Refers Event.sightedNames Event.refers known (fun _ _ => True) nodeOrEdge := by
  have hlinks : ∀ source after, source ∈ after →
      Refers Event.sightedNames Event.refers after (fun _ _ => True) (do
        let _ ← links source : Rule Event Unit) := fun source after h =>
    .bind (.iterate (fun source _ => refers_link source) h) fun _ _ _ => .pure trivial
  refine .bind (.of_writes .advance) fun id after₁ _ => .bind (refers_node id after₁)
    fun source after₂ ⟨_, h₂⟩ => .bind (.of_writes .nextKind) fun k after₃ h₃ => ?_
  by_cases hk : k = some .solidLink
  · rw [if_pos hk]
    exact .bind (.of_writes (.fail _)) fun _ after₄ h₄ => hlinks source after₄ (h₄ (h₃ h₂))
  · rw [if_neg hk]
    exact hlinks source after₃ (h₃ h₂)

theorem anchored_document (depth : Nat) (s : Stream) :
    Anchored Event.sightedNames Event.refers [] (document depth s s.tokens).events := by
  have hlaw := Anchored.composes Event.sightedNames Event.refers
  exact obeys_document hlaw (fun _ => rfl) (obeys_classAssignment hlaw fun _ _ _ => rfl)
    (fun t ts _ _ => (refers_nodeOrEdge []).events s (t :: ts))
    (fun _ => obeys_subgraph hlaw (fun _ => rfl) rfl rfl fun _ => rfl) (fun _ => rfl) (fun _ => rfl)
    (fun _ => rfl) depth s.tokens (List.suffix_refl _)

end Grammar

/-- The node has the line of a sighting, and is what is said there, or bare. -/
def AsSighted (x : Sighting (String × NodeShape)) (n : Node) : Prop :=
  n.line = x.line ∧ (n.text, n.shape) = x.said?.getD (x.name, .rectangle)

namespace Draft
variable {d : Draft} {sightings : List (Sighting (String × NodeShape))}

theorem follows_assign {c : Flowchart} (h : c.nodes.Follows AsSighted sightings) (ids : List String)
    (className : String) (line : Int) :
    (ids.foldl (fun c id => (c.ensureNode id line).styleNode id className) c).nodes.Follows AsSighted
      (sightings ++ ids.map fun id => ⟨id, line, none⟩) := by
  induction ids generalizing c sightings with
  | nil => simpa using h
  | cons id ids ih =>
    have hensure : ((c.ensureNode id line).nodes).Follows AsSighted (sightings ++ [⟨id, line, none⟩]) :=
      h.ensure rfl ⟨rfl, rfl⟩
    have hone : ((c.ensureNode id line).styleNode id className).nodes.Follows AsSighted
        (sightings ++ [⟨id, line, none⟩]) := by
      dsimp only [styleNode]
      refine hensure.update fun x n hn => ?_
      split
      · exact hn
      · exact hn
    simpa using ih hone

/-- Each event leaves the nodes as the sightings tell, if it takes none for granted that was not sighted. -/
theorem follows_apply (h : d.chart.nodes.Follows AsSighted sightings) {e : Event}
    (hrefers : e.refers ⊆ sightings.map (·.name)) :
    (d.apply e).chart.nodes.Follows AsSighted (sightings ++ e.sightings) := by
  cases e with
  | mention id line =>
    rw [apply, chart_join]
    exact h.ensure (x := ⟨id, line, none⟩) rfl ⟨rfl, rfl⟩
  | define id text shape line =>
    rw [apply, chart_join]
    dsimp only [defineNode]
    exact h.define (x := ⟨id, line, some (text, shape)⟩) rfl fun _ => ⟨rfl, rfl⟩
  | link edge =>
    have hnodes : (d.apply (.link edge)).chart.nodes = d.chart.nodes := by
      simp only [apply, addEdge, ensureNode]
      rw [h.ensure_eq_self (hrefers List.mem_cons_self),
        h.ensure_eq_self (hrefers (List.mem_cons_of_mem _ List.mem_cons_self))]
    rw [hnodes]
    simpa [Event.sightings] using h
  | assign ids className line => exact follows_assign h ids className line
  | leave =>
    rcases d with ⟨c, _ | ⟨s, _ | ⟨parent, outer⟩⟩⟩ <;>
      simpa [apply, close, addSubgraph, Event.sightings] using h
  | orient | enter | abandon | style | fault | recovered =>
    simpa [apply, addStyle, report, Event.sightings] using h

end Draft

/-- The nodes of a text are as they are sighted in it. -/
theorem follows_ofStreamWithin (limit : Limit) (s : Stream) :
    (ofStreamWithin limit s).nodes.Follows AsSighted
      ((Grammar.document limit.depth s s.tokens).events.flatMap Event.sightings) := by
  have hfollows := Registry.Follows.foldl (fun d : Draft => d.chart.nodes)
    (fun _ _ _ h he => Draft.follows_apply h he) (d := .start) .empty (Grammar.anchored_document limit.depth s)
  rw [ofStreamWithin, ofReply]
  split <;> exact hfollows

end Mermaid.Flowchart
