import Mermaid.Proofs.Flowchart.Curtailing
import Mermaid.Proofs.Flowchart.Sightings
import Mermaid.Proofs.Flowchart.Subgraphs

/-! Which nodes a subgraph lists: those that were mentioned or defined while it was the innermost open
one, in the order in which they came up. Nodes that are only given a style class are not counted in. -/
namespace Mermaid

namespace Subgraph
variable {s : Subgraph} {names : List String}

/-- What a subgraph lists, under its heading. -/
def roster (s : Subgraph) : Heading × List String := (s.heading, s.members)

/-- The members of a subgraph are the nodes that were counted in, in their order. -/
theorem members_addMembers (h : s.members = names.eraseDups) (ids : List String) :
    (ids.foldl addMember s).members = (names ++ ids).eraseDups := by
  induction ids generalizing s names with
  | nil => simpa using h
  | cons id ids ih =>
    have hone : (s.addMember id).members = (names ++ [id]).eraseDups := by
      rw [eraseDups_concat, addMember, h]
      by_cases hid : id ∈ names
      · rw [if_pos (List.mem_eraseDups.mpr hid), if_pos hid, h]
      · rw [if_neg (mt List.mem_eraseDups.mp hid), if_neg hid]
    rw [List.foldl_cons, ih hone, List.append_assoc, List.singleton_append]

/-- A subgraph with more members and more children. -/
def gather (s : Subgraph) (ids : List String) (children : List Subgraph) : Subgraph :=
  children.foldl addChild (ids.foldl addMember s)

theorem addMember_addChild (s child : Subgraph) (id : String) :
    (s.addChild child).addMember id = (s.addMember id).addChild child := by
  by_cases h : id ∈ s.members
  · rw [addMember, if_pos (show id ∈ (s.addChild child).members from h), addMember, if_pos h]
  · rw [addMember, if_neg (show id ∉ (s.addChild child).members from h), addMember, if_neg h]
    rfl

theorem addMembers_addChild (s child : Subgraph) (ids : List String) :
    ids.foldl addMember (s.addChild child) = (ids.foldl addMember s).addChild child := by
  induction ids generalizing s with
  | nil => rfl
  | cons id ids ih => rw [List.foldl_cons, addMember_addChild, ih, List.foldl_cons]

theorem gather_gather (s : Subgraph) (ids ids' : List String) (children children' : List Subgraph) :
    (s.gather ids children).gather ids' children' = s.gather (ids ++ ids') (children ++ children') := by
  have hmembers (t : Subgraph) : ids'.foldl addMember (children.foldl addChild t) =
      children.foldl addChild (ids'.foldl addMember t) := by
    induction children generalizing t with
    | nil => rfl
    | cons child children ih => rw [List.foldl_cons, ih, addMembers_addChild, List.foldl_cons]
  rw [gather, gather, hmembers, gather, List.foldl_append, List.foldl_append]

section gather
variable (s : Subgraph) (ids : List String) (children : List Subgraph)

theorem heading_gather : (s.gather ids children).heading = s.heading := by
  have hmembers : (ids.foldl addMember s).heading = s.heading := by
    induction ids generalizing s with
    | nil => rfl
    | cons id ids ih => rw [List.foldl_cons, ih, heading_addMember]
  rw [← hmembers, gather]
  generalize ids.foldl addMember s = t
  induction children generalizing t with
  | nil => rfl
  | cons child children ih => exact ih (t.addChild child)

theorem members_gather : (s.gather ids children).members = (ids.foldl addMember s).members := by
  rw [gather]
  generalize ids.foldl addMember s = t
  induction children generalizing t with
  | nil => rfl
  | cons child children ih => exact ih (t.addChild child)

theorem children_gather : (s.gather ids children).children = s.children ++ children := by
  have hmembers : (ids.foldl addMember s).children = s.children := by
    induction ids generalizing s with
    | nil => rfl
    | cons id ids ih =>
      rw [List.foldl_cons, ih, addMember]
      split <;> rfl
  rw [← hmembers, gather]
  generalize ids.foldl addMember s = t
  induction children generalizing t with
  | nil => exact (List.append_nil _).symm
  | cons child children ih => exact (ih (t.addChild child)).trans (List.append_assoc _ [child] children)

end gather

end Subgraph

namespace Flowchart
open Rule Draft

/-- The node that an event counts in to the innermost open subgraph. -/
def Event.joins? : Event → Option String
  | .mention id _ | .define id _ _ _ => some id
  | _ => none

/-- The nodes that an event finds or makes: those that it names, and the ends of an edge. -/
def Event.resolves (e : Event) : List String := e.sightedNames ++ e.refers

/-- The nodes that are counted in to the subgraph in which `depth` others are open, up to its end. -/
def joined : (depth : Nat) → List Event → List String
  | _, [] => []
  | depth, .enter _ :: es => joined (depth + 1) es
  | 0, .leave :: _ | 0, .abandon :: _ => []
  | depth + 1, .leave :: es | depth + 1, .abandon :: es => joined depth es
  | 0, e :: es => e.joins?.toList ++ joined 0 es
  | depth + 1, _ :: es => joined (depth + 1) es

/-- The subgraphs that events open, each one with the nodes that are counted in to it. -/
def rosters : List Event → List (Subgraph.Heading × List String)
  | [] => []
  | .enter head :: es => (head.heading, (joined 0 es).eraseDups) :: rosters es
  | _ :: es => rosters es

section rosters
variable {e : Event} {es fs : List Event}

@[simp] theorem joined_enter (depth : Nat) (head : Subgraph) :
    joined depth (.enter head :: es) = joined (depth + 1) es := by
  cases depth <;> rfl

@[simp] theorem joined_leave (depth : Nat) : joined (depth + 1) (.leave :: es) = joined depth es := rfl

@[simp] theorem joined_left : joined 0 (.leave :: es) = [] := rfl

@[simp] theorem rosters_leave : rosters (.leave :: es) = rosters es := rfl

theorem joined_cons_of_level (he : e.nests = false) (depth : Nat) : joined depth (e :: es) =
    (if depth = 0 then e.joins?.toList else []) ++ joined depth es := by
  cases depth <;> cases e <;> first | rfl | cases he

theorem rosters_cons_of_level (he : e.nests = false) : rosters (e :: es) = rosters es := by
  cases e <;> first | rfl | cases he

theorem joined_append_of_level (he : ∀ e ∈ es, e.nests = false) :
    joined 0 (es ++ fs) = es.filterMap Event.joins? ++ joined 0 fs := by
  induction es with
  | nil => rfl
  | cons e es ih =>
    obtain ⟨he, hes⟩ := List.forall_mem_cons.mp he
    rw [List.cons_append, joined_cons_of_level he, if_pos rfl, ih hes, List.filterMap_cons]
    cases e.joins? <;> rfl

theorem Balanced.joined_append_of_open (h : Balanced false es) (depth : Nat) :
    joined (depth + 1) (es ++ fs) = joined (depth + 1) fs := by
  induction h generalizing depth fs with
  | nil => rfl
  | level he _ ih => rw [List.cons_append, joined_cons_of_level he, if_neg (by simp), ih, List.nil_append]
  | nest _ hclose _ ihbody ihmore =>
    obtain rfl := hclose.resolve_right (by simp)
    rw [List.cons_append, List.append_assoc, List.cons_append, joined_enter, ihbody, joined_leave, ihmore]

theorem Balanced.joined_append (h : Balanced false es) :
    joined 0 (es ++ fs) = joined 0 es ++ joined 0 fs := by
  induction h generalizing fs with
  | nil => rfl
  | level he _ ih =>
    rw [List.cons_append, joined_cons_of_level he, joined_cons_of_level he, ih, List.append_assoc]
  | nest hbody hclose _ _ ihmore =>
    obtain rfl := hclose.resolve_right (by simp)
    rw [List.cons_append, List.append_assoc, List.cons_append, joined_enter, joined_enter,
      hbody.joined_append_of_open, hbody.joined_append_of_open, joined_leave, joined_leave, ihmore]

/-- What is entered in the events has the same roster whatever comes behind. -/
theorem Balanced.rosters_append (h : Balanced false es) :
    rosters (es ++ fs) = rosters es ++ rosters fs := by
  induction h generalizing fs with
  | nil => rfl
  | level he _ ih =>
    rw [List.cons_append, rosters_cons_of_level he, rosters_cons_of_level he, ih]
  | @nest head body more close hbody hclose hmore ihbody ihmore =>
    obtain rfl := hclose.resolve_right (by simp)
    rw [List.cons_append, List.append_assoc, List.cons_append, rosters, rosters,
      hbody.joined_append, hbody.joined_append, ihbody, ihbody, rosters_leave, rosters_leave,
      joined_left, joined_left, ihmore, List.cons_append, List.append_assoc]

/-- A subgraph is listed behind those that are entered before it. -/
theorem rosters_getElem? (before : List Event) (head : Subgraph) (es : List Event) :
    (rosters (before ++ .enter head :: es))[(before.filterMap Event.enter?).length]? =
      some (head.heading, (joined 0 es).eraseDups) := by
  induction before with
  | nil => rfl
  | cons e before ih =>
    cases e with
    | enter s =>
      rw [List.cons_append, rosters, List.filterMap_cons]
      exact ih
    | _ => exact ih

end rosters

namespace Draft
variable {d : Draft} {s : Subgraph} {outer : List Subgraph} {es : List Event}

theorem opened_apply_of_level (hd : d.opened = s :: outer) {e : Event} (he : e.nests = false) :
    (d.apply e).opened = s.gather e.joins?.toList [] :: outer := by
  obtain ⟨c, opened⟩ := d
  obtain rfl : opened = s :: outer := hd
  cases e with
  | enter _ | leave | abandon => cases he
  | orient _ | mention _ _ | define _ _ _ _ | link _ | style _ | assign _ _ _ | fault _ | recovered _ => rfl

/-- What a subgraph is given while it is the innermost open one. -/
theorem opened_applyAll_of_level (hd : d.opened = s :: outer) (he : ∀ e ∈ es, e.nests = false) :
    (d.applyAll es).opened = s.gather (es.filterMap Event.joins?) [] :: outer := by
  induction es generalizing d s with
  | nil => exact hd
  | cons e es ih =>
    obtain ⟨he, hes⟩ := List.forall_mem_cons.mp he
    have hids : (e :: es).filterMap Event.joins? = e.joins?.toList ++ es.filterMap Event.joins? := by
      rw [List.filterMap_cons]
      cases e.joins? <;> rfl
    rw [applyAll_cons, ih (opened_apply_of_level hd he) hes, Subgraph.gather_gather, hids]
    rfl

/-- The subgraphs at the top of the chart, and those that are open. -/
def nest (d : Draft) : List Subgraph × List Subgraph := (d.chart.subgraphs, d.opened)

/-- Adds members and children to the innermost open subgraph, or else the children to the top. -/
def gather (ids : List String) (children : List Subgraph) :
    List Subgraph × List Subgraph → List Subgraph × List Subgraph
  | (top, []) => (top ++ children, [])
  | (top, s :: outer) => (top, s.gather ids children :: outer)

theorem gather_gather (ids ids' : List String) (children children' : List Subgraph)
    (p : List Subgraph × List Subgraph) :
    gather ids' children' (gather ids children p) = gather (ids ++ ids') (children ++ children') p := by
  obtain ⟨top, _ | ⟨s, outer⟩⟩ := p
  · exact congrArg (·, _) (List.append_assoc _ _ _)
  · exact congrArg (fun s => (top, s :: outer)) (s.gather_gather ids ids' children children')

theorem nest_apply_of_level (d : Draft) {e : Event} (he : e.nests = false) :
    (d.apply e).nest = gather e.joins?.toList [] d.nest := by
  rw [nest, subgraphs_apply_of_level d he]
  obtain ⟨c, _ | ⟨s, outer⟩⟩ := d
  · have hopened : (apply ⟨c, []⟩ e).opened = [] := List.map_eq_nil_iff.mp (sameOpen_apply ⟨c, []⟩ he).2
    rw [hopened, nest, gather, List.append_nil]
  · rw [opened_apply_of_level rfl he]
    rfl

theorem nest_attach (d : Draft) (child : Subgraph) : (d.attach child).nest = gather [] [child] d.nest := by
  obtain ⟨c, _ | ⟨s, outer⟩⟩ := d <;> rfl

end Draft

open Draft

/-- Events in balance add members and children to the innermost open subgraph; the subgraphs that they
open are listed as their rosters say. -/
theorem Balanced.nest_applyAll {es : List Event} (h : Balanced false es) (hsound : ∀ e ∈ es, e.Sound)
    (d : Draft) : ∃ children, (Subgraph.unfold children).map Subgraph.roster = rosters es ∧
      (d.applyAll es).nest = Draft.gather (joined 0 es) children d.nest := by
  induction h generalizing d with
  | nil =>
    refine ⟨[], by simp [Subgraph.unfold, rosters], ?_⟩
    obtain ⟨c, _ | ⟨s, outer⟩⟩ := d
    · exact congrArg (·, _) (List.append_nil _).symm
    · rfl
  | @level e more he _ ih =>
    obtain ⟨-, hmore⟩ := List.forall_mem_cons.mp hsound
    obtain ⟨children, hrosters, hnest⟩ := ih hmore (d.apply e)
    refine ⟨children, by rw [hrosters, rosters_cons_of_level he], ?_⟩
    rw [applyAll_cons, hnest, nest_apply_of_level d he, Draft.gather_gather, joined_cons_of_level he,
      if_pos rfl, List.nil_append]
  | @nest head body more close hbody hclose hmore ihbody ihmore =>
    obtain rfl := hclose.resolve_right (by simp)
    obtain ⟨⟨hmembers, hchildren⟩, hinside⟩ := List.forall_mem_cons.mp hsound
    obtain ⟨hsoundBody, hbehind⟩ := List.forall_mem_append.mp hinside
    obtain ⟨children, hrosters, hnest⟩ := ihbody hsoundBody (d.apply (.enter head))
    let child := head.gather (joined 0 body) children
    have hclosed : ((d.applyAll (.enter head :: body)).apply .leave).nest =
        Draft.gather [] [child] d.nest := by
      have hinner : (d.applyAll (.enter head :: body)).nest = (d.chart.subgraphs, child :: d.opened) := hnest
      generalize d.applyAll (.enter head :: body) = inner at hinner
      obtain ⟨c, opened⟩ := inner
      obtain ⟨htop, hopened⟩ := Prod.mk.inj hinner
      obtain rfl : opened = child :: d.opened := hopened
      rw [apply, close_cons, nest_attach]
      exact congrArg (fun top => Draft.gather [] [child] (top, d.opened)) htop
    obtain ⟨later, hlater, hnestLater⟩ :=
      ihmore (List.forall_mem_cons.mp hbehind).2 ((d.applyAll (.enter head :: body)).apply .leave)
    refine ⟨child :: later, ?_, ?_⟩
    · have hnobody : head.members = [].eraseDups := hmembers
      have hroster : child.roster = (head.heading, (joined 0 body).eraseDups) := by
        rw [Subgraph.roster, Subgraph.heading_gather, Subgraph.members_gather,
          Subgraph.members_addMembers hnobody, List.nil_append]
      have hinside : child.children = children := by
        rw [Subgraph.children_gather, hchildren, List.nil_append]
      rw [Subgraph.unfold, hinside, Subgraph.unfold_append, List.map_cons, List.map_append, hroster,
        hrosters, hlater, rosters, hbody.joined_append, hbody.rosters_append, joined_left,
        List.append_nil, rosters_leave]
    · rw [joined_enter, hbody.joined_append_of_open, joined_leave, ← List.cons_append, applyAll_append,
        applyAll_cons, hnestLater, hclosed, Draft.gather_gather]
      rfl

/-- The subgraphs of a chart list the nodes that are counted in to them. -/
theorem Balanced.rosters_chart {es : List Event} (h : Balanced false es) (hsound : ∀ e ∈ es, e.Sound) :
    (start.applyAll es).chart.allSubgraphs.map Subgraph.roster = rosters es := by
  obtain ⟨children, hrosters, hnest⟩ := h.nest_applyAll hsound start
  have htop : (start.applyAll es).chart.subgraphs = children := (Prod.mk.inj hnest).1
  rw [allSubgraphs, htop, hrosters]

/-- While a subgraph is open, the events go back to where it was entered, with nothing between that is not
closed by now. -/
theorem exists_enter {es : List Event} (hkept : ∀ e ∈ es, e ≠ .abandon) {s : Subgraph}
    {outer : List Subgraph} (hopened : (start.applyAll es).opened = s :: outer) :
    ∃ before head body, es = before ++ .enter head :: body ∧ Balanced false body ∧
      (start.applyAll before).opened = outer ∧ s.heading = head.heading := by
  induction hn : es.length using Nat.strongRecOn generalizing es s outer with
  | ind n ih =>
    rcases List.eq_nil_or_concat' es with rfl | ⟨front, e, rfl⟩
    · cases hopened
    obtain ⟨hfront, he⟩ := List.forall_mem_append.mp hkept
    rw [List.length_append, List.length_singleton] at hn
    rw [applyAll_append] at hopened
    change ((start.applyAll front).apply e).opened = s :: outer at hopened
    by_cases hlevel : e.nests = false
    · obtain ⟨htail, hheadings⟩ := sameOpen_apply (start.applyAll front) hlevel
      rw [hopened] at htail hheadings
      rcases hd : (start.applyAll front).opened with _ | ⟨s', outer'⟩
      · rw [hd] at hheadings
        cases hheadings
      · rw [hd] at htail hheadings
        obtain rfl : outer = outer' := htail
        obtain ⟨before, head, body, rfl, hbody, houter, hheading⟩ := ih _ (by omega) hfront hd rfl
        refine ⟨before, head, body ++ [e], by simp, hbody.append (.level hlevel .nil), houter, ?_⟩
        exact (List.cons.inj hheadings).1.trans hheading
    cases e with
    | enter head =>
      obtain ⟨rfl, rfl⟩ := List.cons.inj hopened
      exact ⟨front, head, [], rfl, .nil, rfl, rfl⟩
    | leave =>
      -- What is left was entered in the subgraph that is open now.
      rcases hd : start.applyAll front with ⟨c, _ | ⟨child, _ | ⟨parent, outer'⟩⟩⟩
      · rw [hd] at hopened
        cases hopened
      · rw [hd] at hopened
        cases hopened
      · rw [hd] at hopened
        obtain ⟨rfl, rfl⟩ := List.cons.inj hopened
        obtain ⟨before', head', body', rfl, hbody', hopened', -⟩ := ih _ (by omega) hfront (by rw [hd]) rfl
        rw [List.length_append, List.length_cons] at hn
        obtain ⟨before, head, body, rfl, hbody, houter, hheading⟩ := ih before'.length (by omega)
          (List.forall_mem_append.mp hfront).1 hopened' rfl
        exact ⟨before, head, body ++ .enter head' :: (body' ++ [.leave]), by simp,
          hbody.append (.nest hbody' (.inl rfl) .nil), houter, hheading⟩
    | abandon => exact absurd rfl (he _ (List.mem_singleton_self _))
    | _ => exact absurd rfl hlevel

namespace Grammar
variable {s : Stream}

/-- The ends of the edges in a statement are nodes that it counts in. -/
theorem anchored_statement (depth : Nat) : Obeys s
    (fun _ _ es _ => Anchored (fun e => e.joins?.toList) Event.refers [] es) (statement depth) := by
  have hlaw := Anchored.composes (fun e : Event => e.joins?.toList) Event.refers
  have hnode : Writes (fun e : Event => e.joins?.toList = e.sightedNames) (fun _ => True) nodeOrEdge :=
    writes_nodeOrEdge (fun _ _ => rfl) (fun _ _ _ _ => rfl) fun _ _ => rfl
  exact obeys_statement hlaw (fun _ => rfl) (obeys_classAssignment hlaw fun _ _ _ => rfl)
    (fun t ts _ _ => ((refers_nodeOrEdge []).events s (t :: ts)).congr (hnode.events s (t :: ts)))
    (fun _ => obeys_subgraph hlaw (fun _ => rfl) rfl rfl fun _ => rfl) depth

/-- `class` counts no node in. -/
theorem joins_classAssignment {t : Token} (ht : t.kind = .classWord) (ts : List Token) :
    ∀ e ∈ (guarded (statement 0) s (t :: ts)).events, e.joins? = none := by
  have hblank : separates t = false := by simp [separates, ht]
  have hwrites : Writes (fun e : Event => e.joins? = none) (fun _ => True)
      (statementFrom none (some t.kind)) :=
    writes_statementFrom (by simp [ht]) (fun h => by simp [ht] at h) (fun _ => rfl)
      (fun _ => writes_classAssignment fun _ _ _ => rfl) none
  rw [statement, guarded_congr (statementOver_run hblank none ts)]
  exact (hwrites.guarded fun _ => rfl).events s _

end Grammar

section step
variable {s : Stream} {n : Nat} {ts us : List Token} {gs : List Event}

/-- A step that leaves as many subgraphs open as there were opens and closes none. -/
theorem Step.level (h : Step s n ts gs n us) : ∀ e ∈ gs, e.nests = false := by
  cases h with
  | blank _ => exact List.forall_mem_nil _
  | @statement _ _ ts _ _ hblank hhead _ h =>
    have hlevel := Grammar.level_guarded (s := s) (Q := fun _ => True) (fun _ _ _ => trivial) hblank hhead ts
    rw [h] at hlevel
    exact fun e he => (hlevel e he).1
  | headless _ _ => exact List.forall_mem_singleton.mpr rfl

theorem Step.anchored (h : Step s n ts gs n us) (hts : ts <:+ s.tokens) :
    Anchored (fun e => e.joins?.toList) Event.refers [] gs := by
  cases h with
  | blank _ => trivial
  | statement _ _ _ h =>
    have hlaw := Anchored.composes (fun e : Event => e.joins?.toList) Event.refers
    have hguarded := hlaw.guarded (fun _ => rfl) (Grammar.anchored_statement (s := s) 0) _ hts
    rw [h] at hguarded
    exact hguarded
  | headless _ _ => exact ⟨List.nil_subset _, trivial⟩

/-- A step at the word `class` counts no node in. -/
theorem Step.joins_eq_nil {t : Token} (h : Step s n (t :: ts) gs n us) (ht : t.kind = .classWord) :
    gs.filterMap Event.joins? = [] := by
  cases h with
  | blank _ => rfl
  | statement _ _ _ h =>
    have hnone := Grammar.joins_classAssignment (s := s) ht ts
    rw [h] at hnone
    exact List.filterMap_eq_nil_iff.mpr hnone
  | headless _ _ => rfl

/-- Of the nodes that a step finds or makes it counts all in but those that it gives a style class. -/
theorem Step.resolves_subset (h : Step s n ts gs n us) (hts : ts <:+ s.tokens) {e : Event} (he : e ∈ gs)
    (hassign : ∀ ids className line, e ≠ .assign ids className line) :
    e.resolves ⊆ gs.filterMap Event.joins? := by
  have hjoined : gs.flatMap (fun e => e.joins?.toList) = gs.filterMap Event.joins? :=
    (List.filterMap_eq_flatMap_toList _ _).symm
  have hrefers := (h.anchored hts).refers_subset he
  rw [List.nil_append, hjoined] at hrefers
  have hsighted : e.sightedNames ⊆ gs.filterMap Event.joins? := by
    have hown : e.sightedNames = e.joins?.toList := by
      cases e with
      | assign ids className line => exact absurd rfl (hassign ids className line)
      | _ => rfl
    rw [hown, ← hjoined]
    exact fun id hid => List.mem_flatMap.mpr ⟨e, he, hid⟩
  exact List.append_subset.mpr ⟨hsighted, hrefers⟩

end step

section keys
variable {c : Flowchart} {known : List String}

theorem keys_addEdge_subset (hc : c.nodes.keys ⊆ known) {edge : Edge} (hsource : edge.source ∈ known)
    (htarget : edge.target ∈ known) : (c.addEdge edge).nodes.keys ⊆ known :=
  Registry.keys_ensure_subset (Registry.keys_ensure_subset hc hsource) htarget

theorem keys_styleNodes_subset (hc : c.nodes.keys ⊆ known) {ids : List String} (hids : ids ⊆ known)
    (className : String) (line : Int) :
    (ids.foldl (fun c id => (c.ensureNode id line).styleNode id className) c).nodes.keys ⊆ known := by
  induction ids generalizing c with
  | nil => exact hc
  | cons id ids ih =>
    obtain ⟨hid, hids⟩ := List.cons_subset.mp hids
    refine ih ?_ hids
    dsimp only [styleNode]
    rw [Registry.keys_update]
    exact Registry.keys_ensure_subset hc hid

end keys

/-- Every node of the chart behind an event was there before, or is found or made by the event. -/
theorem Draft.keys_apply (d : Draft) (e : Event) :
    (d.apply e).chart.nodes.keys ⊆ d.chart.nodes.keys ++ e.resolves := by
  have hold : d.chart.nodes.keys ⊆ d.chart.nodes.keys ++ e.resolves := List.subset_append_left _ _
  have hnew : ∀ id ∈ e.resolves, id ∈ d.chart.nodes.keys ++ e.resolves := fun _ =>
    List.mem_append_right _
  cases e with
  | mention id line =>
    rw [apply, chart_join]
    exact Registry.keys_ensure_subset hold (hnew id (List.mem_singleton_self id))
  | define id text shape line =>
    rw [apply, chart_join]
    dsimp only [defineNode]
    rw [Registry.keys_update]
    exact Registry.keys_ensure_subset hold (hnew id (List.mem_singleton_self id))
  | link edge =>
    exact keys_addEdge_subset hold (hnew _ (List.mem_cons_self ..))
      (hnew _ (List.mem_cons_of_mem _ (List.mem_singleton_self _)))
  | assign ids className line =>
    refine keys_styleNodes_subset hold (fun id hid => hnew id ?_) className line
    simpa [Event.resolves, Event.sightedNames, Event.sightings] using .inl hid
  | leave =>
    obtain ⟨c, _ | ⟨s, _ | ⟨parent, outer⟩⟩⟩ := d <;> exact hold
  | orient _ | enter _ | abandon | style _ | fault _ | recovered _ => exact hold

theorem Draft.keys_applyAll (d : Draft) (es : List Event) :
    (d.applyAll es).chart.nodes.keys ⊆ d.chart.nodes.keys ++ es.flatMap Event.resolves := by
  induction es generalizing d with
  | nil => exact List.subset_append_left _ _
  | cons e es ih =>
    intro k hk
    rcases List.mem_append.mp (ih (d.apply e) hk) with hk | hk
    · simpa [or_assoc] using Or.inl (List.mem_append.mp (d.keys_apply e hk))
    · simp [hk]

/-- What is read behind `fs`, while a subgraph is open, is counted in to the innermost one: all nodes that
are found or made there are members of it in the chart, but for those that are only given a style class.
Behind them come the nodes that are counted in to it from `more`. -/
structure Enrolls (fs gs more : List Event) (chart : Flowchart) : Prop where
  member : ∃ before head body s, fs = before ++ .enter head :: body ∧ Balanced false body ∧
    chart.allSubgraphs[(before.filterMap Event.enter?).length]? = some s ∧ s.heading = head.heading ∧
    s.members = (joined 0 body ++ gs.filterMap Event.joins? ++ joined 0 more).eraseDups ∧
    ∀ e ∈ gs, (∀ ids className line, e ≠ .assign ids className line) → e.resolves ⊆ s.members
  opened : ∃ s outer, (start.applyAll fs).opened = s :: outer ∧
    (start.applyAll (fs ++ gs)).opened = s.gather (gs.filterMap Event.joins?) [] :: outer
  made : ∀ id ∈ (start.applyAll (fs ++ gs)).chart.nodes.keys,
    id ∈ (start.applyAll fs).chart.nodes.keys ∨ ∃ e ∈ gs, id ∈ e.resolves

theorem Step.enrolls {s : Stream} {n : Nat} {ts us : List Token} {fs gs more : List Event}
    (h : Step s (n + 1) ts gs (n + 1) us) (hts : ts <:+ s.tokens)
    (hopened : (start.applyAll fs).opened.length = n + 1) (hbalanced : Balanced false (fs ++ gs ++ more))
    (hsound : ∀ e ∈ fs ++ gs ++ more, e.Sound) :
    Enrolls fs gs more (start.applyAll (fs ++ gs ++ more)).chart := by
  obtain ⟨s', outer, hfs⟩ := List.exists_cons_of_length_eq_add_one hopened
  have hkept : ∀ e ∈ fs, e ≠ .abandon := fun e he =>
    hbalanced.ne_abandon e (List.mem_append_left _ (List.mem_append_left _ he))
  obtain ⟨before, head, body, rfl, hbody, -, hheading⟩ := exists_enter hkept hfs
  refine ⟨?_, ⟨s', outer, hfs, ?_⟩, fun id hid => ?_⟩
  · have hlisted := rosters_getElem? before head (body ++ (gs ++ more))
    have hevents : before ++ .enter head :: (body ++ (gs ++ more)) =
        before ++ .enter head :: body ++ gs ++ more := by
      simp
    rw [hevents, ← hbalanced.rosters_chart hsound, List.getElem?_map, hbody.joined_append,
      joined_append_of_level h.level] at hlisted
    obtain ⟨member, hmember, hroster⟩ := Option.map_eq_some_iff.mp hlisted
    obtain ⟨hmemberHeading, hmembers⟩ := Prod.mk.inj hroster
    rw [← List.append_assoc] at hmembers
    refine ⟨before, head, body, member, rfl, hbody, hmember, hmemberHeading, hmembers, ?_⟩
    intro e he hassign id hid
    rw [hmembers, List.mem_eraseDups]
    exact List.mem_append_left _ (List.mem_append_right _ (h.resolves_subset hts he hassign hid))
  · rw [applyAll_append]
    exact opened_applyAll_of_level hfs h.level
  · rw [applyAll_append] at hid
    simpa using keys_applyAll _ gs hid

/-- The subgraphs of every text that is not nested too deeply list the nodes that are counted in to them,
each one once, in the order in which they came up. Wherever a statement begins in a subgraph, all nodes that
it finds or makes are counted in to the innermost one, even if it fails behind them; only those that `class`
lists are not. -/
theorem subgraphs_enroll (limit : Limit) (text : String) :
    let s := Stream.ofText text
    let r := Grammar.document limit.depth s s.tokens
    r.outcome ≠ .tooDeep →
      (ofStreamWithin limit s).allSubgraphs.map Subgraph.roster = rosters r.events ∧
      ∃ opening rest es k, r.events = opening ++ es ++ closing s k ∧ ReadsToEnd s opening rest es k ∧
        ∀ fs n t us gs vs, Nested s 0 rest fs (n + 1) (t :: us) → Step s (n + 1) (t :: us) gs (n + 1) vs →
          (∃ more, r.events = opening ++ fs ++ gs ++ more ∧
            Enrolls (opening ++ fs) gs more (ofStreamWithin limit s)) ∧
          (t.kind = .classWord → gs.filterMap Event.joins? = []) := by
  intro s r hdeep
  have hbalances : Grammar.Balances s (Grammar.document limit.depth) := Grammar.balances_document _
  have hbalanced := hbalances s.tokens s.tokens.suffix_refl
  have hsound := (Grammar.sound_document limit.depth).events s s.tokens
  obtain ⟨opening, rest, es, k, hheader, hdocument, hnested⟩ := Grammar.document_nested hdeep
  have hchart : ofStreamWithin limit s = (start.applyAll r.events).chart :=
    ofReply_of_done (congrArg Reply.outcome hdocument)
  have hevents : r.events = opening ++ es ++ closing s k := congrArg Reply.events hdocument
  have hbalanced : Balanced false r.events := by
    rw [hdocument] at hbalanced
    exact hevents ▸ hbalanced
  refine ⟨by rw [hchart, hbalanced.rosters_chart hsound], opening, rest, es, k, hevents,
    readsToEnd hheader hnested, fun fs n t us gs vs hreached hstep => ⟨?_, hstep.joins_eq_nil⟩⟩
  · obtain ⟨more, rfl, -⟩ := hnested.split (hreached.trans (.of_step hstep))
    have hsplit : r.events = opening ++ fs ++ gs ++ (more ++ closing s k) := by
      rw [hevents]
      simp
    refine ⟨more ++ closing s k, hsplit, ?_⟩
    have hsteady : Steady True Grammar.header := Grammar.steady_header
    have hrest := hsteady.rest s s.tokens
    rw [hheader] at hrest
    have hlength : (start.applyAll (opening ++ fs)).opened.length = n + 1 := by
      rw [applyAll_append]
      exact hreached.counts _ (length_opening hheader)
    rw [hchart, hsplit]
    rw [hsplit] at hbalanced
    exact hstep.enrolls (hreached.rest.trans hrest) hlength hbalanced
      fun e he => hsound e (hsplit.symm ▸ he)

/-- In a subgraph an edge that fails behind its source, another subgraph, and a style class for nodes that
are no members. -/
def enrolledText : String :=
  "flowchart TD\nsubgraph S\nC -->\nsubgraph T\nA\nend\nclass A,D X\nend\n"

theorem subgraphs_enroll_enrolledText :
    let s := Stream.ofText enrolledText
    let r := Grammar.document nestingLimit s s.tokens
    r.outcome ≠ .tooDeep ∧
    (parse enrolledText).allSubgraphs.map Subgraph.roster = rosters r.events ∧
    rosters r.events = [(("S", none, none), ["C"]), (("T", none, none), ["A"])] ∧
    (parse enrolledText).nodes.keys = ["C", "A", "D"] ∧
    ∃ opening rest fs t us gs vs more, Nested s 0 rest fs 1 (t :: us) ∧ Step s 1 (t :: us) gs 1 vs ∧
      gs = [.mention "C" 3, .recovered ⟨"Expected node identifier after arrow", ⟨3, 6⟩⟩] ∧
      r.events = opening ++ fs ++ gs ++ more ∧ Enrolls (opening ++ fs) gs more (parse enrolledText) := by
  intro s r
  have hdeep : r.outcome ≠ .tooDeep := by decide +kernel
  obtain ⟨hrosters, opening, rest, es, k, -, hreads, hsteps⟩ :=
    subgraphs_enroll {} enrolledText hdeep
  have hheader : Grammar.header s s.tokens = ⟨[.orient .topDown], .done (), s.tokens.drop 2⟩ := by
    decide +kernel
  have hline : s.tokens.drop 2 =
      ⟨.newline, "\n", ⟨1, 13⟩⟩ :: ⟨.subgraph, "subgraph", ⟨2, 1⟩⟩ :: s.tokens.drop 4 := by
    decide +kernel
  have hword : s.tokens.drop 6 = ⟨.identifier, "C", ⟨3, 1⟩⟩ :: s.tokens.drop 7 := by decide +kernel
  have hreached : Nested s 0 (s.tokens.drop 2) [.enter { id := "S" }] 1 (s.tokens.drop 6) := by
    rw [hline]
    exact .step (.blank rfl) (.of_step (.enter rfl (by decide +kernel)))
  have hstep : Step s 1 (s.tokens.drop 6)
      [.mention "C" 3, .recovered ⟨"Expected node identifier after arrow", ⟨3, 6⟩⟩] 1
      (s.tokens.drop 9) := by
    rw [hword]
    exact .statement rfl nofun nofun (by decide +kernel)
  obtain ⟨-, -, rfl⟩ := Reply.mk.inj (hreads.header.symm.trans hheader)
  rw [hword] at hreached hstep
  obtain ⟨⟨more, hevents, henrolls⟩, -⟩ := hsteps _ _ _ _ _ _ hreached hstep
  refine ⟨hdeep, hrosters, ?_, ?_, opening, _, _, _, _, _, _, more, hreached, hstep, rfl, hevents, henrolls⟩
  · decide +kernel
  · decide +kernel

/-- A node that is only given a style class in a subgraph. -/
def styledText : String := "flowchart TD\nsubgraph S\nclass A X\nend\n"

/-- The node is made while the subgraph is open, and is no member of it. -/
theorem parse_styledText : parse styledText =
    { nodes := ⟨[("A", { id := "A", text := "A", line := 3, classes := ["X"] })]⟩
      subgraphs := [{ id := "S", members := [] }] } := by
  decide +kernel

end Flowchart
end Mermaid
