import Mermaid.Proofs.Flowchart.Composing

/-! Subgraphs open and close in balance. Whatever becomes of a subgraph, those that were open at its head
are open again behind it, and if it is read it has been attached to the innermost of them. -/
namespace Mermaid

/-- What the head of a subgraph settles: its id, its title and its direction. -/
abbrev Subgraph.Heading := String × Option String × Option Direction

def Subgraph.heading (s : Subgraph) : Subgraph.Heading := (s.id, s.title, s.direction)

@[simp] theorem Subgraph.heading_addMember (s : Subgraph) (id : String) :
    (s.addMember id).heading = s.heading := by
  rw [addMember]
  split <;> rfl

@[simp] theorem Subgraph.heading_addChild (s child : Subgraph) :
    (s.addChild child).heading = s.heading := rfl

namespace Flowchart
open Rule

/-- Whether an event opens or closes a subgraph. -/
def Event.nests : Event → Bool
  | .enter _ | .leave | .abandon => true
  | _ => false

/-- Every subgraph that is entered is left behind all that is in it, or abandoned there where subgraphs
can be dropped. -/
inductive Balanced (dropped : Bool) : List Event → Prop
  | nil : Balanced dropped []
  | level {e : Event} {more : List Event} (he : e.nests = false) (hmore : Balanced dropped more) :
      Balanced dropped (e :: more)
  | nest {head : Subgraph} {body more : List Event} {close : Event} (hbody : Balanced dropped body)
      (hclose : close = .leave ∨ dropped ∧ close = .abandon) (hmore : Balanced dropped more) :
      Balanced dropped (.enter head :: (body ++ close :: more))

namespace Balanced
variable {dropped : Bool} {es fs : List Event}

theorem of_level (h : ∀ e ∈ es, e.nests = false) : Balanced dropped es := by
  induction es with
  | nil => exact .nil
  | cons e es ih =>
    obtain ⟨he, hes⟩ := List.forall_mem_cons.mp h
    exact .level he (ih hes)

theorem mono (h : Balanced false es) : Balanced dropped es := by
  induction h with
  | nil => exact .nil
  | level he _ ih => exact .level he ih
  | nest _ hclose _ ihbody ihmore => exact .nest ihbody (.inl (by simpa using hclose)) ihmore

theorem append (h : Balanced dropped es) (h' : Balanced dropped fs) : Balanced dropped (es ++ fs) := by
  induction h with
  | nil => exact h'
  | level he _ ih => exact .level he ih
  | nest hbody hclose _ _ ih =>
    rw [List.cons_append, List.append_assoc]
    exact .nest hbody hclose ih

theorem composes : Composes (fun e : Event => e.nests = false) (fun spilt _ es _ => Balanced spilt es) where
  of_idle _ h := of_level h
  mono := mono
  append := append

/-- Where no subgraph is dropped, each one that is entered is left later on. -/
theorem exists_leave {before behind : List Event} {head : Subgraph}
    (h : Balanced false (before ++ .enter head :: behind)) :
    ∃ body more, Balanced false body ∧ behind = body ++ .leave :: more := by
  generalize hes : before ++ .enter head :: behind = es at h
  induction h generalizing before behind with
  | nil => simp at hes
  | level he _ ih =>
    cases before with
    | nil =>
      obtain ⟨rfl, -⟩ := List.cons.inj hes
      cases he
    | cons e before => exact ih (List.cons.inj hes).2
  | @nest head' body more close hbody hclose _ ihbody ihmore =>
    obtain rfl : close = .leave := by simpa using hclose
    cases before with
    | nil => exact ⟨body, more, hbody, (List.cons.inj hes).2⟩
    | cons e before =>
      rcases List.append_eq_append_iff.mp (List.cons.inj hes).2 with
        ⟨inside, rfl, hin⟩ | ⟨outside, rfl, hout⟩
      · -- the subgraph lies inside this one
        cases inside with
        | nil => cases (List.cons.inj hin).1
        | cons _ inside =>
          obtain ⟨rfl, rfl⟩ := List.cons.inj hin
          obtain ⟨body', behind, hbody', rfl⟩ := ihbody rfl
          exact ⟨body', behind ++ .leave :: more, hbody', by simp⟩
      · -- it comes after this one
        cases outside with
        | nil => cases (List.cons.inj hout).1
        | cons _ outside =>
          obtain ⟨rfl, rfl⟩ := List.cons.inj hout
          exact ihmore rfl

end Balanced

namespace Draft

/-- Adds a subgraph to the innermost open one, or to the top of the chart. -/
def attach (d : Draft) (s : Subgraph) : Draft :=
  match d.opened with
  | [] => { d with chart := d.chart.addSubgraph s [] }
  | parent :: outer => { d with opened := parent.addChild s :: outer }

theorem close_cons (c : Flowchart) (s : Subgraph) (outer : List Subgraph) :
    close ⟨c, s :: outer⟩ = attach ⟨c, outer⟩ s := by
  cases outer <;> rfl

theorem applyAll_cons (d : Draft) (e : Event) (es : List Event) :
    d.applyAll (e :: es) = (d.apply e).applyAll es := rfl

/-- The same subgraphs are open, but that the innermost may have got members and children. -/
def SameOpen (opened opened' : List Subgraph) : Prop :=
  opened'.tail = opened.tail ∧ opened'.map Subgraph.heading = opened.map Subgraph.heading

namespace SameOpen
variable {opened opened' opened'' : List Subgraph}

theorem refl (opened : List Subgraph) : SameOpen opened opened := ⟨rfl, rfl⟩

theorem trans (h : SameOpen opened opened') (h' : SameOpen opened' opened'') :
    SameOpen opened opened'' := ⟨h'.1.trans h.1, h'.2.trans h.2⟩

theorem exists_cons {head : Subgraph} (h : SameOpen (head :: opened) opened') :
    ∃ child, opened' = child :: opened ∧ child.heading = head.heading := by
  obtain ⟨htail, hheadings⟩ := h
  cases opened' with
  | nil => cases hheadings
  | cons child outer => exact ⟨child, congrArg (child :: ·) htail, (List.cons.inj hheadings).1⟩

end SameOpen

/-- A subgraph that is left is attached to what is open below it. -/
theorem opened_leave (d : Draft) (c : Flowchart) (s : Subgraph) :
    (applyAll ⟨c, s :: d.opened⟩ [.leave]).opened = (d.attach s).opened := by
  obtain ⟨_, _ | ⟨parent, outer⟩⟩ := d <;> rfl

theorem sameOpen_attach (d : Draft) (s : Subgraph) : SameOpen d.opened (d.attach s).opened := by
  obtain ⟨c, _ | ⟨parent, outer⟩⟩ := d <;> exact ⟨rfl, rfl⟩

theorem sameOpen_apply (d : Draft) {e : Event} (he : e.nests = false) :
    SameOpen d.opened (d.apply e).opened := by
  have hjoin : ∀ (d : Draft) (id : String), SameOpen d.opened (d.join id).opened := by
    rintro ⟨c, _ | ⟨s, outer⟩⟩ id
    · exact .refl _
    · exact ⟨rfl, by simp [join]⟩
  cases e with
  | mention id line => exact hjoin { d with chart := d.chart.ensureNode id line } id
  | define id text shape line =>
    exact hjoin { d with chart := d.chart.defineNode id text shape line } id
  | enter _ | leave | abandon => cases he
  | orient _ | link _ | style _ | assign _ _ _ | fault _ | recovered _ => exact .refl _

theorem subgraphs_apply_of_level (d : Draft) {e : Event} (he : e.nests = false) :
    (d.apply e).chart.subgraphs = d.chart.subgraphs := by
  cases e with
  | enter _ | leave | abandon => cases he
  | mention _ _ | define _ _ _ _ => simp [apply, ensureNode, defineNode]
  | assign ids className line =>
    obtain ⟨nodes, hnodes⟩ := d.exists_nodes_assign ids className line
    rw [hnodes]
  | orient _ | link _ | style _ | fault _ | recovered _ => rfl

end Draft

open Draft

/-- What is written in balance leaves the same subgraphs open. -/
theorem Balanced.sameOpen {dropped : Bool} {es : List Event} (h : Balanced dropped es) (d : Draft) :
    SameOpen d.opened (d.applyAll es).opened := by
  induction h generalizing d with
  | nil => exact .refl _
  | level he _ ih => exact (d.sameOpen_apply he).trans (ih _)
  | @nest head body more close _ hclose _ ihbody ihmore =>
    obtain ⟨child, hchild, -⟩ := (ihbody (d.apply (.enter head))).exists_cons
    rw [applyAll_cons, applyAll_append, applyAll_cons]
    refine .trans ?_ (ihmore _)
    generalize (d.apply (.enter head)).applyAll body = inside at hchild
    obtain ⟨c, opened⟩ := inside
    obtain rfl : opened = child :: d.opened := hchild
    rcases hclose with rfl | ⟨-, rfl⟩
    · rw [apply, close_cons]
      exact sameOpen_attach ⟨c, d.opened⟩ child
    · exact .refl _

/-- Behind what is in a subgraph it is still the innermost open one, above those at its head. -/
theorem Balanced.exists_child {dropped : Bool} {body : List Event} (h : Balanced dropped body) (d : Draft)
    (head : Subgraph) : ∃ chart child, d.applyAll (.enter head :: body) = ⟨chart, child :: d.opened⟩ ∧
      child.heading = head.heading := by
  obtain ⟨child, hchild, hheading⟩ := (h.sameOpen (d.apply (.enter head))).exists_cons
  exact ⟨_, child, by rw [applyAll_cons, ← hchild], hheading⟩

namespace Grammar
variable {s : Stream}

/-- Whether a rule writes in balance; a subgraph is dropped only where the rule overflows. -/
abbrev Balances (s : Stream) {α : Type} (r : Rule Event α) : Prop :=
  Obeys s (fun spilt _ es _ => Balanced spilt es) r

theorem subgraphHead_events (ts : List Token) : (subgraphHead s ts).events = [] := by
  have hsilent : Writes (fun _ => False) _ subgraphHead := writes_subgraphHead
  exact List.eq_nil_iff_forall_not_mem.mpr (hsilent.events s ts)

/-- The ways in which a subgraph is read, and what it replies. -/
inductive SubgraphReads (s : Stream) (inner : Option (Rule Event Unit)) (ts : List Token) :
    Reply Event Unit → Prop
  | headless {m : Expectation} {rest : List Token} (hh : subgraphHead s ts = ⟨[], .failed m, rest⟩) :
      SubgraphReads s inner ts ⟨[], .failed m, rest⟩
  | tooDeep {head : Subgraph} {rest : List Token} (hh : subgraphHead s ts = ⟨[], .done head, rest⟩)
      (hinner : inner = none) : SubgraphReads s inner ts ⟨[], .tooDeep, rest⟩
  | abandoned {statement : Rule Event Unit} {head : Subgraph} {rest left : List Token} {body : List Event}
      (hinner : inner = some statement) (hh : subgraphHead s ts = ⟨[], .done head, rest⟩)
      (hb : block statement (some .endSubgraph) s rest = ⟨body, .tooDeep, left⟩) :
      SubgraphReads s inner ts ⟨.enter head :: (body ++ [.abandon]), .tooDeep, left⟩
  | closed {statement : Rule Event Unit} {head : Subgraph} {t : Token} {rest left : List Token}
      {body : List Event} (hinner : inner = some statement)
      (hh : subgraphHead s ts = ⟨[], .done head, rest⟩)
      (hb : block statement (some .endSubgraph) s rest = ⟨body, .done (), t :: left⟩)
      (ht : t.kind = .endSubgraph) :
      SubgraphReads s inner ts ⟨.enter head :: (body ++ [.leave]), .done (), left⟩
  | unclosed {statement : Rule Event Unit} {head : Subgraph} {rest left : List Token} {body : List Event}
      (hinner : inner = some statement) (hh : subgraphHead s ts = ⟨[], .done head, rest⟩)
      (hb : block statement (some .endSubgraph) s rest = ⟨body, .done (), left⟩)
      (hend : left.head?.map (·.kind) ≠ some .endSubgraph) :
      SubgraphReads s inner ts ⟨.enter head :: (body ++ [.leave]), .failed .subgraphEnd, left⟩

theorem subgraph_reads (inner : Option (Rule Event Unit)) (ts : List Token) :
    SubgraphReads s inner ts (subgraph inner s ts) := by
  have hevents := subgraphHead_events (s := s) ts
  have hover : (subgraphHead s ts).outcome = .tooDeep → False := takes_subgraphHead.overflow s ts
  rw [subgraph, bind_run]
  rcases hh : subgraphHead s ts with ⟨es, o, rest⟩
  rw [hh] at hevents hover
  obtain rfl : es = [] := hevents
  cases o with
  | failed m => exact .headless hh
  | tooDeep => exact (hover rfl).elim
  | done head =>
    cases inner with
    | none => exact .tooDeep hh rfl
    | some statement =>
      have hfault : ∀ m, (block statement (some .endSubgraph) s rest).outcome ≠ .failed m :=
        block_outcome
      simp only [Reply.follow_done, Reply.after_nil, bind_run, emit_run]
      rcases hb : block statement (some .endSubgraph) s rest with ⟨body, o, left⟩
      rw [hb] at hfault
      cases o with
      | failed m => exact absurd rfl (hfault m)
      | tooDeep =>
        rw [onOverflow_of_tooDeep hb]
        exact .abandoned rfl hh hb
      | done _ =>
        rw [onOverflow_of_ne (by simp [hb]), hb]
        by_cases hend : left.head?.map (·.kind) = some .endSubgraph
        · cases left with
          | nil => cases hend
          | cons t left =>
            rw [Reply.follow_done, expect_cons (Option.some.inj hend)]
            exact .closed rfl hh hb (Option.some.inj hend)
        · rw [Reply.follow_done, expect_of_ne hend]
          exact .unclosed rfl hh hb hend

/-- What is in a subgraph is written in balance where its statements are. -/
theorem balanced_block {inner : Option (Rule Event Unit)}
    (h : ∀ statement ∈ inner, Steady True statement ∧ Balances s statement) {statement : Rule Event Unit}
    (hinner : inner = some statement) {ts rest left : List Token} {head : Subgraph} {body : List Event}
    {o : Outcome Unit} (hts : ts <:+ s.tokens) (hh : subgraphHead s ts = ⟨[], .done head, rest⟩)
    (hb : block statement (some .endSubgraph) s rest = ⟨body, o, left⟩) : Balanced o.overflows body := by
  have htakes : Takes True subgraphHead := takes_subgraphHead
  have hrest := htakes.rest s ts
  rw [hh] at hrest
  obtain ⟨hsteady, hbalances⟩ := h statement hinner
  have hblock := Balanced.composes.block (fun _ => rfl) hsteady hbalances (some .endSubgraph) rest
    (hrest.trans hts)
  rw [hb] at hblock
  exact hblock

theorem balances_subgraph {inner : Option (Rule Event Unit)}
    (h : ∀ statement ∈ inner, Steady True statement ∧ Balances s statement) :
    Balances s (subgraph inner) := by
  intro ts hts
  have hreads := subgraph_reads (s := s) inner ts
  generalize subgraph inner s ts = r at hreads
  cases hreads with
  | headless hh | tooDeep hh _ => exact .nil
  | abandoned hinner hh hb => exact .nest (balanced_block h hinner hts hh hb) (.inr ⟨rfl, rfl⟩) .nil
  | closed hinner hh hb _ | unclosed hinner hh hb _ =>
    have hbody := balanced_block h hinner hts hh hb
    exact .nest hbody (.inl rfl) .nil

theorem level_nodeOrEdge : Writes (fun e => e.nests = false) (fun _ => True) nodeOrEdge :=
  writes_nodeOrEdge (fun _ _ => rfl) (fun _ _ _ _ => rfl) fun _ _ => rfl

theorem balances_statement (depth : Nat) : Balances s (statement depth) :=
  obeys_statement Balanced.composes (fun _ => rfl) (obeys_classAssignment Balanced.composes fun _ _ _ => rfl)
    ((Balanced.composes.silent takes_nodeOrEdge.toSteady level_nodeOrEdge).at _)
    (fun _ h => (balances_subgraph h).at _) depth

theorem balances_document (depth : Nat) : Balances s (document depth) :=
  obeys_document Balanced.composes (fun _ => rfl) (obeys_classAssignment Balanced.composes fun _ _ _ => rfl)
    ((Balanced.composes.silent takes_nodeOrEdge.toSteady level_nodeOrEdge).at _)
    (fun _ h => (balances_subgraph h).at _) (fun _ => rfl) (fun _ => rfl) (fun _ => rfl) depth

/-- A subgraph whose head replies with `head` leaves those open that were open in the draft, whatever its
reply. It is a child of the innermost one besides, if there is one, unless its head fails or it overflows. -/
structure KeepsOpened (d : Draft) (head : Outcome Subgraph) (r : Reply Event Unit) : Prop where
  attached : ∀ h, head = .done h → r.outcome ≠ .tooDeep →
    ∃ child, child.heading = h.heading ∧ (d.applyAll r.events).opened = (d.attach child).opened
  kept : (r.outcome = .tooDeep ∨ ∀ h, head ≠ .done h) → (d.applyAll r.events).opened = d.opened

theorem keepsOpened_subgraph {inner : Option (Rule Event Unit)}
    (h : ∀ statement ∈ inner, Steady True statement ∧ Balances s statement) (d : Draft) {ts : List Token}
    (hts : ts <:+ s.tokens) :
    KeepsOpened d (subgraphHead s ts).outcome (subgraph inner s ts) := by
  have hclosed : ∀ {statement : Rule Event Unit} {head : Subgraph} {rest left : List Token}
      {body : List Event} {o o' : Outcome Unit}, o' ≠ .tooDeep → inner = some statement →
      subgraphHead s ts = ⟨[], .done head, rest⟩ →
      block statement (some .endSubgraph) s rest = ⟨body, o, left⟩ → ∀ us,
        KeepsOpened d (subgraphHead s ts).outcome ⟨.enter head :: (body ++ [.leave]), o', us⟩ := by
    intro statement head rest left body o o' ho hinner hh hb us
    obtain ⟨c, child, hdraft, hheading⟩ := (balanced_block h hinner hts hh hb).exists_child d head
    rw [hh]
    refine ⟨fun h hhead _ => ⟨child, ?_, ?_⟩, fun hfault => ?_⟩
    · obtain rfl := Outcome.done.inj hhead
      exact hheading
    · rw [← List.cons_append, applyAll_append, hdraft]
      exact d.opened_leave c child
    · exact absurd rfl (hfault.resolve_left ho head)
  have hreads := subgraph_reads (s := s) inner ts
  generalize subgraph inner s ts = r at hreads
  cases hreads with
  | headless hh =>
    rw [hh]
    exact ⟨fun _ hhead => (by cases hhead), fun _ => rfl⟩
  | tooDeep hh _ => exact ⟨fun _ _ hdeep => absurd rfl hdeep, fun _ => rfl⟩
  | @abandoned _ head _ _ body hinner hh hb =>
    obtain ⟨c, child, hdraft, -⟩ := (balanced_block h hinner hts hh hb).exists_child d head
    refine ⟨fun _ _ hdeep => absurd rfl hdeep, fun _ => ?_⟩
    rw [← List.cons_append, applyAll_append, hdraft]
    rfl
  | closed hinner hh hb _ => exact hclosed (by simp) hinner hh hb _
  | unclosed hinner hh hb _ => exact hclosed (by simp) hinner hh hb _

end Grammar
end Flowchart
end Mermaid
