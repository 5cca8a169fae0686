import Mermaid.Proofs.ClassDiagram.Missing
import Mermaid.Proofs.Flowchart.Balance
import Mermaid.Proofs.Flowchart.BareLink
import Mermaid.Proofs.Flowchart.Curtailing
import Mermaid.Proofs.Grammar.Tracing

/-! Statements that fail. A statement writes its events where nothing in it can fail any more, so a
fault leaves nothing half made in the diagram. A chain of links writes link by link, and a fault in
one link leaves what the links before it say. -/
namespace Mermaid

namespace Rule
variable {ε α β δ : Type} {fault : Expectation → Prop} {rule : Rule ε α} {next : α → Rule ε β}

/-- Where the rule fails with such a fault, the diagram into which its events are drawn stays as it
was. -/
def Atomic (draw : δ → List ε → δ) (fault : Expectation → Prop) (r : Rule ε α) : Prop :=
  ∀ s ts m, (r s ts).outcome = .failed m → fault m → ∀ d, draw d (r s ts).events = d

/-- Writes nothing unless it is done. -/
abbrev Withholds (r : Rule ε α) : Prop := Reserves (fun _ => False) r

theorem Withholds.events_eq_nil (h : Withholds rule) {s : Stream} {ts : List Token} {m : Expectation}
    (hm : (rule s ts).outcome = .failed m) : (rule s ts).events = [] :=
  List.eq_nil_iff_forall_not_mem.mpr (h s ts fun a ha => by rw [hm] at ha; cases ha)

section atomic
variable {draw : δ → List ε → δ} (hdraw : ∀ d, draw d [] = d)
include hdraw

theorem Withholds.atomic (h : Withholds rule) : Atomic draw fault rule := by
  intro s ts m hm _ d
  rw [h.events_eq_nil hm, hdraw]

omit hdraw in
theorem Atomic.of_misses (h : Misses (fun m => ¬ fault m) rule) : Atomic draw fault rule :=
  fun s ts m hm hfault => absurd hfault (h s ts m hm)

/-- A rule that writes nothing can stand before one that is atomic. -/
theorem Atomic.bind {Q : α → Prop} (h : Writes (fun _ => False) Q rule)
    (hn : ∀ a, Atomic draw fault (next a)) : Atomic draw fault (rule >>= next) := by
  intro s ts m hm hfault d
  have hevents := h.events s ts
  rw [bind_run] at hm ⊢
  rcases hr : rule s ts with ⟨es, o, rest⟩
  rw [hr] at hm hevents
  obtain rfl : es = [] := List.eq_nil_iff_forall_not_mem.mpr hevents
  cases o with
  | done a => exact hn a s rest m hm hfault d
  | failed | tooDeep => exact hdraw d

end atomic

end Rule

open Rule

namespace Flowchart.Grammar
variable {s : Stream} {source target : String} {ts us rest : List Token} {m : Expectation}

theorem withholds_node (id : Token) : Withholds (node id) := by
  intro s ts hfault e he
  have hreads := node_reads s id ts
  revert hfault he hreads
  generalize node id s ts = r
  intro hfault he hreads
  cases hreads with
  | mention _ | define _ _ _ _ => exact absurd rfl (hfault _)
  | unclosed _ _ _ => cases he

theorem withholds_link (source : String) : Withholds (link source) := by
  refine .bind .advance fun t _ => ?_
  cases arrow? t.kind with
  | none => exact .of_sure fun _ _ => ⟨_, rfl⟩
  | some arrow =>
    refine .bind writes_edgeLabel fun _ _ => .bind (.expect _ _) fun id _ => ?_
    exact .bind_sure (withholds_node id) fun _ _ _ => ⟨_, rfl⟩

theorem withholds_nodeStyle : Withholds nodeStyle :=
  .bind .advance fun _ _ => .bind (.expect _ _) fun _ _ => .of_sure fun _ _ => ⟨_, rfl⟩

theorem withholds_styleClass : Withholds styleClass :=
  .bind .advance fun _ _ => .bind (.expect _ _) fun _ _ => .of_sure fun _ _ => ⟨_, rfl⟩

/-- The nodes of an assignment get their class when its name has been read. -/
theorem withholds_classAssignment : Withholds classAssignment := by
  have hids : ∀ ids, Writes (fun _ => False) (fun _ => True)
      (iterate (·.kind == .comma) furtherId ids) := fun ids =>
    .iterate (fun _ _ => .bind .advance fun _ _ => .bind (.expect _ _) fun _ _ => .pure trivial) trivial
  exact .bind .advance fun _ _ => .bind (.expect _ _) fun _ _ => .bind (hids _) fun _ _ =>
    .bind (.expect _ _) fun _ _ => .of_sure fun _ _ => ⟨_, rfl⟩

/-- Behind the head of a subgraph only its end can be missing. -/
theorem atomic_subgraph (inner : Option (Rule Event Unit)) :
    Atomic Draft.applyAll (· ≠ .subgraphEnd) (subgraph inner) := by
  intro s ts m hm hend d
  have hreads := subgraph_reads (s := s) inner ts
  generalize subgraph inner s ts = r at hm hreads
  cases hreads with
  | headless _ => rfl
  | tooDeep _ _ | abandoned _ _ _ | closed _ _ _ _ => cases hm
  | unclosed _ _ _ _ =>
    cases hm
    exact absurd rfl hend

/-- A fault in the head of a subgraph is all there is of it. -/
theorem subgraph_headless (inner : Option (Rule Event Unit))
    (hm : (subgraphHead s ts).outcome = .failed m) :
    subgraph inner s ts = ⟨[], .failed m, (subgraphHead s ts).rest⟩ := by
  rw [subgraph, bind_run, Reply.follow]
  simp only [hm, subgraphHead_events]

section chain

theorem arrow_kinds {k : TokenKind} (h : (arrow? k).isSome) :
    k ≠ .newline ∧ k ≠ .solidLink ∧ shape? k = none := by
  revert h
  cases k <;> decide

theorem Linked.suffix {k : Nat} {es : List Event} (h : Linked s k source ts es target rest) :
    rest <:+ ts := by
  induction h with
  | none => exact List.suffix_refl _
  | @link k source next target t ts us rest es fs _ h _ ih =>
    have htakes : Takes True (Grammar.link source) := takes_link source
    have htaken := htakes.taken s t ts
    rw [h] at htaken
    exact (ih.trans htaken).trans (ts.suffix_cons t)

/-- A chain of links is read the same where the text ends before the arrow behind it. -/
theorem Linked.curtail {k : Nat} {before after : List Token} {arrow : Token} {es : List Event}
    (harrow : (arrow? arrow.kind).isSome)
    (h : Linked s k source (before ++ arrow :: after) es target (arrow :: after)) (p : Stream) :
    links source p before = ⟨es, .done target, []⟩ := by
  generalize hts : before ++ arrow :: after = ts at h
  generalize hrest : arrow :: after = rest at h
  induction h generalizing before with
  | none =>
    obtain rfl : before = [] := by simpa using hts.trans hrest.symm
    exact iterate_nil _
  | @link k source next target t ts us rest es fs ht hlink more ih =>
    subst hrest
    have htakes : Takes True (Grammar.link source) := takes_link source
    have hus := htakes.taken s t ts
    rw [hlink] at hus
    obtain ⟨left, hleft⟩ := more.suffix
    cases before with
    | nil =>
      obtain ⟨rfl, rfl⟩ := List.cons.inj hts
      exact absurd (more.suffix.trans hus) (@not_suffix_of_left _ _ [])
    | cons u before =>
      obtain ⟨rfl, rfl⟩ := List.cons.inj hts
      obtain ⟨hline, -, hshape⟩ := arrow_kinds harrow
      have hcurtails : Curtails s p arrow after (Grammar.link source) := curtails_link hline hshape source
      rw [← hleft] at hlink
      have hrun : Grammar.link source p (u :: before) = ⟨es, .done next, left⟩ := hcurtails.run hlink
      have htaken := (htakes.taken p u before).length_le
      rw [hrun] at htaken
      rw [links, iterate_cons ht hrun htaken, ← links, ih hleft rfl, Reply.after_mk]

/-- A chain that fails does so in one of its links. The links before it are what it has written. -/
theorem exists_linked (hm : (links source s ts).outcome = .failed m) :
    ∃ k target arrow after, (arrow? arrow.kind).isSome ∧
      Linked s k source ts (links source s ts).events target (arrow :: after) ∧
        (link target s (arrow :: after)).outcome = .failed m := by
  revert hm
  apply iterate_induction (P := fun source ts r => r.outcome = .failed m → ∃ k target arrow after,
    (arrow? arrow.kind).isSome ∧ Linked s k source ts r.events target (arrow :: after) ∧
      (link target s (arrow :: after)).outcome = .failed m)
  · exact fun _ _ _ hm => nomatch hm
  · intro source t ts ht _ hm
    refine ⟨0, source, t, ts, ht, ?_, hm⟩
    rw [(withholds_link source).events_eq_nil hm]
    exact .none
  · intro source t ts es next rest ht hlink _ ih hm
    obtain ⟨k, target, arrow, after, harrow, hlinked, hfault⟩ := ih hm
    exact ⟨k + 1, target, arrow, after, harrow, .link ht hlink hlinked, hfault⟩

/-- A node that no bare link follows is read on with the links from it. -/
theorem nodeOrEdge_links {id : Token} {es : List Event} (hnode : node id s us = ⟨es, .done source, ts⟩)
    (hbare : ∀ t ∈ ts.head?, t.kind ≠ .solidLink) : nodeOrEdge s (id :: us) =
      ((links source s ts).follow fun _ rest => ⟨[], .done (), rest⟩).after es := by
  have hkind : ts.head?.map (·.kind) ≠ some .solidLink := by
    simpa using fun t ht => hbare t ht
  simp only [nodeOrEdge, bind_run, advance_cons, hnode, nextKind_run, if_neg hkind, pure_run,
    Reply.follow_done, Reply.after_nil]

/-- A statement that fails at a link. What it has written is what the statement says that ends before
the arrow of this link. -/
theorem nodeOrEdge_failed {id : Token} {es : List Event} (hnode : node id s us = ⟨es, .done source, ts⟩)
    (hm : (links source s ts).outcome = .failed m) :
    (nodeOrEdge s (id :: us)).outcome = .failed m ∧ ∃ k fs target before arrow after,
      us = before ++ arrow :: after ∧ (arrow? arrow.kind).isSome ∧
      Linked s k source ts fs target (arrow :: after) ∧
      (link target s (arrow :: after)).outcome = .failed m ∧
      ∀ p, (nodeOrEdge p (id :: before)).outcome = .done () ∧
        (nodeOrEdge p (id :: before)).events = (nodeOrEdge s (id :: us)).events := by
  obtain ⟨k, target, arrow, after, harrow, hlinked, hfault⟩ := exists_linked hm
  obtain ⟨hline, hbare, hshape⟩ := arrow_kinds harrow
  obtain ⟨front, hfront⟩ := (steady_node id : Steady True (node id)).rest s us
  obtain ⟨left, hleft⟩ := hlinked.suffix
  rw [hnode] at hfront
  subst hleft hfront
  -- A bare link would have ended the chain at once.
  have hhead : ∀ t ∈ (left ++ arrow :: after).head?, t.kind ≠ .solidLink := by
    intro t ht hkind
    have hstop : links source s (left ++ arrow :: after) = ⟨[], .done source, left ++ arrow :: after⟩ :=
      iterate_of_head (fun u hu => by rw [Option.mem_unique hu ht, hkind]; rfl) source
    rw [hstop] at hm
    cases hm
  have hhead' : ∀ t ∈ left.head?, t.kind ≠ .solidLink := by
    intro t ht
    exact hhead t (by rw [List.head?_append, Option.mem_def.mp ht]; rfl)
  have hrun : nodeOrEdge s (id :: (front ++ (left ++ arrow :: after))) =
      ⟨es ++ (links source s (left ++ arrow :: after)).events, .failed m,
        (links source s (left ++ arrow :: after)).rest⟩ := by
    rw [nodeOrEdge_links hnode hhead, Reply.follow, hm]
    rfl
  refine ⟨by rw [hrun], k, _, target, front ++ left, arrow, after, by simp, harrow, hlinked, hfault,
    fun p => ?_⟩
  have hcurtails : Curtails s p arrow after (node id) := curtails_node hline hshape id
  have hnode' : node id p (front ++ left) = ⟨es, .done source, left⟩ :=
    hcurtails.run (by rw [List.append_assoc, hnode])
  rw [hrun, nodeOrEdge_links hnode' hhead', hlinked.curtail harrow p]
  exact ⟨rfl, by simp⟩

end chain

end Flowchart.Grammar

namespace ClassDiagram.Grammar

theorem withholds_stereotype : Withholds stereotype :=
  .bind .advance fun _ _ => .bind (.take _) fun _ _ => .bind (.expect _ _) fun _ _ =>
    .of_sure fun _ _ => ⟨_, rfl⟩

/-- Behind the head of a declaration only its closing brace can be missing. -/
theorem atomic_declaration : Atomic applyAll (· ≠ .classEnd) declaration := by
  refine .bind (fun _ => rfl) .advance fun _ => .bind (fun _ => rfl) (.expect _ _) fun name =>
    .of_misses ?_
  refine .bind (.emit _) fun _ => .bind .skipBlankLines fun _ => .bind (.of_sure (.accept _)) fun opened => ?_
  cases opened with
  | true => exact .bind (misses_body _) fun _ => .bind (.expect (by simp)) fun _ => .pure _
  | false => exact .pure _

end ClassDiagram.Grammar

section
open Flowchart Flowchart.Grammar

/-- A statement that fails leaves nothing half made. Assignments, styles, nodes and stereotypes leave
the diagram and the open subgraphs as they were, and so do subgraphs and declarations of classes where
their head has the fault. A chain fails at the link behind `k` others, and leaves exactly what the
statement gives that ends before the arrow of this link. -/
theorem atomic_statements :
    (∀ r ∈ [classAssignment, styleClass, nodeStyle],
      Atomic Draft.applyAll (fun _ => True) r) ∧
    (∀ id, Atomic Draft.applyAll (fun _ => True) (node id)) ∧
    (∀ inner, Atomic Draft.applyAll (· ≠ .subgraphEnd) (subgraph inner) ∧
      ∀ s ts m, (subgraphHead s ts).outcome = .failed m →
        (subgraph inner s ts).outcome = .failed m ∧
          ∀ d : Draft, d.applyAll (subgraph inner s ts).events = d) ∧
    (∀ s id us es source ts m, node id s us = ⟨es, .done source, ts⟩ →
      (links source s ts).outcome = .failed m →
      (nodeOrEdge s (id :: us)).outcome = .failed m ∧
      ∃ k fs target before arrow after, us = before ++ arrow :: after ∧
        (arrow? arrow.kind).isSome ∧
        Linked s k source ts fs target (arrow :: after) ∧
        (link target s (arrow :: after)).outcome = .failed m ∧
        ∀ (p : Stream) (d : Draft),
          (nodeOrEdge p (id :: before)).outcome = .done () ∧
          d.applyAll (nodeOrEdge s (id :: us)).events =
            d.applyAll (nodeOrEdge p (id :: before)).events) ∧
    Atomic ClassDiagram.applyAll (fun _ => True) ClassDiagram.Grammar.stereotype ∧
    Atomic ClassDiagram.applyAll (· ≠ .classEnd) ClassDiagram.Grammar.declaration ∧
    ∀ s t ts, ts.head?.map (·.kind) ≠ some .identifier →
      (ClassDiagram.Grammar.declaration s (t :: ts)).outcome = .failed .className ∧
        ∀ d : ClassDiagram, d.applyAll (ClassDiagram.Grammar.declaration s (t :: ts)).events = d := by
  have hdraft : ∀ d : Draft, d.applyAll [] = d := fun _ => rfl
  refine ⟨?_, fun id => (withholds_node id).atomic hdraft, fun inner =>
    ⟨atomic_subgraph inner, fun s ts m hm => by simp [subgraph_headless inner hm, hdraft]⟩,
    ?_, ClassDiagram.Grammar.withholds_stereotype.atomic fun _ => rfl,
    ClassDiagram.Grammar.atomic_declaration, ?_⟩
  · exact List.forall_mem_cons.mpr ⟨withholds_classAssignment.atomic hdraft,
      List.forall_mem_cons.mpr ⟨withholds_styleClass.atomic hdraft,
        List.forall_mem_singleton.mpr (withholds_nodeStyle.atomic hdraft)⟩⟩
  · intro s id us es source ts m hnode hm
    obtain ⟨hfailed, k, fs, target, before, arrow, after, hus, harrow, hlinked, hfault, hsame⟩ :=
      nodeOrEdge_failed hnode hm
    exact ⟨hfailed, k, fs, target, before, arrow, after, hus, harrow, hlinked, hfault,
      fun p d => ⟨(hsame p).1, by rw [(hsame p).2]⟩⟩
  · intro s t ts hname
    have hfailed : ClassDiagram.Grammar.declaration s (t :: ts) = ⟨[], .failed .className, ts⟩ := by
      rw [ClassDiagram.Grammar.declaration, bind_run, advance_cons, Reply.follow_done, bind_run,
        expect_of_ne hname]
      rfl
    rw [hfailed]
    exact ⟨rfl, fun _ => rfl⟩

/-- A chain whose second link has no target. -/
theorem atomic_statements_targetless :
    let s := Stream.ofText "A --> B -->\n"
    nodeOrEdge s s.tokens =
        ⟨[.mention "A" 1, .mention "B" 1, .link { source := "A", target := "B" }],
          .failed .linkTarget, s.tokens.drop 4⟩ ∧
      ∃ before arrow after, s.tokens = before ++ arrow :: after ∧ (arrow? arrow.kind).isSome ∧
        (nodeOrEdge s before).outcome = .done () ∧
        ∀ d : Draft, d.applyAll (nodeOrEdge s s.tokens).events = d.applyAll (nodeOrEdge s before).events := by
  intro s
  obtain ⟨-, -, -, hchain, -⟩ := atomic_statements
  have hsource : node ⟨.identifier, "A", ⟨1, 1⟩⟩ s (s.tokens.drop 1) =
    ⟨[.mention "A" 1], .done "A", s.tokens.drop 1⟩ := by decide +kernel
  have hlinks : (links "A" s (s.tokens.drop 1)).outcome = .failed .linkTarget := by decide +kernel
  obtain ⟨-, -, -, -, before, arrow, after, hsplit, harrow, -, -, hsame⟩ :=
    hchain s _ _ _ _ _ _ hsource hlinks
  have htokens : s.tokens = ⟨.identifier, "A", ⟨1, 1⟩⟩ :: s.tokens.drop 1 := by decide +kernel
  refine ⟨by decide +kernel, _ :: before, arrow, after, htokens.trans (congrArg _ hsplit), harrow,
    (hsame s .start).1, fun d => ?_⟩
  rw [htokens]
  exact (hsame s d).2

end

end Mermaid
