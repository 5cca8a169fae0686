import Mermaid.Proofs.Flowchart.Subgraphs

/-! How deep subgraphs are nested. A reading opens no more of them at a time than it may. -/
namespace Mermaid.Flowchart
open Rule Draft

/-- Events in balance that open at most `n` subgraphs at a time. -/
structure Shallow (n : Nat) (spilt : Bool) (es : List Event) : Prop where
  balanced : Balanced spilt es
  bounded : ∀ fs, fs <+: es → ∀ d : Draft, (d.applyAll fs).opened.length ≤ d.opened.length + n

namespace Shallow
variable {n : Nat} {spilt : Bool} {es fs body : List Event}

theorem of_level (h : ∀ e ∈ es, e.nests = false) : Shallow n spilt es where
  balanced := .of_level h
  bounded fs hfs d := by
    rw [length_opened (fun e he => h e (hfs.subset he))]
    exact Nat.le_add_right _ _

theorem mono (h : Shallow n false es) : Shallow n spilt es := ⟨h.balanced.mono, h.bounded⟩

theorem append (h : Shallow n spilt es) (h' : Shallow n spilt fs) : Shallow n spilt (es ++ fs) where
  balanced := h.balanced.append h'.balanced
  bounded gs hgs d := by
    obtain ⟨behind, hbehind⟩ := hgs
    rcases List.append_eq_append_iff.mp hbehind with ⟨more, hmore, -⟩ | ⟨more, rfl, hmore⟩
    · exact h.bounded gs ⟨more, hmore.symm⟩ d
    · have hlength : (d.applyAll es).opened.length = d.opened.length := by
        simpa using congrArg List.length (h.balanced.sameOpen d).2
      rw [applyAll_append, ← hlength]
      exact h'.bounded more ⟨behind, hmore.symm⟩ _

theorem composes (n : Nat) :
    Composes (fun e : Event => e.nests = false) (fun spilt _ es _ => Shallow n spilt es) where
  of_idle _ h := of_level h
  mono := mono
  append := append

/-- A subgraph is one deeper than what is in it. -/
theorem nest {head : Subgraph} {close : Event} (h : Shallow n spilt body)
    (hclose : close = .leave ∨ spilt ∧ close = .abandon) :
    Shallow (n + 1) spilt (.enter head :: (body ++ [close])) := by
  have hbalanced : Balanced spilt (.enter head :: (body ++ [close])) := .nest h.balanced hclose .nil
  refine ⟨hbalanced, fun fs hfs d => ?_⟩
  rcases List.prefix_cons_iff.mp hfs with rfl | ⟨inside, rfl, hinside⟩
  · exact Nat.le_add_right _ _
  · rcases List.prefix_concat_iff.mp hinside with rfl | hinside
    · have hlength := congrArg List.length (hbalanced.sameOpen d).2
      rw [List.length_map, List.length_map] at hlength
      omega
    · have hbound := h.bounded inside hinside (d.apply (.enter head))
      have hopened : (d.apply (.enter head)).opened.length = d.opened.length + 1 := rfl
      rw [applyAll_cons]
      omega

theorem weaken {m : Nat} (h : Shallow n spilt es) (hn : n ≤ m) : Shallow m spilt es :=
  ⟨h.balanced, fun fs hfs d => (h.bounded fs hfs d).trans (Nat.add_le_add_left hn _)⟩

/-- A subgraph, and what follows it. -/
theorem nest_append {head : Subgraph} {m : Nat} (h : Shallow n false body) (hn : n + 1 ≤ m)
    (hmore : Shallow m false es) : Shallow m false (.enter head :: (body ++ .leave :: es)) := by
  have hnest : Shallow (n + 1) false (.enter head :: (body ++ [.leave])) := h.nest (.inl rfl)
  simpa using (hnest.weaken hn).append hmore

end Shallow

namespace Grammar
variable {s : Stream}

abbrev Shallows (s : Stream) (n : Nat) {α : Type} (r : Rule Event α) : Prop :=
  Obeys s (fun spilt _ es _ => Shallow n spilt es) r

theorem shallows_statement (depth : Nat) : Shallows s depth (statement depth) := by
  have hnode (n : Nat) : ObeysAt s (fun spilt _ es _ => Shallow n spilt es) .identifier nodeOrEdge :=
    ((Shallow.composes n).silent takes_nodeOrEdge.toSteady level_nodeOrEdge).at _
  induction depth with
  | zero =>
    refine obeys_statementOver (Shallow.composes 0) (fun _ => rfl)
      (obeys_classAssignment (Shallow.composes 0) fun _ _ _ => rfl) (hnode 0)
      fun t ts _ _ => ?_
    have hreads := subgraph_reads (s := s) none (t :: ts)
    generalize subgraph none s (t :: ts) = r at hreads
    cases hreads with
    | headless | tooDeep => exact .of_level (List.forall_mem_nil _)
    | abandoned hinner | closed hinner | unclosed hinner => cases hinner
  | succ depth ih =>
    refine obeys_statementOver (Shallow.composes _) (fun _ => rfl)
      (obeys_classAssignment (Shallow.composes _) fun _ _ _ => rfl) (hnode _)
      fun t ts hts _ => ?_
    have htakes : Takes True subgraphHead := takes_subgraphHead
    have hhead := htakes.rest s (t :: ts)
    have hblock := (Shallow.composes depth).block (fun _ => rfl) (takes_statement depth).toSteady ih
      (some .endSubgraph)
    have hreads := subgraph_reads (s := s) (some (statement depth)) (t :: ts)
    generalize subgraph (some (statement depth)) s (t :: ts) = r at hreads
    cases hreads with
    | headless | tooDeep => exact .of_level (List.forall_mem_nil _)
    | abandoned hinner hh hb =>
      cases hinner
      rw [hh] at hhead
      have hbody := hblock _ (hhead.trans hts)
      rw [hb] at hbody
      exact hbody.nest (.inr ⟨rfl, rfl⟩)
    | closed hinner hh hb _ | unclosed hinner hh hb _ =>
      cases hinner
      rw [hh] at hhead
      have hbody := hblock _ (hhead.trans hts)
      rw [hb] at hbody
      exact hbody.nest (.inl rfl)

/-- A text opens no more subgraphs at a time than it may. -/
theorem shallows_document (depth : Nat) : Shallows s depth (document depth) :=
  (Shallow.composes depth).bind steady_header
    ((Shallow.composes depth).silent steady_header (writes_header (fun _ => rfl) fun _ => rfl)) fun _ =>
      (Shallow.composes depth).block (fun _ => rfl) (takes_statement depth).toSteady
        (shallows_statement depth) none

theorem length_opened_le {depth : Nat} {events : List Event}
    (h : events <+: (document depth s s.tokens).events) :
    (start.applyAll events).opened.length ≤ depth := by
  have hbound := (shallows_document depth s.tokens s.tokens.suffix_refl).bounded events h start
  rwa [show start.opened.length = 0 from rfl, Nat.zero_add] at hbound

end Grammar

end Mermaid.Flowchart
