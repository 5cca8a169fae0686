import Mermaid.Proofs.Flowchart.Preorder

/-! The walk through the subgraphs of a chart, round by round. It keeps a stack with the next subgraph at
the end, and puts children there in reverse, so that the first of them comes off first. The subgraphs
come off in their recursive order, and the stack is empty after as many rounds as there are subgraphs. -/
namespace Mermaid
namespace Subgraph

/-- Takes a subgraph off the end of a stack and puts its children there, the last one first. -/
def pop? (stack : List Subgraph) : Option (Subgraph × List Subgraph) :=
  stack.getLast?.map fun s => (s, stack.dropLast ++ s.children.reverse)

/-- What comes off a stack in `n` rounds, and the stack after them. An empty stack stays as it is. -/
def walk : Nat → List Subgraph → List Subgraph × List Subgraph
  | 0, stack => ([], stack)
  | n + 1, stack =>
    match pop? stack with
    | none => ([], stack)
    | some (s, left) => (s :: (walk n left).1, (walk n left).2)

/-- Seen from its end, a stack has the children of a subgraph in the place of the subgraph. -/
theorem pop?_reverse_cons (s : Subgraph) (below : List Subgraph) :
    pop? (s :: below).reverse = some (s, (s.children ++ below).reverse) := by
  simp [pop?]

/-- Whatever is on a stack, what has come off it and what is still to come make up its recursive order. -/
theorem walk_reverse (n : Nat) (stack : List Subgraph) : ∃ left,
    walk n stack.reverse = ((preorderAll stack).take n, left.reverse) ∧
    preorderAll left = (preorderAll stack).drop n := by
  induction n generalizing stack with
  | zero => exact ⟨stack, rfl, rfl⟩
  | succ n ih =>
    cases stack with
    | nil => exact ⟨[], rfl, rfl⟩
    | cons s below =>
      obtain ⟨left, hwalk, hleft⟩ := ih (s.children ++ below)
      refine ⟨left, ?_, ?_⟩
      · rw [walk, pop?_reverse_cons, preorderAll_cons, List.take_succ_cons]
        simp only [hwalk]
      · rw [preorderAll_cons, List.drop_succ_cons, hleft]

/-- The subgraphs in a list in their order, each with its place: the list of indices that goes down to
it. The first one in the list has the index `i`. -/
def placedFrom (i : Nat) : List Subgraph → List (List Nat × Subgraph)
  | [] => []
  | s :: rest =>
    ([i], s) :: ((placedFrom 0 s.children).map (fun (path, t) => (i :: path, t)) ++
      placedFrom (i + 1) rest)
  termination_by ss => countAll ss
  decreasing_by all_goals simp only [countAll, count_eq]; omega

theorem map_snd_placedFrom (i : Nat) (ss : List Subgraph) :
    (placedFrom i ss).map Prod.snd = preorderAll ss := by
  induction i, ss using placedFrom.induct with
  | case1 => rw [placedFrom, preorderAll, List.map_nil]
  | case2 i s rest ihchildren ihrest =>
    simp [placedFrom, preorderAll_cons, preorderAll_append, ← ihchildren, ← ihrest]

/-- Just the places that can be reached are there, each with what is reached. -/
theorem mem_placedFrom {i : Nat} {ss : List Subgraph} {p : List Nat} {s : Subgraph} :
    (p, s) ∈ placedFrom i ss ↔
      ∃ j path, p = (i + j) :: path ∧ ss[j]?.bind (·.at? path) = some s := by
  induction i, ss using placedFrom.induct generalizing p with
  | case1 => simp [placedFrom]
  | case2 i t rest ihchildren ihrest =>
    simp only [placedFrom, List.mem_cons, List.mem_append, List.mem_map, Prod.mk.injEq]
    constructor
    · rintro (⟨rfl, rfl⟩ | ⟨⟨path, u⟩, hchild, rfl, rfl⟩ | hrest)
      · exact ⟨0, [], rfl, rfl⟩
      · obtain ⟨j, inner, rfl, hreach⟩ := ihchildren.mp hchild
        exact ⟨0, (0 + j) :: inner, rfl, by simpa [at?] using hreach⟩
      · obtain ⟨j, path, rfl, hreach⟩ := ihrest.mp hrest
        exact ⟨j + 1, path, by rw [Nat.add_right_comm, Nat.add_assoc], hreach⟩
    · rintro ⟨_ | j, path, rfl, hreach⟩
      · cases path with
        | nil => exact .inl ⟨rfl, (Option.some.inj hreach).symm⟩
        | cons j inner =>
          exact .inr (.inl ⟨(j :: inner, s), ihchildren.mpr ⟨j, inner, by simp, hreach⟩, rfl, rfl⟩)
      · exact .inr (.inr (ihrest.mpr ⟨j, path, by rw [Nat.add_right_comm, Nat.add_assoc], hreach⟩))

/-- No place comes behind one that is below it, and none comes twice. -/
theorem pairwise_placedFrom (i : Nat) (ss : List Subgraph) :
    (placedFrom i ss).Pairwise fun a b => ¬ b.1 <+: a.1 := by
  induction i, ss using placedFrom.induct with
  | case1 => rw [placedFrom]; exact .nil
  | case2 i s rest ihchildren ihrest =>
    -- The first index alone keeps the places beside the first subgraph apart from all those in it.
    have hrest : ∀ b ∈ placedFrom (i + 1) rest, ∀ path, ¬ b.1 <+: i :: path := by
      rintro ⟨p, t⟩ hb path hprefix
      obtain ⟨j, inner, rfl, -⟩ := mem_placedFrom.mp hb
      have hindex := (List.cons_prefix_cons.mp hprefix).1
      omega
    rw [placedFrom, List.pairwise_cons, List.forall_mem_append, List.forall_mem_map,
      List.pairwise_append, List.pairwise_map, List.forall_mem_map]
    refine ⟨⟨?_, fun b hb => hrest b hb []⟩, ?_, ihrest, fun a _ b hb => hrest b hb a.1⟩
    · rintro ⟨p, t⟩ hchild hprefix
      obtain ⟨j, inner, rfl, -⟩ := mem_placedFrom.mp hchild
      simp at hprefix
    · exact ihchildren.imp fun hbelow hprefix => hbelow (List.cons_prefix_cons.mp hprefix).2

end Subgraph

namespace Flowchart

theorem mem_placed {c : Flowchart} {p : List Nat} {s : Subgraph} :
    (p, s) ∈ Subgraph.placedFrom 0 c.subgraphs ↔ c.subgraphAt? p = some s := by
  rw [Subgraph.mem_placedFrom]
  cases p with
  | nil => simp [subgraphAt?]
  | cons i path => simp [subgraphAt?, and_assoc]

/-- The subgraphs of a chart are gone through in their recursive order: each one, then those in it, then
the next one beside it. A stack, which begins with the subgraphs at the top level in reverse, gives
that order one by one, and is empty as soon as there have been as many rounds as there are subgraphs.
So each place in the chart has its turn just once, and before all places below it. -/
theorem subgraphs_unfold (c : Flowchart) :
    let order := Subgraph.preorderAll c.subgraphs
    c.allSubgraphs = order ∧ order.length = Subgraph.countAll c.subgraphs ∧
    (∀ n, ∃ left, Subgraph.walk n c.subgraphs.reverse = (order.take n, left) ∧
      (left = [] ↔ Subgraph.countAll c.subgraphs ≤ n)) ∧
    ∃ placed : List (List Nat × Subgraph), placed.map Prod.snd = order ∧
      (∀ p s, (p, s) ∈ placed ↔ c.subgraphAt? p = some s) ∧
      placed.Pairwise fun a b => ¬ b.1 <+: a.1 := by
  intro order
  have hlength : order.length = Subgraph.countAll c.subgraphs := Subgraph.length_preorderAll _
  refine ⟨Subgraph.unfold_eq_preorderAll _, hlength, fun n => ?_, Subgraph.placedFrom 0 c.subgraphs,
    Subgraph.map_snd_placedFrom 0 _, fun p s => mem_placed, Subgraph.pairwise_placedFrom 0 _⟩
  obtain ⟨left, hwalk, hleft⟩ := Subgraph.walk_reverse n c.subgraphs
  refine ⟨left.reverse, hwalk, ?_⟩
  rw [List.reverse_eq_nil_iff, ← Subgraph.preorderAll_eq_nil, hleft, List.drop_eq_nil_iff, hlength]

end Flowchart
end Mermaid
