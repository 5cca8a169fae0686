import Mermaid.Flowchart.Basic

/-! The order in which subgraphs are gone through: each one before those in it, and those before the
next one beside it. A stack that is unfolded from its top keeps to that order. -/
namespace Mermaid.Subgraph

mutual
/-- A subgraph, then its children one after the other, each with all that is in it. -/
def preorder : Subgraph → List Subgraph
  | s@⟨_, _, _, _, _, children⟩ => s :: preorderAll children

def preorderAll : List Subgraph → List Subgraph
  | [] => []
  | s :: rest => s.preorder ++ preorderAll rest
end

theorem preorder_eq (s : Subgraph) : s.preorder = s :: preorderAll s.children := by
  cases s; rfl

theorem preorderAll_append (xs ys : List Subgraph) :
    preorderAll (xs ++ ys) = preorderAll xs ++ preorderAll ys := by
  induction xs with
  | nil => rfl
  | cons s xs ih => rw [List.cons_append, preorderAll, preorderAll, ih, List.append_assoc]

/-- What is in the first subgraph comes before what is beside it. -/
theorem preorderAll_cons (s : Subgraph) (rest : List Subgraph) :
    preorderAll (s :: rest) = s :: preorderAll (s.children ++ rest) := by
  rw [preorderAll, preorder_eq, preorderAll_append, List.cons_append]

theorem preorderAll_eq_nil {ss : List Subgraph} : preorderAll ss = [] ↔ ss = [] := by
  cases ss with
  | nil => simp [preorderAll]
  | cons s rest => simp [preorderAll_cons]

theorem length_preorderAll (ss : List Subgraph) : (preorderAll ss).length = countAll ss := by
  induction ss using unfold.induct with
  | case1 => rfl
  | case2 s rest ih =>
    rw [preorderAll_cons, List.length_cons, ih, countAll_append, countAll, count_eq]
    omega

/-- The children take the place of their parent on the stack, so what is in a subgraph comes before
what lay under it. -/
theorem unfold_eq_preorderAll (stack : List Subgraph) : unfold stack = preorderAll stack := by
  induction stack using unfold.induct with
  | case1 => rw [unfold, preorderAll]
  | case2 s stack ih => rw [unfold, ih, preorderAll_cons]

theorem unfold_append (xs ys : List Subgraph) : unfold (xs ++ ys) = unfold xs ++ unfold ys := by
  simp only [unfold_eq_preorderAll, preorderAll_append]

theorem length_unfold (stack : List Subgraph) : (unfold stack).length = countAll stack := by
  rw [unfold_eq_preorderAll, length_preorderAll]

/-- Right behind a subgraph comes all that is in it. -/
theorem preorderAll_behind {stack before behind : List Subgraph} {s : Subgraph}
    (h : preorderAll stack = before ++ s :: behind) :
    ∃ later, behind = preorderAll s.children ++ later := by
  induction stack using unfold.induct generalizing before with
  | case1 => exact absurd h.symm (List.append_ne_nil_of_right_ne_nil _ (List.cons_ne_nil _ _))
  | case2 t stack ih =>
    rw [preorderAll_cons] at h
    cases before with
    | nil =>
      obtain ⟨rfl, hbehind⟩ := List.cons.inj h
      exact ⟨preorderAll stack, by rw [← hbehind, preorderAll_append]⟩
    | cons u before => exact ih (List.cons.inj h).2

end Mermaid.Subgraph
