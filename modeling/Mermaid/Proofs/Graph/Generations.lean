import Mathlib.Logic.Function.Basic
import Mermaid.Proofs.Graph.Topological

/-! Vertices are placed as by counting: every vertex has the number of arcs to it that are left, and it
comes with the next generation as soon as that number falls to zero. -/
namespace Mermaid.Multigraph

variable {g : Multigraph} {placed : List String}

/-- How many arcs to each vertex are left, and the vertices of the next generation so far. -/
structure Countdown where
  left : String → Nat
  next : List String

namespace Countdown

/-- Takes away the arcs from `u` to `v`, all parallel ones at once. -/
def cut (g : Multigraph) (u : String) (k : Countdown) (v : String) : Countdown :=
  let left := k.left v - g.arcs.count (u, v)
  ⟨Function.update k.left v left, if left = 0 then k.next ++ [v] else k.next⟩

/-- Takes away the arcs from `u`. -/
def visit (g : Multigraph) (k : Countdown) (u : String) : Countdown :=
  (g.successors u).foldl (cut g u) k

end Countdown

/-- The vertices by generations, from the first one on; `bound` is how many can still come. -/
def generationsFrom (g : Multigraph) :
    (bound : Nat) → (left : String → Nat) → (generation : List String) → List (List String)
  | 0, _, _ | _, _, [] => []
  | bound + 1, left, u :: generation =>
    let k := (u :: generation).foldl (Countdown.visit g) ⟨left, []⟩
    (u :: generation) :: g.generationsFrom bound k.left k.next

/-- The vertices by generations: first those without an arc to them, and then those that have none
left without the generations before. -/
def generations (g : Multigraph) : List (List String) :=
  g.generationsFrom g.vertices.length g.inDegree (g.vertices.filter (g.inDegree · == 0))

/-- The arcs to each vertex that do not come from a placed one. -/
def Leaves (g : Multigraph) (placed : List String) (left : String → Nat) : Prop :=
  ∀ v, left v = g.arcs.countP fun arc => arc.2 == v && !placed.contains arc.1

theorem leaves_nil : g.Leaves [] g.inDegree := fun v => by simp [inDegree]

theorem count_arcs_eq_zero {u v : String} (h : ¬ g.Adj u v) : g.arcs.count (u, v) = 0 :=
  List.count_eq_zero.mpr h

namespace Leaves
variable {left : String → Nat} {u : String}

theorem eq_zero_iff (h : g.Leaves placed left) (v : String) :
    left v = 0 ↔ g.predecessors v ⊆ placed := by
  rw [h v, List.countP_eq_zero, List.subset_def]
  constructor
  · intro hnone w hw
    simpa using hnone (w, v) (mem_predecessors.mp hw)
  · rintro hsubset ⟨w, v'⟩ hadj
    by_cases hv : v' = v
    · subst hv
      simpa using hsubset (mem_predecessors.mpr hadj)
    · simp [hv]

/-- A vertex that is placed takes its arcs away. -/
theorem place (h : g.Leaves placed left) (hu : u ∉ placed) :
    g.Leaves (u :: placed) fun v => left v - g.arcs.count (u, v) := by
  intro v
  change left v - g.arcs.count (u, v) = _
  rw [h v, List.count]
  have hsplit : ∀ arcs : List (String × String),
      arcs.countP (fun arc => arc.2 == v && !placed.contains arc.1) =
        arcs.countP (fun arc => arc.2 == v && !(u :: placed).contains arc.1) +
          arcs.countP (· == (u, v)) := by
    intro arcs
    induction arcs with
    | nil => rfl
    | cons arc arcs ih =>
      obtain ⟨w, v'⟩ := arc
      rw [List.countP_cons, List.countP_cons, List.countP_cons, ih]
      by_cases hv : v' = v <;> by_cases hw : w = u <;> simp [hv, hw, hu] <;> omega
  rw [hsplit]
  omega

end Leaves

namespace Countdown

theorem foldl_cut (u : String) {vs : List String} (hvs : vs.Nodup) (k : Countdown) :
    vs.foldl (cut g u) k =
      ⟨fun v => if v ∈ vs then k.left v - g.arcs.count (u, v) else k.left v,
        k.next ++ vs.filter fun v => k.left v - g.arcs.count (u, v) = 0⟩ := by
  induction vs generalizing k with
  | nil => simp
  | cons w vs ih =>
    obtain ⟨hw, hvs⟩ := List.nodup_cons.mp hvs
    have hothers : ∀ v, v ≠ w → (cut g u k w).left v = k.left v := fun v hv =>
      Function.update_of_ne hv _ _
    rw [List.foldl_cons, ih hvs, mk.injEq]
    constructor
    · funext v
      by_cases hv : v = w
      · subst hv
        simp [hw, cut]
      · simp [hv, hothers v hv]
    · have hfilter : vs.filter (fun v => (cut g u k w).left v - g.arcs.count (u, v) = 0) =
          vs.filter (fun v => k.left v - g.arcs.count (u, v) = 0) := by
        refine List.filter_congr fun v hv => ?_
        rw [hothers v fun h => hw (h ▸ hv)]
      rw [hfilter, List.filter_cons]
      by_cases hzero : k.left w - g.arcs.count (u, w) = 0
      · simp [cut, hzero]
      · simp [cut, hzero]

/-- A vertex that is visited frees the vertices that have no other predecessor left. -/
theorem visit_eq {k : Countdown} {u : String} (h : g.Leaves placed k.left) (hu : u ∉ placed) :
    g.Leaves (u :: placed) (k.visit g u).left ∧ (k.visit g u).next = k.next ++ g.freed placed u := by
  have hplace := h.place hu
  have hleft : (k.visit g u).left = fun v => k.left v - g.arcs.count (u, v) := by
    rw [visit, foldl_cut u (nodup_successors u)]
    funext v
    by_cases hv : v ∈ g.successors u
    · simp [hv]
    · simp [hv, count_arcs_eq_zero fun hadj => hv (mem_successors.mpr hadj)]
  refine ⟨hleft ▸ hplace, ?_⟩
  rw [visit, foldl_cut u (nodup_successors u), freed]
  refine congrArg _ (List.filter_congr fun v _ => ?_)
  rw [Bool.eq_iff_iff, decide_eq_true_iff, List.all_eq_true, hplace.eq_zero_iff v, List.subset_def]
  simp

end Countdown

namespace Placing

/-- A generation is taken from the line vertex by vertex, with the next generation behind it. -/
theorem drain_generation (hg : g.Closed) (bound : Nat) {generation : List String} {k : Countdown}
    (h : g.Placing placed (generation ++ k.next)) (hleft : g.Leaves placed k.left) :
    let last := generation.foldl (Countdown.visit g) k
    g.drain (bound + generation.length) placed (generation ++ k.next) =
        g.drain bound (generation.reverse ++ placed) last.next ∧
      g.Placing (generation.reverse ++ placed) last.next ∧
      g.Leaves (generation.reverse ++ placed) last.left := by
  induction generation generalizing placed k with
  | nil => exact ⟨rfl, h, hleft⟩
  | cons u generation ih =>
    have hu : u ∉ placed := fun hmem =>
      List.disjoint_of_nodup_append h.distinct hmem List.mem_cons_self
    obtain ⟨hleft', hnext⟩ := Countdown.visit_eq hleft hu
    have hstep : g.Placing (u :: placed) (generation ++ (k.visit g u).next) := by
      rw [hnext, ← List.append_assoc]
      exact h.step hg
    obtain ⟨hdrain, hplacing, hcount⟩ := ih hstep hleft'
    refine ⟨?_, by simpa using hplacing, by simpa using hcount⟩
    rw [List.length_cons, ← Nat.add_assoc, List.cons_append, Multigraph.drain, List.append_assoc,
      ← hnext, hdrain]
    simp

theorem drain_eq_generations (hg : g.Closed) {more bound : Nat} {generation : List String}
    {left : String → Nat} (h : g.Placing placed generation) (hleft : g.Leaves placed left)
    (hmore : placed.length + more = g.vertices.length) (hbound : more ≤ bound) :
    g.drain more placed generation =
      (g.generationsFrom bound left generation).flatten.reverse ++ placed := by
  induction bound generalizing more placed generation left with
  | zero =>
    obtain rfl : more = 0 := Nat.le_zero.mp hbound
    rfl
  | succ bound ih =>
    cases generation with
    | nil => cases more <;> rfl
    | cons u generation =>
      have hlength := (h.distinct.subperm h.vertices).length_le
      rw [List.length_append, List.length_cons] at hlength
      obtain ⟨rest, rfl⟩ := Nat.exists_eq_add_of_le' (show generation.length + 1 ≤ more by omega)
      have hline : g.Placing placed ((u :: generation) ++ (⟨left, []⟩ : Countdown).next) := by
        simpa using h
      obtain ⟨hdrain, hplacing, hcount⟩ := hline.drain_generation hg rest hleft
      rw [List.append_nil, List.length_cons] at hdrain
      rw [hdrain, ih hplacing hcount (by simp; omega) (by omega), generationsFrom]
      simp

end Placing

theorem placeable_eq_generations (hg : g.Closed) : g.placeable = g.generations.flatten := by
  have hdrain := (Placing.start hg.distinct).drain_eq_generations hg leaves_nil (Nat.zero_add _)
    (le_refl _)
  rw [placeable, hdrain, List.append_nil, List.reverse_reverse]
  rfl

end Mermaid.Multigraph
