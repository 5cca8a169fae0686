import Mathlib
import Mermaid.Proofs.Graph.Topological
import Mermaid.Proofs.Registry

/-! The arcs of a graph, listed by tail and head and numbered among their parallels, are the arcs it
was given, and the listing is that of a table which grows arc by arc. -/
namespace Mermaid

namespace Registry
variable {α : Type}

/-- A registry with a value for each of some names. -/
def ofKeys (keys : List String) (value : String → α) : Registry α :=
  ⟨keys.map fun key => (key, value key)⟩

@[simp]
theorem keys_ofKeys (keys : List String) (value : String → α) : (ofKeys keys value).keys = keys := by
  rw [ofKeys, Registry.keys, List.map_map]
  exact List.map_id keys

theorem ensure_ofKeys {names : List String} {value : String → α} {name : String} {fresh : α}
    (h : name ∉ names → value name = fresh) :
    (ofKeys names.eraseDups value).ensure name fresh = ofKeys (names ++ [name]).eraseDups value := by
  have hmem : name ∈ names.eraseDups ↔ name ∈ names := List.mem_eraseDups
  rw [eraseDups_concat]
  by_cases hname : name ∈ names
  · rw [ensure, keys_ofKeys, if_pos (hmem.mpr hname), if_pos hname]
  · rw [ensure, keys_ofKeys, if_neg (mt hmem.mp hname), if_neg hname, ofKeys, ofKeys, List.map_append,
      List.map_singleton, h hname]

theorem update_ofKeys (keys : List String) (value : String → α) (key : String) (change : α → α) :
    (ofKeys keys value).update key change =
      ofKeys keys (Function.update value key (change (value key))) := by
  rw [update, ofKeys, ofKeys, List.map_map]
  congr 1
  refine List.map_congr_left fun k _ => ?_
  by_cases hk : k = key
  · subst hk
    simp
  · simp [hk]

end Registry

namespace Multigraph
variable {g : Multigraph}

/-- Items grouped by distinct keys are all there, each as often as before. -/
theorem flatMap_filter_perm {α κ : Type} [DecidableEq κ] (key : α → κ) {keys : List κ}
    (items : List α) (hkeys : keys.Nodup) (hitems : ∀ item ∈ items, key item ∈ keys) :
    (keys.flatMap fun k => items.filter (key · == k)).Perm items := by
  induction keys generalizing items with
  | nil =>
    obtain rfl : items = [] := List.eq_nil_iff_forall_not_mem.mpr fun item h =>
      List.not_mem_nil (hitems item h)
    rfl
  | cons k keys ih =>
    obtain ⟨hk, hkeys⟩ := List.nodup_cons.mp hkeys
    have hothers : (keys.flatMap fun k' => (items.filter (!key · == k)).filter (key · == k')) =
        keys.flatMap fun k' => items.filter (key · == k') := by
      refine List.flatMap_congr fun k' hk' => ?_
      rw [List.filter_filter]
      refine List.filter_congr fun item _ => ?_
      have hne : k' ≠ k := fun h => hk (h ▸ hk')
      by_cases hitem : key item = k' <;> simp [hitem, hne]
    have hrest := ih (items.filter (!key · == k)) hkeys fun item h => by
      rw [List.mem_filter] at h
      have hne : key item ≠ k := by simpa using h.2
      exact (List.mem_cons.mp (hitems item h.1)).resolve_left hne
    rw [hothers] at hrest
    exact (hrest.append_left _).trans (List.filter_append_perm _ items)

/-- Where all lists but that of one key are empty, the lists of distinct keys join to it. -/
theorem flatMap_eq_apply {α κ : Type} {keys : List κ} {f : κ → List α} {k : κ}
    (hkeys : keys.Nodup) (hk : k ∉ keys → f k = []) (hothers : ∀ k' ≠ k, f k' = []) :
    keys.flatMap f = f k := by
  by_cases h : k ∈ keys
  · obtain ⟨before, behind, rfl⟩ := List.append_of_mem h
    have hnodup := List.nodup_middle.mp hkeys
    have hne : ∀ k' ∈ before ++ behind, f k' = [] := fun k' hk' =>
      hothers k' fun heq => (List.nodup_cons.mp hnodup).1 (heq ▸ hk')
    rw [List.flatMap_append, List.flatMap_cons,
      List.flatMap_eq_nil_iff.mpr fun k' hk' => hne k' (List.mem_append_left _ hk'),
      List.flatMap_eq_nil_iff.mpr fun k' hk' => hne k' (List.mem_append_right _ hk'),
      List.nil_append, List.append_nil]
  · rw [hk h, List.flatMap_eq_nil_iff]
    exact fun k' hk' => hothers k' fun heq => h (heq ▸ hk')

theorem map_parallel (g : Multigraph) (u v : String) :
    (g.parallel u v).map (fun index => ((u, v), index)) = g.arcs.zipIdx.filter (·.1 == (u, v)) := by
  rw [parallel, List.map_map]
  conv_rhs => rw [← List.map_id (List.filter _ _)]
  refine List.map_congr_left fun item hitem => ?_
  rw [← eq_of_beq (List.mem_filter.mp hitem).2]
  rfl

theorem parallel_eq_nil {u v : String} (h : ¬ g.Adj u v) : g.parallel u v = [] := by
  rw [parallel, List.map_eq_nil_iff, List.filter_eq_nil_iff]
  intro item hitem hends
  have harc : item.1 ∈ g.arcs := List.fst_mem_of_mem_zipIdx hitem
  rw [eq_of_beq hends] at harc
  exact h harc

/-- The parallel arcs from one vertex to another, numbered. -/
def numberedParallel (g : Multigraph) (u v : String) : List NumberedArc :=
  (g.parallel u v).zipIdx.map fun (index, key) => ⟨u, v, key, index⟩

theorem numberedParallel_eq_nil {u v : String} (h : ¬ g.Adj u v) : g.numberedParallel u v = [] := by
  rw [numberedParallel, parallel_eq_nil h]
  rfl

theorem ends_numberedParallel {u v : String} {a : NumberedArc} (h : a ∈ g.numberedParallel u v) :
    a.source = u ∧ a.target = v := by
  obtain ⟨item, -, rfl⟩ := List.mem_map.mp h
  exact ⟨rfl, rfl⟩

theorem map_numberedParallel (g : Multigraph) (u v : String) :
    (g.numberedParallel u v).map (fun a => ((a.source, a.target), a.index)) =
      g.arcs.zipIdx.filter (·.1 == (u, v)) := by
  rw [← map_parallel, numberedParallel, List.map_map]
  conv_rhs => rw [← List.zipIdx_map_fst 0 (g.parallel u v), List.map_map]
  rfl

theorem numberedArcs_eq (g : Multigraph) : g.numberedArcs =
    g.vertices.flatMap fun u => (g.successors u).flatMap fun v => g.numberedParallel u v := rfl

/-- All arcs are listed, each one once. -/
theorem numberedArcs_perm (hg : g.Closed) :
    (g.numberedArcs.map fun a => ((a.source, a.target), a.index)).Perm g.arcs.zipIdx := by
  have hends : ∀ item ∈ g.arcs.zipIdx, g.Adj item.1.1 item.1.2 := fun item h =>
    List.fst_mem_of_mem_zipIdx h
  refine List.Perm.trans ?_ (flatMap_filter_perm (·.1.1) g.arcs.zipIdx hg.distinct
    fun item h => (hg.ends _ _ (hends item h)).1)
  rw [numberedArcs_eq, List.map_flatMap]
  refine List.Perm.flatMap_left _ fun u _ => ?_
  refine List.Perm.trans ?_
    (flatMap_filter_perm (·.1.2) _ (nodup_successors (g := g) u) fun item h => ?_)
  · rw [List.map_flatMap]
    refine List.Perm.of_eq (List.flatMap_congr fun v _ => ?_)
    rw [map_numberedParallel, List.filter_filter]
    refine List.filter_congr fun item _ => ?_
    rw [Bool.and_comm]
    rfl
  · obtain ⟨hmem, hu⟩ := List.mem_filter.mp h
    exact mem_successors.mpr (eq_of_beq hu ▸ hends item hmem)

/-- Parallel arcs are listed in their order, and their keys count up from 0. -/
theorem filter_numberedArcs (hg : g.Closed) (u v : String) :
    (g.numberedArcs.filter fun a => (a.source, a.target) == (u, v)) = g.numberedParallel u v := by
  have hends : ∀ u' v', ∀ a ∈ g.numberedParallel u' v', (u', v') ≠ (u, v) →
      ¬ ((a.source, a.target) == (u, v)) := by
    intro u' v' a ha hne heq
    obtain ⟨rfl, rfl⟩ := ends_numberedParallel ha
    exact hne (eq_of_beq heq)
  have hown : (g.numberedParallel u v).filter (fun a => (a.source, a.target) == (u, v)) =
      g.numberedParallel u v := by
    rw [List.filter_eq_self]
    intro a ha
    obtain ⟨rfl, rfl⟩ := ends_numberedParallel ha
    exact beq_self_eq_true _
  rw [numberedArcs_eq, List.filter_flatMap, flatMap_eq_apply (k := u) hg.distinct]
  · rw [List.filter_flatMap, flatMap_eq_apply (k := v) (nodup_successors u), hown]
    · intro hv
      rw [hown, numberedParallel_eq_nil (mt mem_successors.mpr hv)]
    · intro v' hv'
      exact List.filter_eq_nil_iff.mpr fun a ha => hends u v' a ha (by simp [hv'])
  · intro hu
    rw [List.filter_eq_nil_iff]
    intro a ha
    obtain ⟨v', hv', -⟩ := List.mem_flatMap.mp ha
    exact absurd (hg.ends _ _ (mem_successors.mp hv')).1 hu
  · intro u' hu'
    rw [List.filter_eq_nil_iff]
    intro a ha
    obtain ⟨v', -, ha⟩ := List.mem_flatMap.mp ha
    exact hends u' v' a ha (by simp [hu'])

theorem length_numberedArcs (hg : g.Closed) : g.numberedArcs.length = g.arcs.length := by
  have h := (numberedArcs_perm hg).length_eq
  rwa [List.length_map, List.length_zipIdx] at h

/-- Counted by one of their ends, the arcs are all counted. -/
private theorem sum_countP {vertices : List String} (f : String × String → String)
    (arcs : List (String × String)) (hvertices : vertices.Nodup) (h : ∀ arc ∈ arcs, f arc ∈ vertices) :
    (vertices.map fun v => arcs.countP (f · == v)).sum = arcs.length := by
  rw [← (flatMap_filter_perm f arcs hvertices h).length_eq, List.length_flatMap]
  simp only [List.countP_eq_length_filter]

theorem sum_inDegree (hg : g.Closed) : (g.vertices.map g.inDegree).sum = g.arcs.length :=
  sum_countP (·.2) g.arcs hg.distinct fun _ harc => (hg.ends _ _ harc).2

theorem sum_outDegree (hg : g.Closed) : (g.vertices.map g.outDegree).sum = g.arcs.length :=
  sum_countP (·.1) g.arcs hg.distinct fun _ harc => (hg.ends _ _ harc).1

/-- What is no vertex has no arcs. -/
theorem degree_eq_zero (hg : g.Closed) {v : String} (hv : v ∉ g.vertices) :
    g.inDegree v = 0 ∧ g.outDegree v = 0 := by
  rw [inDegree, outDegree, List.countP_eq_zero, List.countP_eq_zero]
  constructor <;> intro arc harc hend
  · exact hv (eq_of_beq hend ▸ (hg.ends _ _ harc).2)
  · exact hv (eq_of_beq hend ▸ (hg.ends _ _ harc).1)

private theorem sorted_mergeSort {names : List String} (h : names.Nodup) :
    (names.mergeSort (· ≤ ·)).Pairwise (· < ·) := by
  have hle : (names.mergeSort (· ≤ ·)).Pairwise (· ≤ ·) := List.pairwise_mergeSort' (· ≤ ·) names
  have hne : (names.mergeSort (· ≤ ·)).Nodup := (List.mergeSort_perm names _).nodup_iff.mpr h
  exact (hle.and hne).imp fun hs => lt_of_le_of_ne hs.1 hs.2

theorem adjacency_sorted (hg : g.Closed) : (g.adjacency.map (·.1)).Pairwise (· < ·) := by
  rw [adjacency, List.map_map]
  exact (List.map_id _).symm ▸ sorted_mergeSort hg.distinct

theorem adjacency_perm (g : Multigraph) : (g.adjacency.map (·.1)).Perm g.vertices := by
  rw [adjacency, List.map_map]
  exact (List.map_id _).symm ▸ List.mergeSort_perm g.vertices _

/-- A vertex stands with its successors, sorted. -/
theorem successors_adjacency {entry : String × List String} (h : entry ∈ g.adjacency) :
    entry.2.Pairwise (· < ·) ∧ ∀ v, v ∈ entry.2 ↔ g.Adj entry.1 v := by
  obtain ⟨u, -, rfl⟩ := List.mem_map.mp h
  refine ⟨sorted_mergeSort (nodup_successors u), fun v => ?_⟩
  rw [(List.mergeSort_perm _ _).mem_iff, mem_successors]

end Multigraph

/-- For each tail its heads and for each head the places of the arcs to it, all in the order in
which they were entered. -/
abbrev ArcTable := Registry (Registry (List Nat))

namespace ArcTable

/-- Enters an arc behind its parallels. An end that is new is a new vertex. -/
def addArc (t : ArcTable) (u v : String) (index : Nat) : ArcTable :=
  ((t.ensure u .empty).ensure v .empty).update u fun row =>
    (row.ensure v []).update v (· ++ [index])

def ofLists (vertices : List String) (arcs : List (String × String)) : ArcTable :=
  arcs.zipIdx.foldl (fun t ((u, v), index) => t.addArc u v index)
    (vertices.foldl (fun t v => t.ensure v .empty) .empty)

/-- The arcs of a table by tail and head; the key of an arc counts the parallels before it. -/
def numberedArcs (t : ArcTable) : List NumberedArc :=
  t.entries.flatMap fun (u, row) => row.entries.flatMap fun (v, places) =>
    places.zipIdx.map fun (index, key) => ⟨u, v, key, index⟩

end ArcTable

namespace Multigraph
open Registry
variable {g : Multigraph}

/-- The heads of the arcs from a vertex, each with the places of these arcs. -/
def row (g : Multigraph) (u : String) : Registry (List Nat) :=
  ofKeys (g.successors u) (g.parallel u)

def table (g : Multigraph) : ArcTable := ofKeys g.vertices g.row

theorem numberedArcs_table (g : Multigraph) : g.table.numberedArcs = g.numberedArcs := by
  simp only [ArcTable.numberedArcs, table, row, ofKeys, List.flatMap_map]
  rfl

theorem row_eq_empty {u : String} (h : ∀ v, ¬ g.Adj u v) : g.row u = .empty := by
  have hnone : g.successors u = [] :=
    List.eq_nil_iff_forall_not_mem.mpr fun v hv => h v (mem_successors.mp hv)
  rw [row, hnone]
  rfl

variable (vertices : List String) (arcs : List (String × String)) (u v : String)

theorem table_ofLists_nil :
    vertices.foldl (fun t v => t.ensure v .empty) .empty = (ofLists vertices []).table := by
  induction vertices using List.reverseRecOn with
  | nil => rfl
  | append_singleton vertices v ih =>
    have hrow : (ofLists vertices []).row v = .empty := row_eq_empty fun w hw => by cases hw
    have htable : ∀ names, (ofLists names []).table =
        ofKeys names.eraseDups (ofLists vertices []).row := fun names => by
      rw [table, ofLists, List.flatMap_nil, List.append_nil]
      rfl
    rw [List.foldl_append, List.foldl_cons, List.foldl_nil, ih, htable, htable]
    exact ensure_ofKeys fun _ => hrow

theorem row_ofLists_concat_of_ne {w : String} (h : w ≠ u) :
    (ofLists vertices (arcs ++ [(u, v)])).row w = (ofLists vertices arcs).row w := by
  have hsuccessors : (ofLists vertices (arcs ++ [(u, v)])).successors w =
      (ofLists vertices arcs).successors w := by
    simp [successors, ofLists, h.symm]
  have hparallel : (ofLists vertices (arcs ++ [(u, v)])).parallel w =
      (ofLists vertices arcs).parallel w := by
    funext x
    simp [parallel, ofLists, List.zipIdx_append, h.symm]
  rw [row, row, hsuccessors, hparallel]

theorem row_ofLists_concat_self :
    (ofLists vertices (arcs ++ [(u, v)])).row u =
      (((ofLists vertices arcs).row u).ensure v []).update v (· ++ [arcs.length]) := by
  have hsuccessors : (ofLists vertices (arcs ++ [(u, v)])).successors u =
      ((arcs.filter (·.1 == u)).map (·.2) ++ [v]).eraseDups := by
    simp [successors, ofLists]
  have hparallel : (ofLists vertices (arcs ++ [(u, v)])).parallel u =
      Function.update ((ofLists vertices arcs).parallel u) v
        ((ofLists vertices arcs).parallel u v ++ [arcs.length]) := by
    funext x
    by_cases hx : x = v
    · subst hx
      simp [parallel, ofLists, List.zipIdx_append]
    · simp [parallel, ofLists, List.zipIdx_append, hx, Ne.symm hx]
  have hensure : ((ofLists vertices arcs).row u).ensure v [] =
      ofKeys ((arcs.filter (·.1 == u)).map (·.2) ++ [v]).eraseDups ((ofLists vertices arcs).parallel u) :=
    ensure_ofKeys fun hv => parallel_eq_nil fun harc =>
      hv (List.mem_map.mpr ⟨_, List.mem_filter.mpr ⟨harc, beq_self_eq_true u⟩, rfl⟩)
  rw [hensure, update_ofKeys, row, hsuccessors, hparallel]

/-- One arc more: its place goes to the end of its row. -/
theorem addArc_table : (ofLists vertices arcs).table.addArc u v arcs.length =
    (ofLists vertices (arcs ++ [(u, v)])).table := by
  have hvertex : ∀ {w}, w ∉ (ofLists vertices arcs).vertices → (ofLists vertices arcs).row w = .empty :=
    fun hw => row_eq_empty fun x hx => hw ((closed_ofLists vertices arcs).ends _ x hx).1
  have hvertices : (ofLists vertices (arcs ++ [(u, v)])).vertices =
      ((vertices ++ arcs.flatMap fun arc => [arc.1, arc.2]) ++ [u] ++ [v]).eraseDups := by
    simp [ofLists]
  have hrows : (ofLists vertices (arcs ++ [(u, v)])).row =
      Function.update (ofLists vertices arcs).row u ((ofLists vertices (arcs ++ [(u, v)])).row u) := by
    funext w
    by_cases hw : w = u
    · rw [hw, Function.update_self]
    · rw [Function.update_of_ne hw, row_ofLists_concat_of_ne _ _ _ _ hw]
  have hends : ((ofLists vertices arcs).table.ensure u .empty).ensure v .empty =
      ofKeys (ofLists vertices (arcs ++ [(u, v)])).vertices (ofLists vertices arcs).row := by
    rw [hvertices, ← ensure_ofKeys, ← ensure_ofKeys]
    · rfl
    · exact fun hu => hvertex (mt List.mem_eraseDups.mp hu)
    · exact fun hv => hvertex fun h => hv (List.mem_append_left _ (List.mem_eraseDups.mp h))
  rw [ArcTable.addArc, hends, update_ofKeys, ← row_ofLists_concat_self, ← hrows, table]

/-- The table of a graph is the one that grows vertex by vertex and arc by arc. -/
theorem table_ofLists : ArcTable.ofLists vertices arcs = (ofLists vertices arcs).table := by
  induction arcs using List.reverseRecOn with
  | nil => exact table_ofLists_nil vertices
  | append_singleton arcs arc ih =>
    rw [ArcTable.ofLists, List.zipIdx_append, List.foldl_append, ← ArcTable.ofLists, ih,
      ← addArc_table]
    simp

end Multigraph
end Mermaid
