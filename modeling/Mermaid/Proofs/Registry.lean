import Mathlib.Data.List.Nodup
import Mermaid.Registry

/-! What registries keep when values are entered and changed. -/
namespace Mermaid

/-- One name more is listed at the end, unless it is listed already. -/
theorem eraseDups_concat (names : List String) (name : String) : (names ++ [name]).eraseDups =
    if name ∈ names then names.eraseDups else names.eraseDups ++ [name] := by
  rw [List.eraseDups_append]
  split
  · next h => simp [List.removeAll, h]
  · next h => simp [List.removeAll, h, List.eraseDups_cons]

namespace Registry
variable {α : Type} {r : Registry α} {key : String} {fresh : α} {change : α → α}

theorem mem_keys_ensure {k : String} : k ∈ (r.ensure key fresh).keys ↔ k ∈ r.keys ∨ k = key := by
  by_cases h : key ∈ r.keys
  · rw [ensure, if_pos h]
    refine ⟨Or.inl, fun hk => hk.elim id ?_⟩
    rintro rfl
    exact h
  · rw [ensure, if_neg h, keys, List.map_append, List.mem_append]
    exact or_congr Iff.rfl List.mem_singleton

theorem keys_subset_ensure : r.keys ⊆ (r.ensure key fresh).keys :=
  fun _ h => mem_keys_ensure.mpr (.inl h)

theorem keys_ensure_subset {known : List String} (hr : r.keys ⊆ known) (hkey : key ∈ known) :
    (r.ensure key fresh).keys ⊆ known := by
  intro k hk
  rcases mem_keys_ensure.mp hk with hk | rfl
  · exact hr hk
  · exact hkey

theorem ensure_of_mem (h : key ∈ r.keys) : r.ensure key fresh = r := if_pos h

theorem key_mem_ensure : key ∈ (r.ensure key fresh).keys := mem_keys_ensure.mpr (.inr rfl)

@[simp]
theorem keys_update : (r.update key change).keys = r.keys := by
  rw [update, keys, keys, List.map_map]
  refine List.map_congr_left fun (k, a) _ => ?_
  simp only [Function.comp]
  split <;> rfl

theorem find?_update (r : Registry α) (key : String) (change : α → α) :
    (r.update key change).find? key = (r.find? key).map change := by
  obtain ⟨entries⟩ := r
  simp only [update, find?]
  induction entries with
  | nil => rfl
  | cons entry entries ih =>
    obtain ⟨k, a⟩ := entry
    by_cases hk : k = key
    · simp [hk]
    · have hbeq : (key == k) = false := beq_false_of_ne (Ne.symm hk)
      simp only [List.map_cons, if_neg hk, List.lookup_cons, hbeq, ih]

/-- Of every value in a registry some property holds. -/
def All (P : α → Prop) (r : Registry α) : Prop := ∀ a ∈ r.values, P a

namespace All
variable {P : α → Prop}

theorem empty : All P .empty := fun _ h => by cases h

theorem ensure (h : All P r) (hf : P fresh) : All P (r.ensure key fresh) := by
  intro a ha
  rw [Registry.ensure] at ha
  split at ha
  · exact h a ha
  · rw [values, List.map_append, List.mem_append] at ha
    rcases ha with ha | ha
    · exact h a ha
    · rw [List.map_singleton, List.mem_singleton] at ha
      exact ha ▸ hf

theorem update (h : All P r) (hc : ∀ a, P a → P (change a)) : All P (r.update key change) := by
  intro a ha
  rw [values, Registry.update, List.map_map] at ha
  obtain ⟨⟨k, b⟩, hb, rfl⟩ := List.mem_map.mp ha
  have hPb : P b := h b (List.mem_map.mpr ⟨(k, b), hb, rfl⟩)
  simp only [Function.comp]
  split
  · exact hc b hPb
  · exact hPb

end All

/-- The same names in the same order, with values of which `R` holds. -/
def Alike {β : Type} (R : α → β → Prop) (r : Registry α) (r' : Registry β) : Prop :=
  List.Forall₂ (fun entry entry' => entry.1 = entry'.1 ∧ R entry.2 entry'.2) r.entries r'.entries

namespace Alike
variable {R : α → α → Prop} {r' : Registry α} {fresh' : α} {change' : α → α}

theorem keys (h : Alike R r r') : r'.keys = r.keys := by
  rw [Alike] at h
  rw [Registry.keys, Registry.keys]
  generalize r.entries = entries, r'.entries = entries' at h
  induction h with
  | nil => rfl
  | cons h _ ih => rw [List.map_cons, List.map_cons, h.1, ih]

theorem ensure (h : Alike R r r') (hf : R fresh fresh') :
    Alike R (r.ensure key fresh) (r'.ensure key fresh') := by
  rw [Registry.ensure, Registry.ensure, h.keys]
  split
  · exact h
  · exact List.rel_append h (.cons ⟨rfl, hf⟩ .nil)

theorem update (h : Alike R r r') (hc : ∀ a a', R a a' → R (change a) (change' a')) :
    Alike R (r.update key change) (r'.update key change') := by
  refine List.forall₂_map_left_iff.mpr (List.forall₂_map_right_iff.mpr (h.imp ?_))
  rintro ⟨k, a⟩ ⟨k', a'⟩ ⟨hk, ha⟩
  obtain rfl : k = k' := hk
  by_cases hkey : k = key
  · simpa only [hkey, if_true] using ⟨trivial, hc a a' ha⟩
  · simpa only [hkey, if_false] using ⟨trivial, ha⟩

end Alike

/-- Every value stands under its own name, and no name comes up twice. -/
structure Keyed (name : α → String) (r : Registry α) : Prop where
  named : ∀ entry ∈ r.entries, entry.1 = name entry.2
  distinct : r.keys.Nodup

namespace Keyed
variable {name : α → String}

theorem empty : Keyed name .empty where
  named _ h := by cases h
  distinct := List.nodup_nil

theorem ensure (h : Keyed name r) (hf : name fresh = key) : Keyed name (r.ensure key fresh) := by
  by_cases hk : key ∈ r.keys
  · rw [Registry.ensure, if_pos hk]
    exact h
  · rw [Registry.ensure, if_neg hk]
    constructor
    · intro entry hentry
      rcases List.mem_append.mp hentry with hentry | hentry
      · exact h.named entry hentry
      · rw [List.mem_singleton.mp hentry, hf]
    · rw [keys, List.map_append]
      refine h.distinct.append (List.nodup_singleton _) ?_
      intro k hkeys hkey
      obtain rfl : k = key := List.mem_singleton.mp hkey
      exact hk hkeys

theorem update (h : Keyed name r) (hc : ∀ a, name (change a) = name a) :
    Keyed name (r.update key change) where
  named entry hentry := by
    obtain ⟨⟨k, a⟩, ha, rfl⟩ := List.mem_map.mp hentry
    have hname : k = name a := h.named (k, a) ha
    by_cases hk : k = key
    · simp only [hk, if_true, hc]
      exact hk ▸ hname
    · simp only [hk, if_false]
      exact hname
  distinct := by
    rw [keys_update]
    exact h.distinct

theorem map_values (h : Keyed name r) : r.values.map name = r.keys := by
  rw [values, keys, List.map_map]
  exact List.map_congr_left fun entry hentry => (h.named entry hentry).symm

/-- What is registered under a name is found, and is of that name. -/
theorem exists_resolve (h : Keyed name r) (hk : key ∈ r.keys) :
    ∃ a, r.resolve key = .ok a ∧ name a = key := by
  obtain ⟨entry, hentry, rfl⟩ := List.mem_map.mp hk
  have hfound : (r.find? entry.1).isSome :=
    List.lookup_isSome_iff.mpr ⟨entry, hentry, beq_self_eq_true entry.1⟩
  obtain ⟨a, ha⟩ := Option.isSome_iff_exists.mp hfound
  refine ⟨a, by rw [resolve, ha], ?_⟩
  obtain ⟨before, behind, hentries, _⟩ := List.lookup_eq_some_iff.mp ha
  have hmem : (entry.1, a) ∈ r.entries := by
    rw [hentries]
    exact List.mem_append_right _ List.mem_cons_self
  exact (h.named _ hmem).symm

end Keyed
end Registry
end Mermaid
