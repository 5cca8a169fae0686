import Mermaid.Proofs.Registry

/-! Names that come up one after the other, and registries that are made of them: a name has its place
from its first sighting, and its value from the last one that says something. -/
namespace Mermaid
variable {α β : Type}

/-- A name where it comes up, and what is said of it there, if anything. -/
structure Sighting (α : Type) where
  name : String
  line : Int
  said? : Option α

namespace Sighting
variable {name : String} {sightings : List (Sighting α)} {x y : Sighting α}

/-- The sighting that tells what a name stands for: the last one that says something, or else the first. -/
def telling? (name : String) (sightings : List (Sighting α)) : Option (Sighting α) :=
  let own := sightings.filter (·.name = name)
  (own.filter (·.said?.isSome)).getLast?.or own.head?

theorem telling?_append_of_ne (hx : x.name ≠ name) :
    telling? name (sightings ++ [x]) = telling? name sightings := by
  simp [telling?, hx]

theorem telling?_append_of_said (hname : x.name = name) (hx : x.said?.isSome) :
    telling? name (sightings ++ [x]) = some x := by
  simp [telling?, hname, hx]

theorem telling?_append_of_silent (hname : x.name = name) (hx : x.said? = none) :
    telling? name (sightings ++ [x]) = (telling? name sightings).or (some x) := by
  simp [telling?, hname, hx]

/-- Where nothing is said the first sighting of a name tells of it. -/
theorem telling?_of_silent (h : ∀ x ∈ sightings, x.said? = none) :
    telling? name sightings = sightings.find? (·.name = name) := by
  have hnone : (sightings.filter (·.name = name)).filter (·.said?.isSome) = [] := by
    rw [List.filter_eq_nil_iff]
    intro x hx
    simp [h x (List.mem_filter.mp hx).1]
  rw [telling?, hnone, List.getLast?_nil, Option.none_or, List.head?_filter]

/-- What tells of a name is a sighting of it. -/
theorem mem_of_telling? (h : telling? name sightings = some x) : x ∈ sightings ∧ x.name = name := by
  have hown : x ∈ sightings.filter (·.name = name) := by
    rcases Option.or_eq_some_iff.mp h with hlast | ⟨-, hhead⟩
    · exact (List.mem_filter.mp (List.mem_of_getLast? hlast)).1
    · exact List.mem_of_head? hhead
  simpa using hown

end Sighting

namespace Registry
variable {r : Registry β} {key : String} {fresh : β} {names : List String}

/-- The names of a registry are those that have come up, in their order. -/
theorem keys_ensure (h : r.keys = names.eraseDups) :
    (r.ensure key fresh).keys = (names ++ [key]).eraseDups := by
  have hmem : key ∈ r.keys ↔ key ∈ names := by rw [h, List.mem_eraseDups]
  rw [eraseDups_concat, ← h]
  by_cases hkey : key ∈ r.keys
  · rw [ensure, if_pos hkey, if_pos (hmem.mp hkey)]
  · rw [ensure, if_neg hkey, if_neg (mt hmem.mpr hkey), keys, List.map_append]
    rfl

/-- The registry is made of the sightings: under each name is a value that agrees with what tells of it. -/
structure Follows (Agrees : Sighting α → β → Prop) (sightings : List (Sighting α)) (r : Registry β) :
    Prop where
  keys : r.keys = (sightings.map (·.name)).eraseDups
  agrees : ∀ entry ∈ r.entries, ∃ x, Sighting.telling? entry.1 sightings = some x ∧ Agrees x entry.2

namespace Follows
variable {Agrees : Sighting α → β → Prop} {sightings : List (Sighting α)} {x : Sighting α}
  {change : β → β}

theorem empty : Follows Agrees [] (.empty : Registry β) where
  keys := rfl
  agrees _ h := by cases h

theorem mem_keys (h : Follows Agrees sightings r) : key ∈ r.keys ↔ ∃ x ∈ sightings, x.name = key := by
  rw [h.keys, List.mem_eraseDups, List.mem_map]

/-- A name that has come up is not registered again. -/
theorem ensure_eq_self (h : Follows Agrees sightings r) (hkey : key ∈ sightings.map (·.name)) :
    r.ensure key fresh = r := by
  rw [← List.mem_eraseDups, ← h.keys] at hkey
  exact if_pos hkey

/-- A name that comes up without a word is registered, unless it has come up before. -/
theorem ensure (h : Follows Agrees sightings r) (hx : x.said? = none) (hfresh : Agrees x fresh) :
    Follows Agrees (sightings ++ [x]) (r.ensure x.name fresh) where
  keys := by
    rw [List.map_append]
    exact keys_ensure h.keys
  agrees entry hentry := by
    have hkept : entry ∈ r.entries →
        ∃ y, Sighting.telling? entry.1 (sightings ++ [x]) = some y ∧ Agrees y entry.2 := by
      intro hmem
      obtain ⟨y, hy, hagrees⟩ := h.agrees entry hmem
      refine ⟨y, ?_, hagrees⟩
      by_cases hname : x.name = entry.1
      · rw [Sighting.telling?_append_of_silent hname hx, hy]
        rfl
      · rw [Sighting.telling?_append_of_ne hname, hy]
    rw [Registry.ensure] at hentry
    split at hentry
    · exact hkept hentry
    · rename_i hnew
      rcases List.mem_append.mp hentry with hentry | hentry
      · exact hkept hentry
      · obtain rfl := List.mem_singleton.mp hentry
        have hnone : Sighting.telling? x.name sightings = none := by
          by_contra htelling
          obtain ⟨y, hy⟩ := Option.ne_none_iff_exists'.mp htelling
          exact hnew (h.mem_keys.mpr ⟨y, Sighting.mem_of_telling? hy⟩)
        exact ⟨x, by rw [Sighting.telling?_append_of_silent rfl hx, hnone]; rfl, hfresh⟩

/-- What is said of a name takes the place of what was said before. -/
theorem define (h : Follows Agrees sightings r) (hx : x.said?.isSome) (hchange : ∀ b, Agrees x (change b)) :
    Follows Agrees (sightings ++ [x]) ((r.ensure x.name fresh).update x.name change) where
  keys := by
    rw [keys_update, List.map_append]
    exact keys_ensure h.keys
  agrees entry hentry := by
    obtain ⟨⟨k, b⟩, hb, rfl⟩ := List.mem_map.mp hentry
    by_cases hk : k = x.name
    · simp only [hk, if_true]
      exact ⟨x, Sighting.telling?_append_of_said rfl hx, hchange b⟩
    · simp only [hk, if_false]
      have hmem : (k, b) ∈ r.entries := by
        rw [Registry.ensure] at hb
        split at hb
        · exact hb
        · refine (List.mem_append.mp hb).resolve_right fun hnew => ?_
          exact hk (congrArg Prod.fst (List.mem_singleton.mp hnew))
      obtain ⟨y, hy, hagrees⟩ := h.agrees _ hmem
      exact ⟨y, by rw [Sighting.telling?_append_of_ne (Ne.symm hk), hy], hagrees⟩

/-- A change that is no matter of the sightings. -/
theorem update (h : Follows Agrees sightings r) (hchange : ∀ x b, Agrees x b → Agrees x (change b)) :
    Follows Agrees sightings (r.update key change) where
  keys := keys_update.trans h.keys
  agrees entry hentry := by
    obtain ⟨⟨k, b⟩, hb, rfl⟩ := List.mem_map.mp hentry
    obtain ⟨y, hy, hagrees⟩ := h.agrees _ hb
    by_cases hk : k = key
    · simp only [hk, if_true] at hy ⊢
      exact ⟨y, hy, hchange y b hagrees⟩
    · simp only [hk, if_false]
      exact ⟨y, hy, hagrees⟩

end Follows
end Registry
end Mermaid
