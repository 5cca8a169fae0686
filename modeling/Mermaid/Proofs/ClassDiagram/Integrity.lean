import Mermaid.ClassDiagram.Grammar
import Mermaid.Proofs.Registry

/-! The integrity of class diagrams: whatever relates to a class relates to one that there is. Every
event keeps it, and so every class diagram that is read has it. -/
namespace Mermaid.ClassDiagram
variable {d : ClassDiagram}

/-- A relation between classes that there are is all that is added. -/
theorem addRelation_of_mem {r : Relation} (hsource : r.source ∈ d.classes.keys)
    (htarget : r.target ∈ d.classes.keys) : d.addRelation r = { d with relations := d.relations ++ [r] } := by
  simp only [addRelation, ensureClass, Registry.ensure_of_mem hsource, Registry.ensure_of_mem htarget]

/-- Classes stand under their names, and relations are between them. -/
structure Integrity (d : ClassDiagram) : Prop where
  classes : d.classes.Keyed Classifier.name
  relations : ∀ r ∈ d.relations, r.source ∈ d.classes.keys ∧ r.target ∈ d.classes.keys

namespace Integrity

theorem empty : empty.Integrity where
  classes := .empty
  relations _ h := by cases h

/-- Integrity is kept when classes are added and changed, as long as none is lost. -/
private theorem onClasses (h : d.Integrity) {classes : Registry Classifier}
    (hclasses : classes.Keyed Classifier.name) (hkeys : d.classes.keys ⊆ classes.keys) :
    Integrity { d with classes } where
  classes := hclasses
  relations r hr := ⟨hkeys (h.relations r hr).1, hkeys (h.relations r hr).2⟩

private theorem update (h : d.Integrity) {name : String} {change : Classifier → Classifier}
    (hc : ∀ c, (change c).name = c.name) :
    Integrity { d with classes := d.classes.update name change } := by
  refine h.onClasses (h.classes.update hc) ?_
  rw [Registry.keys_update]
  exact List.Subset.refl _

theorem ensureClass (h : d.Integrity) (name : String) (line : Int) :
    (d.ensureClass name line).Integrity :=
  h.onClasses (h.classes.ensure rfl) Registry.keys_subset_ensure

theorem addRelation (h : d.Integrity) (r : Relation) : (d.addRelation r).Integrity := by
  have hends := (h.ensureClass r.source 0).ensureClass r.target 0
  refine ⟨hends.classes, fun r' hr' => ?_⟩
  rcases List.mem_append.mp hr' with hr' | hr'
  · exact hends.relations r' hr'
  · obtain rfl : r' = r := List.mem_singleton.mp hr'
    exact ⟨Registry.keys_subset_ensure Registry.key_mem_ensure, Registry.key_mem_ensure⟩

/-- Every event keeps integrity. -/
theorem apply (h : d.Integrity) (e : Event) : (d.apply e).Integrity := by
  cases e with
  | title text => exact ⟨h.classes, h.relations⟩
  | mention name line => exact h.ensureClass name line
  | declare name line => exact (h.ensureClass name line).update fun _ => rfl
  | stereotype owner text => exact h.update fun _ => rfl
  | member owner m => exact h.update fun _ => rfl
  | relate r => exact h.addRelation r
  | fault e | recovered e => exact ⟨h.classes, h.relations⟩

/-- Integrity is kept by every run of events. -/
theorem applyAll (h : d.Integrity) (events : List Event) : (d.applyAll events).Integrity := by
  induction events generalizing d with
  | nil => exact h
  | cons e events ih => exact ih (h.apply e)

/-- A relation's classes are found, and they are the ones that it names. -/
theorem exists_endpoints (h : d.Integrity) {r : Relation} (hr : r ∈ d.relations) :
    ∃ source target, d.endpoints r = .ok (source, target) ∧
      source.name = r.source ∧ target.name = r.target := by
  obtain ⟨source, hsource, hsname⟩ := h.classes.exists_resolve (h.relations r hr).1
  obtain ⟨target, htarget, htname⟩ := h.classes.exists_resolve (h.relations r hr).2
  refine ⟨source, target, ?_, hsname, htname⟩
  rw [endpoints, hsource, htarget]
  rfl

end Integrity

theorem integrity_ofReply (r : Reply Event Unit) : (ofReply r).Integrity := by
  have hall : (empty.applyAll r.events).Integrity := Integrity.empty.applyAll r.events
  rw [ofReply]
  split
  · exact hall
  · exact ⟨hall.classes, hall.relations⟩

end Mermaid.ClassDiagram
