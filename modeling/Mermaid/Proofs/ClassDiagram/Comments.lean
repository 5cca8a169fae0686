import Mathlib.Data.Option.Basic
import Mermaid.Proofs.ClassDiagram.Commenting
import Mermaid.Proofs.Registry

/-! Class diagrams of a text with its comments and without them. They are the same but for the columns
of diagnostics, unless a comment stands on a line that gives the type of a member or a stereotype:
then it is among the words of these, and they are said by the other words without it. -/
namespace Mermaid

/-- Members that differ in types of which `T` holds. -/
structure Member.Alike (T : Member → Option String → Prop) (m m' : Member) : Prop where
  name : m'.name = m.name
  isMethod : m'.isMethod = m.isMethod
  visibility : m'.visibility = m.visibility
  type : T m m'.type

/-- Classes that differ in types of which `T` holds, and in stereotypes of which `U` holds. -/
structure Classifier.Alike (T : Member → Option String → Prop) (U : String → String → Prop)
    (c c' : Classifier) : Prop where
  name : c'.name = c.name
  members : List.Forall₂ (Member.Alike T) c.members c'.members
  line : c'.line = c.line
  stereotype : Option.Rel U c.stereotype c'.stereotype

theorem Member.Alike.eq {m m' : Member} (h : m.Alike (Eq ·.type) m') : m = m' := by
  obtain ⟨name, isMethod, visibility, type⟩ := m
  obtain ⟨name', isMethod', visibility', type'⟩ := m'
  obtain ⟨rfl, rfl, rfl, htype⟩ := h
  exact congrArg (Member.mk _ _ _) htype

theorem Classifier.Alike.eq {c c' : Classifier} (h : c.Alike (Eq ·.type) Eq c') : c = c' := by
  obtain ⟨name, members, line, stereotype⟩ := c
  obtain ⟨name', members', line', stereotype'⟩ := c'
  obtain ⟨rfl, hmembers, rfl, hstereotype⟩ := h
  have hmembers : members = members' :=
    List.forall₂_eq_eq_eq ▸ hmembers.imp fun _ _ h => h.eq
  rw [hmembers]
  cases hstereotype with
  | some h => rw [h]
  | none => rfl

namespace ClassDiagram
open Rule

/-- Diagrams that differ in types of which `T` holds, in stereotypes of which `U` holds, and in the
columns of diagnostics. -/
structure Alike (T : Member → Option String → Prop) (U : String → String → Prop)
    (d d' : ClassDiagram) : Prop where
  title : d'.title = d.title
  classes : d.classes.Alike (Classifier.Alike T U) d'.classes
  relations : d'.relations = d.relations
  diagnostics : List.Forall₂ Diagnostic.SameLine d.diagnostics d'.diagnostics

namespace Alike
variable {T : Member → Option String → Prop} {U : String → String → Prop}
  {d d' : ClassDiagram}

theorem empty : empty.Alike T U empty := ⟨rfl, .nil, rfl, .nil⟩

theorem report (h : d.Alike T U d') {e e' : Diagnostic} (he : e.SameLine e') :
    (d.report e).Alike T U (d'.report e') :=
  { h with diagnostics := List.rel_append h.diagnostics (.cons he .nil) }

/-- Diagrams with the same types and stereotypes are equal but for the columns of diagnostics. -/
theorem eq (h : d.Alike (Eq ·.type) Eq d') : d' = { d with diagnostics := d'.diagnostics } := by
  obtain ⟨title, ⟨entries⟩, relations, diagnostics⟩ := d
  obtain ⟨title', ⟨entries'⟩, relations', diagnostics'⟩ := d'
  obtain ⟨rfl, hclasses, rfl, -⟩ := h
  have hentries : entries = entries' :=
    List.forall₂_eq_eq_eq ▸ hclasses.imp fun _ _ h => Prod.ext h.1 h.2.eq
  rw [hentries]

theorem ensureClass (h : d.Alike T U d') (name : String) (line : Int) :
    (d.ensureClass name line).Alike T U (d'.ensureClass name line) :=
  { h with classes := h.classes.ensure ⟨rfl, .nil, rfl, .none⟩ }

theorem alterClass (h : d.Alike T U d') (name : String) {change change' : Classifier → Classifier}
    (hc : ∀ c c', c.Alike T U c' → (change c).Alike T U (change' c')) :
    Alike T U { d with classes := d.classes.update name change }
      { d' with classes := d'.classes.update name change' } :=
  { h with classes := h.classes.update hc }

theorem apply (h : d.Alike T U d') {e e' : Event} (he : e.Alike T U e') :
    (d.apply e).Alike T U (d'.apply e') := by
  have hmember : ∀ {owner : String} {m m' : Member}, m.Alike T m' →
      (d.addMember owner m).Alike T U (d'.addMember owner m') := fun hm =>
    h.alterClass _ fun _ _ hc =>
      { hc with members := List.rel_append hc.members (.cons hm .nil) }
  have hstereotype : ∀ {owner text text' : String}, U text text' →
      (d.setStereotype owner text).Alike T U (d'.setStereotype owner text') := fun ht =>
    h.alterClass _ fun _ _ hc => { hc with stereotype := .some ht }
  cases he with
  | stereotype ht => exact hstereotype ht
  | member ht => exact hmember ⟨rfl, rfl, rfl, ht⟩
  | fault hd | recovered hd => exact h.report hd
  | @same e hwordless =>
    cases e with
    | title text => exact { h with title := rfl }
    | mention name line => exact h.ensureClass name line
    | declare name line =>
      exact (h.ensureClass name line).alterClass name fun _ _ hc => { hc with line := rfl }
    | stereotype _ _ | member _ _ => cases hwordless
    | relate r =>
      have hends := (h.ensureClass r.source 0).ensureClass r.target 0
      exact { hends with relations := congrArg (· ++ [r]) h.relations }
    | fault f | recovered f => exact h.report ⟨rfl, rfl⟩

theorem applyAll (h : d.Alike T U d') {events events' : List Event}
    (he : List.Forall₂ (Event.Alike T U) events events') :
    (d.applyAll events).Alike T U (d'.applyAll events') := by
  induction he generalizing d d' with
  | nil => exact h
  | cons he _ ih => exact ih (h.apply he)

/-- Alike replies give alike diagrams. -/
theorem ofReply {r r' : Reply Event Unit} (hevents : List.Forall₂ (Event.Alike T U) r.events r'.events)
    (houtcome : r.outcome.Alike Eq r'.outcome) : (ofReply r).Alike T U (ofReply r') := by
  have hdiagram := (Alike.empty (T := T) (U := U)).applyAll hevents
  obtain ⟨events, outcome, rest⟩ := r
  obtain ⟨events', outcome', rest'⟩ := r'
  cases houtcome with
  | done _ => exact hdiagram
  | failed _ | tooDeep => exact hdiagram.report ⟨rfl, rfl⟩

end Alike

/-- A text without its comments has the same diagram but for the columns of diagnostics and for the types
and the stereotypes that have a comment among their words: these are said by the other words. Where none
has one, the diagrams differ in the columns alone. -/
theorem ofStream_uncommented (text : String) :
    let s := Stream.ofText text
    let diagram := ofStream s
    let diagram' := ofStream s.uncommented
    diagram.Alike (Retyped s) (Restereotyped s) diagram' ∧
      ((∀ ts m w, Grammar.MemberPlace s ts → MemberLine.MemberAt ts m w →
          ∀ t ∈ w.returned ++ w.declared, t.kind ≠ .comment) →
        (∀ ts, Grammar.StereotypePlace s ts → ∀ t ∈ MemberLine.stereotypeWords ts, t.kind ≠ .comment) →
          diagram' = { diagram with diagnostics := diagram'.diagnostics }) := by
  intro s diagram diagram'
  have hremains : s.Remains s.tokens := ⟨Stream.inLines_ofText text, List.suffix_refl _⟩
  have halike : ∀ {T : Member → Option String → Prop} {U : String → String → Prop},
      (∀ m type, Retyped s m type → T m type) → (∀ text text', Restereotyped s text text' → U text text') →
      diagram.Alike T U diagram' := fun hT hU =>
    have hreply := Grammar.alike_document hT hU hremains
    .ofReply hreply.events hreply.outcome
  refine ⟨halike (fun _ _ h => h) fun _ _ h => h, fun htypes hstereotypes =>
    (halike (fun m type h => ?_) fun text text' h => ?_).eq⟩
  · obtain ⟨ts, w, hplace, hm, htype, rfl⟩ := h
    obtain ⟨hreturned, hdeclared⟩ := List.forall_mem_append.mp (htypes ts m w hplace hm)
    rw [htype, TypeWords.uncommented, Token.uncommented_eq_self (by simpa using hreturned),
      Token.uncommented_eq_self (by simpa using hdeclared)]
  · obtain ⟨ts, hplace, rfl, rfl⟩ := h
    rw [Token.uncommented_eq_self (by simpa using hstereotypes ts hplace)]

def remarkedMemberText : String := "classDiagram\nclass A \x7b\n+f() int %% note\n\x7d\n"

/-- The comment behind the type that a method returns makes it another type. -/
theorem parse_remarkedMemberText :
    (parse remarkedMemberText).classes.values.map (·.members) =
        [[{ name := "f", isMethod := true, type := some "int note" }]] ∧
      (ofStream (Stream.ofText remarkedMemberText).uncommented).classes.values.map (·.members) =
        [[{ name := "f", isMethod := true, type := some "int" }]] := by
  decide +kernel

end ClassDiagram
end Mermaid
