import Mermaid.Proofs.ClassDiagram.Drawing
import Mermaid.Proofs.ClassDiagram.Integrity
import Mermaid.Proofs.ClassDiagram.Sightings
import Mermaid.Proofs.Flowchart.Drawing
import Mermaid.Proofs.Flowchart.Sightings

/-! Nothing in a diagram is made up. Nodes and classes are named in the text, they stand in the order in
which they are named first, and each is what was said of it last. Edges and relations are drawn there, each
at an arrow of its own, and in the order of the text. -/
namespace Mermaid
variable {α β : Type}

/-- The values of a registry are named by identifiers: those at which there are sightings, without
repetitions, are their names, and each value has the line of one that is its name. -/
structure Provenance (tokens : List Token) (sightings : List (Sighting α)) (name : β → String)
    (line : β → Int) (r : Registry β) : Prop where
  order : ∃ seen, List.Sublist seen (tokens.filter (·.kind = .identifier)) ∧
    seen.map (fun t => (t.lexeme, t.position.line)) = sightings.map (fun x => (x.name, x.line)) ∧
    r.values.map name = (seen.map (·.lexeme)).eraseDups
  origin : ∀ b ∈ r.values, ∃ t ∈ tokens, t.kind = .identifier ∧ t.lexeme = name b ∧
    t.position.line = line b ∧ 1 ≤ line b

section
variable {Made : Sighting α → List Token → Token → List Token → Prop}
  (hmade : ∀ {x front t back}, Made x front t back → (∀ u ∈ front ++ t :: back, u.kind ≠ .newline) ∧
    t.kind = .identifier ∧ t.lexeme = x.name ∧ ∃ u ∈ front ++ [t], u.position.line = x.line)
include hmade

/-- What is sighted at names on one line has these names, in their order, and their lines. -/
theorem exists_seen {s : Stream} (hs : s.InLines) {sightings : List (Sighting α)} {rest : List Token}
    (h : Course (MadeAt Made s) s.tokens sightings rest) : ∃ seen,
      List.Sublist seen (s.tokens.filter (·.kind = .identifier)) ∧
      seen.map (fun t => (t.lexeme, t.position.line)) = sightings.map (fun x => (x.name, x.line)) := by
  obtain ⟨seen, hseen, hsightings⟩ := h.exists_tokens
  have hspec : List.Forall₂ (fun t x => t.kind = .identifier ∧
      (t.lexeme, t.position.line) = (x.name, x.line)) seen sightings := by
    refine .flip (hsightings.imp ?_)
    rintro x t ⟨us, front, t', back, after, hx, hts, before, hbefore⟩
    obtain ⟨rfl, hus⟩ := List.cons.inj hts
    obtain ⟨hline, hkind, hname, u, hu, hxline⟩ := hmade hx
    have hinfix : front ++ t :: back <:+: s.tokens := ⟨before, after, by rw [← hbefore, hus]; simp⟩
    have hmem : u ∈ front ++ t :: back := by
      rcases List.mem_append.mp hu with hu | hu
      · exact List.mem_append_left _ hu
      · exact List.mem_append_right _ (List.mem_singleton.mp hu ▸ List.mem_cons_self)
    refine ⟨hkind, Prod.ext hname ?_⟩
    exact (hs.line_eq hinfix hline u hmem t (by simp)).trans hxline
  obtain ⟨hkinds, hplaces⟩ := (List.forall₂_and_left _ _).mp hspec
  have hfilter := hseen.filter (·.kind = .identifier)
  rw [List.filter_eq_self.mpr (by simpa using hkinds)] at hfilter
  refine ⟨seen, hfilter, ?_⟩
  rw [← List.forall₂_eq_eq_eq]
  exact List.forall₂_map_left_iff.mpr (List.forall₂_map_right_iff.mpr hplaces)

variable {Agrees : Sighting α → β → Prop} {name : β → String} {line : β → Int}
  (hagrees : ∀ {x b}, Agrees x b → line b = x.line)
include hagrees

/-- A registry that follows the sightings in a text comes from there. -/
theorem provenance {text : String} {sightings : List (Sighting α)} {rest : List Token} {r : Registry β}
    (h : Course (MadeAt Made (.ofText text)) (Stream.ofText text).tokens sightings rest)
    (hfollows : r.Follows Agrees sightings) (hkeyed : r.Keyed name) :
    Provenance (scan text) sightings name line r := by
  obtain ⟨seen, hseen, hplaces⟩ := exists_seen hmade (Stream.inLines_ofText text) h
  have hscan := hseen.trans ((List.sublist_append_left _ [(Stream.ofText text).endToken]).filter _)
  refine ⟨⟨seen, hscan, hplaces, ?_⟩, fun b hb => ?_⟩
  · have hnames : seen.map (·.lexeme) = sightings.map (·.name) := by
      simpa [Function.comp_def] using congrArg (List.map Prod.fst) hplaces
    rw [hkeyed.map_values, hfollows.keys, hnames]
  · obtain ⟨entry, hentry, rfl⟩ := List.mem_map.mp hb
    obtain ⟨x, htelling, hx⟩ := hfollows.agrees entry hentry
    obtain ⟨hmem, hname⟩ := Sighting.mem_of_telling? htelling
    obtain ⟨t, ht, hplace⟩ : ∃ t ∈ seen, (t.lexeme, t.position.line) = (x.name, x.line) := by
      rw [← List.mem_map, hplaces]
      exact List.mem_map_of_mem hmem
    obtain ⟨htname, htline⟩ := Prod.mk.inj hplace
    obtain ⟨htokens, hkind⟩ := List.mem_filter.mp (hseen.subset ht)
    refine ⟨t, List.mem_append_left _ htokens, by simpa using hkind, ?_, ?_, ?_⟩
    · rw [htname, hname, hkeyed.named entry hentry]
    · rw [htline, hagrees hx]
    · rw [hagrees hx, ← htline]
      exact Stream.one_le_line htokens

end

namespace Flowchart

end Flowchart

/-- Whatever a text is like, and wherever its faults are, the edges of its flowchart and the relations
of its class diagram are those that it draws, in the order in which it draws them. -/
theorem diagrams_drawn (limit : Flowchart.Limit) (text : String) :
    Traced Flowchart.DrawnBy (Stream.ofText text).tokens (Flowchart.parse text limit).edges ∧
      Traced ClassDiagram.DrawnBy (Stream.ofText text).tokens (ClassDiagram.parse text).relations :=
  ⟨Flowchart.traced_edges limit text, ClassDiagram.traced_relations text⟩

end Mermaid
