import Mermaid.Proofs.Json.RoundTrip
import Mermaid.Proofs.Text.Graphic

/-! Whatever the characters of its strings, a value is printed in ASCII, with line feeds and no other
control characters. -/
namespace Mermaid.Json
open Text

/-- A text without a character beyond ASCII. -/
def Ascii (s : List Char) : Prop := ∀ c ∈ s, c.toNat < 0x80

instance (s : List Char) : Decidable (Ascii s) := List.decidableBAll (fun c : Char => c.toNat < 0x80) s

theorem Ascii.append {s t : List Char} (hs : Ascii s) (ht : Ascii t) : Ascii (s ++ t) :=
  List.forall_mem_append.mpr ⟨hs, ht⟩

/-- A text of lines that show every character in them. -/
def Visible (s : List Char) : Prop := ∀ c ∈ s, Graphic c ∨ c = '\n'

instance (s : List Char) : Decidable (Visible s) :=
  List.decidableBAll (fun c : Char => Graphic c ∨ c = '\n') s

namespace Visible
variable {s t : List Char} {c : Char}

theorem of_legible (h : Legible s) : Visible s := fun c hc => .inl (h c hc)

theorem cons (hc : Graphic c) (hs : Visible s) : Visible (c :: s) :=
  List.forall_mem_cons.mpr ⟨.inl hc, hs⟩

theorem append (hs : Visible s) (ht : Visible t) : Visible (s ++ t) :=
  List.forall_mem_append.mpr ⟨hs, ht⟩

theorem flatMap {α : Type} {as : List α} {f : α → List Char} (h : ∀ a ∈ as, Visible (f a)) :
    Visible (as.flatMap f) := by
  intro c hc
  obtain ⟨a, ha, hca⟩ := List.mem_flatMap.mp hc
  exact h a ha c hca

end Visible

theorem visible_unit (n : Nat) : Visible (unit n) :=
  .cons (by decide) (.cons (by decide) (.of_legible (legible_hexDigits 4 n)))

theorem visible_escape (c : Char) : Visible (escape c) := by
  unfold escape
  split
  iterate 7 decide
  dsimp only
  split
  · rename_i hprintable
    rw [Bool.and_eq_true, decide_eq_true_eq, decide_eq_true_eq] at hprintable
    exact .cons hprintable (by decide)
  split
  · exact visible_unit _
  · exact (visible_unit _).append (visible_unit _)

theorem visible_string (s : String) : Visible (string s) :=
  .append (.cons (by decide) (.flatMap fun c _ => visible_escape c)) (by decide)

theorem legible_toString (n : Int) : Legible (toString n).toList := by
  rcases toList_toString n with ⟨m, -, htext⟩ | ⟨m, -, htext⟩
  · exact htext ▸ legible_toDigits m
  · exact htext ▸ legible_cons.mpr ⟨by decide, legible_toDigits m⟩

theorem visible_newline (level : Nat) : Visible (newline level) :=
  .append (s := ['\n']) (by decide) fun c hc => (List.mem_replicate.mp hc).2 ▸ .inl (by decide)

theorem visible_enclose {start stop : Char} {lines : List (List Char)} (level : Nat)
    (hstart : Graphic start) (hstop : Graphic stop) (h : ∀ line ∈ lines, Visible line) :
    Visible (enclose start stop level lines) := by
  cases lines with
  | nil => exact .cons hstart (.cons hstop (by decide))
  | cons line more =>
    obtain ⟨hline, hmore⟩ := List.forall_mem_cons.mp h
    have hnext : Visible (more.flatMap fun l => ',' :: newline (level + 1) ++ l) :=
      .flatMap fun l hl => .append (.cons (by decide) (visible_newline _)) (hmore l hl)
    exact .append (.append (.append (.append (.cons hstart (visible_newline _)) hline) hnext)
      (visible_newline _)) (.cons hstop (by decide))

mutual
theorem visible_print (level : Nat) : (v : Json) → Visible (print level v)
  | null | bool true | bool false => by rw [print]; decide
  | int n => by
    rw [print]
    exact .of_legible (legible_toString n)
  | str s => by
    rw [print]
    exact visible_string s
  | arr items => by
    rw [print]
    exact visible_enclose level (by decide) (by decide) (visible_printItems (level + 1) items)
  | obj fields => by
    rw [print]
    exact visible_enclose level (by decide) (by decide) (visible_printFields (level + 1) fields)

theorem visible_printItems (level : Nat) :
    (items : List Json) → ∀ line ∈ printItems level items, Visible line
  | [] => List.forall_mem_nil _
  | v :: items => List.forall_mem_cons.mpr ⟨visible_print level v, visible_printItems level items⟩

theorem visible_printFields (level : Nat) :
    (fields : List (String × Json)) → ∀ line ∈ printFields level fields, Visible line
  | [] => List.forall_mem_nil _
  | (key, v) :: fields => List.forall_mem_cons.mpr
    ⟨.append (visible_string key) (.cons (by decide) (.cons (by decide) (visible_print level v))),
      visible_printFields level fields⟩
end

theorem visible_render (v : Json) : Visible v.render.toList := by
  rw [render, String.toList_ofList]
  exact visible_print 0 v

theorem ascii_render (v : Json) : Ascii v.render.toList := by
  intro c hc
  rcases visible_render v c hc with hgraphic | rfl
  · exact hgraphic.2.trans (by decide)
  · decide

theorem inert_render (v : Json) : Inert v.render :=
  fun hmem => absurd (visible_render v _ hmem) (by decide)

/-- The text of an object ends with its closing bracket. -/
theorem getLast?_render_obj (fields : List (String × Json)) :
    (obj fields).render.toList.getLast? = some '\x7d' := by
  rw [render, String.toList_ofList, print]
  cases printFields (0 + 1) fields with
  | nil => rfl
  | cons line more => exact List.getLast?_concat

end Mermaid.Json
