import Mathlib.Data.List.Basic
import Mermaid.Text.Quoted
import Mermaid.Text.Transfer
import Mermaid.Text.WordChar

/-! Characters that a line can show, and texts that a pipe passes on as they are. -/
namespace Mermaid.Text

/-- Is a visible character of ASCII, or the space. -/
def Graphic (c : Char) : Prop := 0x20 ≤ c.toNat ∧ c.toNat < 0x7f

instance (c : Char) : Decidable (Graphic c) := inferInstanceAs (Decidable (_ ∧ _))

/-- Holds nothing but graphic characters. -/
def Legible (s : List Char) : Prop := ∀ c ∈ s, Graphic c

instance (s : List Char) : Decidable (Legible s) := List.decidableBAll (fun c : Char => Graphic c) s

theorem legible_cons {c : Char} {s : List Char} : Legible (c :: s) ↔ Graphic c ∧ Legible s :=
  List.forall_mem_cons

theorem legible_append {s t : List Char} : Legible (s ++ t) ↔ Legible s ∧ Legible t :=
  List.forall_mem_append

theorem legible_toDigits (n : Nat) : Legible (Nat.toDigits 10 n) := by
  intro c hc
  have hdigit := Nat.isDigit_of_mem_toDigits (b := 10) (by decide) (by decide) hc
  simp only [Char.isDigit, ge_iff_le, Bool.and_eq_true, decide_eq_true_eq] at hdigit
  exact ⟨Nat.le_trans (by decide) hdigit.1, Nat.lt_of_le_of_lt hdigit.2 (by decide)⟩

theorem legible_hexDigits (width n : Nat) : Legible (hexDigits width n) := by
  have hdigits : ∀ m < 16, Graphic (Nat.digitChar m) := by decide
  induction width generalizing n with
  | zero => exact List.forall_mem_nil _
  | succ width ih =>
    exact legible_append.mpr
      ⟨ih (n / 16), legible_cons.mpr ⟨hdigits _ (Nat.mod_lt n (by decide)), by decide⟩⟩

/-- A control character of ASCII, such as a line feed or an escape character. -/
def Control (c : Char) : Prop := c.toNat < 0x20

instance (c : Char) : Decidable (Control c) := inferInstanceAs (Decidable (_ < _))

theorem Graphic.not_control {c : Char} (h : Graphic c) : ¬ Control c := Nat.not_lt.mpr h.1

section lacks
variable {d : Char}

/-- The character is nowhere in the text. -/
def Lacks (d : Char) (s : String) : Prop := d ∉ s.toList

instance (s : String) : Decidable (Lacks d s) := inferInstanceAs (Decidable (¬ _))

@[simp] theorem lacks_append {s t : String} : Lacks d (s ++ t) ↔ Lacks d s ∧ Lacks d t := by
  simp [Lacks]

theorem lacks_join {texts : List String} (h : ∀ s ∈ texts, Lacks d s) : Lacks d (String.join texts) := by
  induction texts with
  | nil => exact List.not_mem_nil
  | cons s texts ih =>
    obtain ⟨hs, htexts⟩ := List.forall_mem_cons.mp h
    rw [String.join_cons, lacks_append]
    exact ⟨hs, ih htexts⟩

theorem lacks_intercalate {separator : String} {texts : List String} (hseparator : Lacks d separator)
    (h : ∀ s ∈ texts, Lacks d s) : Lacks d (separator.intercalate texts) := by
  induction texts with
  | nil =>
    rw [String.intercalate_nil]
    exact List.not_mem_nil
  | cons s texts ih =>
    obtain ⟨hs, htexts⟩ := List.forall_mem_cons.mp h
    cases texts with
    | nil => rwa [String.intercalate_singleton]
    | cons t texts =>
      rw [String.intercalate_cons_cons, lacks_append, lacks_append]
      exact ⟨⟨hs, hseparator⟩, ih htexts⟩

variable (hd : Control d)
include hd

theorem lacks_of_legible {s : String} (h : Legible s.toList) : Lacks d s :=
  fun hmem => (h _ hmem).not_control hd

theorem lacks_toString (n : Nat) : Lacks d (toString n) := by
  refine lacks_of_legible hd ?_
  rw [show (toString n).toList = Nat.toDigits 10 n from Nat.toList_repr]
  exact legible_toDigits n

end lacks

/-- Holds no escape character, and so no control sequence. -/
def Inert (s : String) : Prop := '\x1b' ∉ s.toList

instance (s : String) : Decidable (Inert s) := inferInstanceAs (Decidable (¬ _))

theorem plainAfter_eq_self {s : List Char} (h : '\x1b' ∉ s) : plainAfter 0 s = s := by
  induction s with
  | nil => rfl
  | cons c s ih =>
    obtain ⟨hc, hs⟩ := not_or.mp (mt List.mem_cons.mpr h)
    have hnone : sequenceLength? (c :: s) = none := by
      rw [sequenceLength?]
      rintro t ht
      exact hc (List.cons.inj ht).1.symm
    rw [plainAfter, hnone]
    exact congrArg (c :: ·) (ih hs)

theorem Inert.plain_eq_self {s : String} (h : Inert s) : plain s = s := by
  rw [plain, plainAfter_eq_self h, String.ofList_toList]

theorem legible_numeral (c : Char) : Legible (Quoted.numeral c) := by
  have hall : ∀ (mark : Char) (width : Nat), Graphic mark →
      Legible ('\\' :: mark :: hexDigits width c.toNat) := fun mark width hmark =>
    legible_cons.mpr ⟨by decide, legible_cons.mpr ⟨hmark, legible_hexDigits _ _⟩⟩
  rw [Quoted.numeral]
  split_ifs
  · exact hall 'x' 2 (by decide)
  · exact hall 'u' 4 (by decide)
  · exact hall 'U' 8 (by decide)

/-- A character is written as itself, if it is printable, and else with graphic ones. -/
theorem mem_escape {quote c d : Char} (hquote : Graphic quote) (h : d ∈ Quoted.escape quote c) :
    Graphic d ∨ d = c ∧ isPrintable c := by
  unfold Quoted.escape at h
  split at h
  · rename_i hescaped
    have hc : c = quote ∨ c = '\\' := by simpa using hescaped
    rcases List.mem_pair.mp h with rfl | rfl
    · exact .inl (by decide)
    · exact .inl (hc.elim (· ▸ hquote) (· ▸ by decide))
  split at h
  · exact .inl ((by decide : Legible ['\\', 'n']) d h)
  · exact .inl ((by decide : Legible ['\\', 'r']) d h)
  · exact .inl ((by decide : Legible ['\\', 't']) d h)
  · split_ifs at h with hprintable
    · exact .inr ⟨List.mem_singleton.mp h, hprintable⟩
    · exact .inl (legible_numeral c d h)

/-- Control characters are not printable, and are in no word. -/
theorem Control.hidden {d : Char} (h : Control d) : isPrintable d = false ∧ isWord d = false := by
  have hall : ∀ n < 0x20, isPrintable (.ofNat n) = false ∧ isWord (.ofNat n) = false := by decide
  rw [← Char.ofNat_toNat d]
  exact hall _ h

/-- Between quotes there is no control character: like all that is not printable, it is written as a
numeral. -/
theorem lacks_quote {d : Char} (hd : Control d) (s : String) : Lacks d (quote s) := by
  have hmark : ∀ cs, Graphic (Quoted.mark cs) := by
    intro cs
    rw [Quoted.mark]
    split <;> decide
  have hother : ∀ cs, d ≠ Quoted.mark cs := fun cs hsame => (hsame ▸ hmark cs).not_control hd
  rw [Lacks, quote, String.toList_ofList, Quoted.encode]
  intro h
  obtain ⟨c, -, hc⟩ : ∃ c ∈ s.toList, d ∈ Quoted.escape (Quoted.mark s.toList) c := by
    simpa [hother] using h
  rcases mem_escape (hmark _) hc with hgraphic | ⟨rfl, hprintable⟩
  · exact hgraphic.not_control hd
  · rw [hd.hidden.1] at hprintable
    cases hprintable

end Mermaid.Text
