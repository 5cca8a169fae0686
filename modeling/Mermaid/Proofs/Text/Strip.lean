import Mathlib.Data.List.Basic
import Mermaid.Text.Blank
import Mermaid.Text.WordChar

/-! Texts that begin and end with characters that are not blank, among them all words and what is
put together from words. -/
namespace Mermaid.Text

private theorem ranges_apart :
    ∀ r ∈ wordRanges, ∀ b ∈ blankRanges, r.2 < b.1 ∨ b.2 < r.1 := by
  decide +kernel

private theorem blankRanges_ascii : ∀ b ∈ blankRanges, b.2 < 0x30 ∨ 0x80 ≤ b.1 := by decide

private theorem toNat_of_ascii_word {c : Char} (h : (c.isAlphanum || c == '_') = true) :
    0x30 ≤ c.toNat := by
  have hsmall : ∀ n < 0x30, ((Char.ofNat n).isAlphanum || Char.ofNat n == '_') = false := by decide
  by_contra hlt
  have hc := hsmall c.toNat (by omega)
  rw [Char.ofNat_toNat, h] at hc
  cases hc

theorem isBlank_of_isWord {c : Char} (h : isWord c) : isBlank c = false := by
  rw [← Bool.not_eq_true]
  intro hb
  simp only [isBlank, inRanges, List.any_eq_true, Bool.and_eq_true, decide_eq_true_eq] at hb
  obtain ⟨b, hb, hlo, hhi⟩ := hb
  rw [isWord] at h
  split at h
  · rename_i hc
    have hlow : c.toNat < 0x80 := hc
    have hword := toNat_of_ascii_word h
    have := blankRanges_ascii b hb
    omega
  · simp only [inRanges, List.any_eq_true, Bool.and_eq_true, decide_eq_true_eq] at h
    obtain ⟨r, hr, hrlo, hrhi⟩ := h
    have := ranges_apart r hr b hb
    omega

theorem mem_of_mem_strip {s : List Char} {c : Char} (h : c ∈ strip s) : c ∈ s := by
  rw [strip, List.mem_reverse] at h
  exact (List.dropWhile_sublist _).mem (List.mem_reverse.mp ((List.dropWhile_sublist _).mem h))

private theorem filter_dropWhile_blank (s : List Char) :
    (s.dropWhile isBlank).filter (!isBlank ·) = s.filter (!isBlank ·) := by
  induction s with
  | nil => rfl
  | cons c s ih => cases hc : isBlank c <;> simp [hc, ih]

/-- Blanks are all that a text loses at its ends. -/
theorem filter_strip (s : List Char) : (strip s).filter (!isBlank ·) = s.filter (!isBlank ·) := by
  rw [strip, List.filter_reverse, filter_dropWhile_blank, List.filter_reverse, List.reverse_reverse,
    filter_dropWhile_blank]

/-- Neither begins nor ends with a blank, and is not empty. -/
structure Unpadded (s : List Char) : Prop where
  ne_nil : s ≠ []
  head : ∀ c ∈ s.head?, isBlank c = false
  last : ∀ c ∈ s.getLast?, isBlank c = false

namespace Unpadded

theorem strip_eq {s : List Char} (h : Unpadded s) : strip s = s := by
  have hd : ∀ t : List Char, (∀ c ∈ t.head?, isBlank c = false) → t.dropWhile isBlank = t := by
    intro t ht
    cases t with
    | nil => rfl
    | cons c t => simp [ht c rfl]
  have hr : ∀ c ∈ s.reverse.head?, isBlank c = false := by
    rw [List.head?_reverse]
    exact h.last
  rw [strip, hd s h.head, hd _ hr, List.reverse_reverse]

theorem append {s t : List Char} (hs : Unpadded s) (ht : Unpadded t) (mid : List Char) :
    Unpadded (s ++ mid ++ t) where
  ne_nil := by simp [hs.ne_nil]
  head := by simpa [List.head?_append_of_ne_nil _ hs.ne_nil, hs.ne_nil] using hs.head
  last := by
    rw [List.getLast?_append_of_ne_nil _ ht.ne_nil]
    exact ht.last

/-- Unpadded texts with a space between each two are unpadded. -/
theorem intercalate {ws : List String} (hne : ws ≠ []) (h : ∀ w ∈ ws, Unpadded w.toList) :
    Unpadded (" ".intercalate ws).toList := by
  induction ws with
  | nil => exact absurd rfl hne
  | cons w ws ih =>
    have hw := h w List.mem_cons_self
    cases ws with
    | nil => rwa [String.intercalate_singleton]
    | cons v ws =>
      have hv := ih (List.cons_ne_nil v ws) fun u hu => h u (List.mem_cons_of_mem w hu)
      rw [String.intercalate_cons_cons, String.toList_append, String.toList_append]
      exact hw.append hv _

end Unpadded

theorem stripped_eq {s : String} (h : Unpadded s.toList) : stripped s = s := by
  rw [stripped, h.strip_eq, String.ofList_toList]

/-- Joined words are the words with single spaces between them and nothing around them. -/
theorem joinWords_eq {ws : List String} (h : ∀ w ∈ ws, Unpadded w.toList) :
    joinWords ws = " ".intercalate ws := by
  cases ws with
  | nil => rfl
  | cons w ws => exact stripped_eq (.intercalate (List.cons_ne_nil w ws) h)

end Mermaid.Text
