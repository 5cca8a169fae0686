import Mathlib.Data.List.DropRight
import Mermaid.Token.Slice

/-! A line of a text with its white space outside strings cut down to single spaces, without its remark, and
with its last string closed. -/
namespace Mermaid
open Lexicon Slice

namespace Source

/-- What stands before the remark, which begins with the first `%%` outside a string. The flag says
whether the text begins inside a string. -/
def beforeRemark (quoted : Bool) : List Char → List Char
  | [] => []
  | c :: s =>
    if !quoted && "%%".toList.isPrefixOf (c :: s) then []
    else c :: beforeRemark (quoted != (c == '"')) s

/-- The text with the second mark of its last string, where that is missing. -/
def closeString (s : List Char) : List Char := if s.count '"' % 2 = 0 then s else s ++ ['"']

/-- One space in place of every run of white space outside strings. -/
def squeeze (quoted : Bool) : List Char → List Char
  | [] => []
  | c :: s =>
    if quoted || !isGap c then c :: squeeze (quoted != (c == '"')) s
    else if s.head?.any isGap then squeeze false s
    else ' ' :: squeeze false s

def trim (s : List Char) : List Char := (s.dropWhile isGap).rdropWhile isGap

/-- A line without its remark, its last string closed, with single spaces for white space. -/
def spaced (s : List Char) : List Char := squeeze false (closeString (beforeRemark false s))

/-- What is restored of a line from its tokens. -/
def restore (s : List Char) : List Char := trim (spaced s)

example : restore "\tA  -->\x0b B: \"x  %% y\"  %% z".toList = "A --> B: \"x  %% y\"".toList := by decide

/-- The rest of the first line of a text. -/
def lineOf (s : List Char) : List Char := s.takeWhile (!isBreak ·)

/-- A character that is no white space and begins no string and no remark. -/
def isInk (c : Char) : Bool := !isGap c && !isBreak c && c != '"' && c != '%'

/-- The characters of a token that is no string, in front of `rest`. -/
def Solid (span rest : List Char) : Prop :=
  (∀ c ∈ span, isInk c) ∨ span = ['%'] ∧ rest.head?.all (· != '%')

section spaced
variable {span rest text : List Char}

theorem Solid.quiet (h : Solid span rest) : ∀ c ∈ span, isGap c = false ∧ c ≠ '"' := by
  rcases h with h | ⟨rfl, -⟩
  · intro c hc
    have hink := h c hc
    simp only [isInk, Bool.and_eq_true, Bool.not_eq_true', bne_iff_ne] at hink
    exact ⟨hink.1.1.1, hink.1.2⟩
  · exact List.forall_mem_singleton.mpr (by decide)

theorem head?_lineOf {p : Char → Bool} {s : List Char} (h : s.head?.all p) : (lineOf s).head?.all p := by
  cases s with
  | nil => exact h
  | cons c s =>
    rw [lineOf, List.takeWhile_cons]
    split
    · exact h
    · rfl

theorem Solid.lineOf (h : Solid span rest) : Solid span (lineOf rest) :=
  h.imp_right fun ⟨hsign, hrest⟩ => ⟨hsign, head?_lineOf hrest⟩

private theorem beforeRemark_cons {c : Char} (s : List Char) (h : c ≠ '%' ∨ s.head?.all (· != '%')) :
    beforeRemark false (c :: s) = c :: beforeRemark (c == '"') s := by
  have hremark : "%%".toList.isPrefixOf (c :: s) = false := by
    rw [← Bool.not_eq_true, List.isPrefixOf_iff_prefix]
    rintro ⟨more, hmore⟩
    obtain ⟨rfl, rfl⟩ : '%' = c ∧ '%' :: more = s := List.cons.inj hmore
    exact h.elim (· rfl) (absurd · (by simp))
  rw [beforeRemark, hremark, if_neg (by simp), Bool.false_bne]

private theorem beforeRemark_unmarked (h : ∀ c ∈ span, c ≠ '"' ∧ c ≠ '%') (s : List Char) :
    beforeRemark false (span ++ s) = span ++ beforeRemark false s := by
  induction span with
  | nil => rfl
  | cons c span ih =>
    obtain ⟨⟨hquote, hpercent⟩, hspan⟩ := List.forall_mem_cons.mp h
    rw [List.cons_append, beforeRemark_cons _ (.inl hpercent), beq_eq_false_iff_ne.mpr hquote, ih hspan,
      List.cons_append]

private theorem beforeRemark_solid (h : Solid span rest) :
    beforeRemark false (span ++ rest) = span ++ beforeRemark false rest := by
  rcases h with h | ⟨rfl, hrest⟩
  · refine beforeRemark_unmarked (fun c hc => ?_) rest
    have hink := h c hc
    simp only [isInk, Bool.and_eq_true, bne_iff_ne] at hink
    exact ⟨hink.1.2, hink.2⟩
  · rw [List.singleton_append, beforeRemark_cons _ (.inr hrest)]
    rfl

private theorem beforeRemark_quoted (h : '"' ∉ text) (rest : List Char) :
    beforeRemark true (text ++ rest) = text ++ beforeRemark true rest := by
  induction text with
  | nil => rfl
  | cons c text ih =>
    obtain ⟨hc, htext⟩ := not_or.mp (List.mem_cons.not.mp h)
    have hquote : (c == '"') = false := beq_eq_false_iff_ne.mpr (Ne.symm hc)
    rw [List.cons_append, beforeRemark, if_neg (by simp), hquote, Bool.bne_false, ih htext, List.cons_append]

private theorem closeString_append (h : span.count '"' % 2 = 0) (s : List Char) :
    closeString (span ++ s) = span ++ closeString s := by
  have hcount : (span ++ s).count '"' % 2 = s.count '"' % 2 := by
    rw [List.count_append]
    omega
  rw [closeString, closeString, hcount]
  split
  · rfl
  · rw [List.append_assoc]

private theorem squeeze_quiet (h : ∀ c ∈ span, isGap c = false ∧ c ≠ '"') (s : List Char) :
    squeeze false (span ++ s) = span ++ squeeze false s := by
  induction span with
  | nil => rfl
  | cons c span ih =>
    obtain ⟨⟨hgap, hquote⟩, hspan⟩ := List.forall_mem_cons.mp h
    have hquote : (c == '"') = false := by simpa using hquote
    rw [List.cons_append, squeeze, if_pos (by simp [hgap]), hquote, Bool.false_bne, ih hspan, List.cons_append]

private theorem squeeze_quoted (h : '"' ∉ text) (s : List Char) :
    squeeze true (text ++ s) = text ++ squeeze true s := by
  induction text with
  | nil => rfl
  | cons c text ih =>
    obtain ⟨hc, htext⟩ := not_or.mp (List.mem_cons.not.mp h)
    have hquote : (c == '"') = false := beq_eq_false_iff_ne.mpr (Ne.symm hc)
    rw [List.cons_append, squeeze, if_pos (by simp), hquote, Bool.bne_false, ih htext, List.cons_append]

theorem spaced_solid (h : Solid span rest) : spaced (span ++ rest) = span ++ spaced rest := by
  have hcount : span.count '"' = 0 :=
    List.count_eq_zero.mpr fun hmem => (h.quiet '"' hmem).2 rfl
  rw [spaced, beforeRemark_solid h, closeString_append (by rw [hcount]), squeeze_quiet h.quiet, ← spaced]

theorem spaced_comment (remark : List Char) : spaced ('%' :: '%' :: remark) = [] := by
  simp [spaced, beforeRemark, List.isPrefixOf, closeString, squeeze]

/-- A string is kept as it is. -/
theorem spaced_closed (h : '"' ∉ text) (rest : List Char) :
    spaced ('"' :: (text ++ ['"']) ++ rest) = '"' :: (text ++ ['"']) ++ spaced rest := by
  have hbefore : beforeRemark false ('"' :: (text ++ ['"']) ++ rest) =
      '"' :: (text ++ ['"']) ++ beforeRemark false rest := by
    rw [List.cons_append, beforeRemark_cons _ (.inl (by decide)), beq_self_eq_true, List.append_assoc,
      beforeRemark_quoted h, List.singleton_append, beforeRemark, if_neg (by simp)]
    simp
  have hcount : ('"' :: (text ++ ['"'])).count '"' = 2 := by
    simp [List.count_eq_zero.mpr h]
  rw [spaced, hbefore, closeString_append (by rw [hcount]), spaced, List.cons_append, squeeze,
    if_pos (by decide), List.append_assoc, beq_self_eq_true, Bool.false_bne, squeeze_quoted h,
    List.singleton_append, squeeze, if_pos (by simp)]
  simp

theorem spaced_unclosed (h : '"' ∉ text) : spaced ('"' :: text) = '"' :: (text ++ ['"']) := by
  have hbefore : beforeRemark false ('"' :: text) = '"' :: text := by
    have hquoted := beforeRemark_quoted h []
    rw [List.append_nil, beforeRemark, List.append_nil] at hquoted
    rw [beforeRemark_cons _ (.inl (by decide)), beq_self_eq_true, hquoted]
  have hclose : closeString ('"' :: text) = '"' :: (text ++ ['"']) := by
    simp [closeString, List.count_eq_zero.mpr h]
  rw [spaced, hbefore, hclose, squeeze, if_pos (by decide), beq_self_eq_true, Bool.false_bne,
    squeeze_quoted h]
  rfl

private theorem head?_closeString {s : List Char} (h : s.head?.all (!isGap ·)) :
    (closeString s).head?.all (!isGap ·) := by
  cases s with
  | nil => exact h
  | cons c s =>
    rw [closeString]
    split <;> exact h

private theorem head?_beforeRemark {s : List Char} (h : s.head?.all (!isGap ·)) :
    (beforeRemark false s).head?.all (!isGap ·) := by
  cases s with
  | nil => exact h
  | cons c s =>
    rw [beforeRemark]
    split
    · rfl
    · exact h

theorem head?_spaced {s : List Char} (h : s.head?.all (!isGap ·)) :
    (spaced s).head?.all (!isGap ·) := by
  have hclosed := head?_closeString (head?_beforeRemark h)
  rw [spaced]
  cases hs : closeString (beforeRemark false s) with
  | nil => rfl
  | cons c rest =>
    rw [hs] at hclosed
    have hc : isGap c = false := by simpa using hclosed
    simp [squeeze, hc]

private theorem squeeze_gap (hne : span ≠ []) (h : ∀ c ∈ span, isGap c) {s : List Char}
    (hs : s.head?.all (!isGap ·)) : squeeze false (span ++ s) = ' ' :: squeeze false s := by
  induction span with
  | nil => exact absurd rfl hne
  | cons c span ih =>
    obtain ⟨hc, hspan⟩ := List.forall_mem_cons.mp h
    rw [List.cons_append, squeeze, if_neg (by simp [hc])]
    cases span with
    | nil =>
      have hnone : s.head?.any isGap = false := by
        cases hhead : s.head? <;> simp_all
      rw [List.nil_append, hnone, if_neg (by simp)]
    | cons d span =>
      have hd : isGap d := hspan d List.mem_cons_self
      rw [if_pos (by simpa using hd), ih (List.cons_ne_nil d span) hspan]

/-- A whole run of white space gives one space. -/
theorem spaced_gap (hne : span ≠ []) (h : ∀ c ∈ span, isGap c) (hrest : rest.head?.all (!isGap ·)) :
    spaced (span ++ rest) = ' ' :: spaced rest := by
  have hmarks : ∀ c ∈ span, c ≠ '"' ∧ c ≠ '%' := by
    intro c hc
    constructor <;> rintro rfl <;> exact absurd (h _ hc) (by decide)
  have hcount : span.count '"' = 0 := List.count_eq_zero.mpr fun hmem => (hmarks '"' hmem).1 rfl
  rw [spaced, beforeRemark_unmarked hmarks, closeString_append (by rw [hcount]),
    squeeze_gap hne h (head?_closeString (head?_beforeRemark hrest)), ← spaced]

end spaced

section trim
variable {s t : List Char}

theorem trim_space (s : List Char) : trim (' ' :: s) = trim s := by
  rw [trim, List.dropWhile_cons_of_pos (by decide), ← trim]

theorem trim_of_head? (h : s.head?.all (!isGap ·)) : trim s = s.rdropWhile isGap := by
  cases s with
  | nil => rfl
  | cons c s =>
    have hc : isGap c = false := by simpa using h
    rw [trim, List.dropWhile_cons_of_neg (by simp [hc])]

theorem rdropWhile_append (h : s.getLast?.any (!isGap ·)) (t : List Char) :
    (s ++ t).rdropWhile isGap = s ++ t.rdropWhile isGap := by
  induction t using List.reverseRecOn with
  | nil =>
    rw [List.append_nil, List.rdropWhile_nil, List.append_nil, List.rdropWhile_eq_self_iff]
    intro hne
    simpa [List.getLast?_eq_some_getLast hne] using h
  | append_singleton t c ih =>
    rw [← List.append_assoc, List.rdropWhile_concat, List.rdropWhile_concat, ih]
    split
    · rfl
    · rw [List.append_assoc]

end trim
end Source

end Mermaid
