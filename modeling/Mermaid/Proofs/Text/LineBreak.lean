import Mathlib.Data.List.Basic
import Mermaid.Text.Transfer

/-! Line breaks of a text that is put together from two. -/
namespace Mermaid.Text

/-- No line break is cut in two between the texts. -/
def Apart (s t : List Char) : Prop := s.getLast? = some '\r' → t.head? ≠ some '\n'

theorem Apart.tail {c : Char} {s t : List Char} (h : Apart (c :: s) t) : Apart s t := by
  intro hs
  refine h ?_
  cases s with
  | nil => cases hs
  | cons d s => rwa [List.getLast?_cons_cons]

theorem unifyBreaks_return {s : List Char} (h : s.head? ≠ some '\n') :
    unifyBreaks ('\r' :: s) = '\n' :: unifyBreaks s := by
  cases s with
  | nil => rfl
  | cons c s =>
    rw [unifyBreaks]
    rintro t ht
    exact h (congrArg List.head? ht)

theorem unifyBreaks_cons {c : Char} (hc : c ≠ '\r') (s : List Char) :
    unifyBreaks (c :: s) = c :: unifyBreaks s := by
  rw [unifyBreaks]
  · exact fun _ ht => absurd ht hc
  · exact hc

theorem unifyBreaks_append {s t : List Char} (h : Apart s t) :
    unifyBreaks (s ++ t) = unifyBreaks s ++ unifyBreaks t := by
  fun_induction unifyBreaks s with
  | case1 s ih => simp only [List.cons_append, unifyBreaks, ih h.tail.tail]
  | case2 s hs ih =>
    have hhead : s.head? ≠ some '\n' := by
      cases s with
      | nil => simp
      | cons d s =>
        rintro hd
        obtain rfl : d = '\n' := by simpa using hd
        exact hs s rfl
    have hboth : (s ++ t).head? ≠ some '\n' := by
      cases s with
      | nil => exact h rfl
      | cons d s => exact hhead
    rw [List.cons_append, unifyBreaks_return hboth, ih h.tail, List.cons_append]
  | case3 c s _ hc ih =>
    rw [List.cons_append, unifyBreaks_cons hc, ih h.tail, List.cons_append]
  | case4 => rfl

theorem unifyBreaks_eq_self {s : List Char} (h : '\r' ∉ s) : unifyBreaks s = s := by
  induction s with
  | nil => rfl
  | cons c s ih =>
    rw [List.mem_cons, not_or] at h
    rw [unifyBreaks_cons (Ne.symm h.1), ih h.2]

/-- How many line breaks a text has; a carriage return and a line feed right behind it are one. -/
def breakCount (s : List Char) : Nat := (unifyBreaks s).count '\n'

theorem breakCount_append {s t : List Char} (h : Apart s t) :
    breakCount (s ++ t) = breakCount s + breakCount t := by
  rw [breakCount, unifyBreaks_append h, List.count_append]
  rfl

end Mermaid.Text
