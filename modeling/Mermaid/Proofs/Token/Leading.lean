import Mathlib.Data.List.Basic
import Mermaid.Token.Slice

/-! How a text falls into slices, one slice after the other, and what the entries of the lexicon
make of a text by its first characters. -/
namespace Mermaid
open Lexicon

namespace Slice

theorem ofTextAfter_eq (skip : Nat) (s : List Char) : ofTextAfter skip s = ofText (s.drop skip) := by
  induction s generalizing skip with
  | nil => cases skip <;> rfl
  | cons c s ih =>
    cases skip with
    | zero => rfl
    | succ skip => simpa [ofTextAfter] using ih skip

/-- A text that begins with the slice and goes on with `rest` has it cut off first. -/
def Leads (slice : Slice) (rest : List Char) : Prop :=
  ofText (slice.span ++ rest) = slice :: ofText rest

theorem leads_of_cut {c : Char} {s rest : List Char} {token? : Option (TokenKind × List Char)}
    (h : cut c (s ++ rest) = ⟨c :: s, token?⟩) : Leads ⟨c :: s, token?⟩ rest := by
  have hs : ofText (c :: (s ++ rest)) = cut c (s ++ rest) ::
      ofTextAfter ((cut c (s ++ rest)).span.length - 1) (s ++ rest) := rfl
  rw [h, ofTextAfter_eq] at hs
  simpa [Leads] using hs

theorem newline_leads (rest : List Char) : Leads ⟨['\n'], some (.newline, ['\n'])⟩ rest :=
  leads_of_cut rfl

theorem space_leads {rest : List Char} (h : rest.head?.all (!isGap ·)) :
    Leads ⟨[' '], none⟩ rest := by
  apply leads_of_cut
  cases rest with
  | nil => rfl
  | cons c rest =>
    have hc : isGap c = false := by simpa using h
    have hg : isGap ' ' = true := rfl
    simp only [List.nil_append, cut, hg, if_true, List.takeWhile_cons, hc, Bool.false_eq_true,
      if_false]

theorem leads_of_spelled {c : Char} {s rest : List Char} {token : TokenKind × List Char}
    (hgap : isGap c = false) (hbreak : isBreak c = false)
    (h : spelled? (c :: (s ++ rest)) = some ⟨c :: s, some token⟩) :
    Leads ⟨c :: s, some token⟩ rest := by
  apply leads_of_cut
  have hb : breakLength? (c :: (s ++ rest)) = none := by
    unfold breakLength?
    split <;> simp_all [isBreak]
  rw [cut, hgap, hb]
  simp [h]

end Slice

namespace Lexicon

/-- The slice that an entry takes from the head of a text. -/
def Entry.slice? (e : Entry) (s : List Char) : Option Slice :=
  (e.length? s).map fun n => ⟨s.take n, some (e.read (s.take n))⟩

/-- The link at the head of a text, by its length and its kind. -/
def link? (s : List Char) : Option (Nat × TokenKind) :=
  links.findSome? fun (p, kind) => (p.length? s).map (·, kind)

/-- The delimiter or mark at the head of a text. -/
def sign? (s : List Char) : Option (String × TokenKind) :=
  punctuation.find? fun (x, _) => x.toList.isPrefixOf s

private theorem findSome_links (s : List Char) :
    (links.map fun (p, kind) => ofPattern kind p).findSome? (Entry.slice? · s) =
      (link? s).map fun (n, kind) => ⟨s.take n, some (kind, s.take n)⟩ := by
  rw [link?, List.findSome?_map, List.map_findSome?]
  congr 1
  funext ⟨p, kind⟩
  simp [Entry.slice?, ofPattern, Function.comp_def]

private theorem findSome_punctuation (l : List (String × TokenKind)) (s : List Char) :
    (l.map fun (x, kind) => ofPattern kind (x : Pattern)).findSome? (Entry.slice? · s) =
      (l.find? fun (x, _) => x.toList.isPrefixOf s).map fun (x, kind) =>
        ⟨x.toList, some (kind, x.toList)⟩ := by
  induction l with
  | nil => rfl
  | cons e l ih =>
    obtain ⟨x, kind⟩ := e
    rw [List.map_cons, List.findSome?_cons, List.find?_cons]
    cases hx : x.toList.isPrefixOf s with
    | false =>
      have hs : (ofPattern kind (x : Pattern)).slice? s = none := by
        simp only [Entry.slice?, ofPattern, Pattern.length?, hx, Bool.false_eq_true, if_false,
          Option.map_none]
      simp only [hs, hx, ih]
    | true =>
      have ht := List.prefix_iff_eq_take.mp (List.isPrefixOf_iff_prefix.mp hx)
      simp only [Entry.slice?, ofPattern, Pattern.length?, hx, if_true, Option.map_some, ← ht]

/-- What no comment and no string begins is a link, a word, or a mark. -/
theorem spelled?_eq {c : Char} {s : List Char} (hc : "%%".toList.isPrefixOf (c :: s) = false)
    (hs : c ≠ '"') : Slice.spelled? (c :: s) =
      ((link? (c :: s)).map fun (n, kind) =>
        (⟨(c :: s).take n, some (kind, (c :: s).take n)⟩ : Slice)).or
      ((word.slice? (c :: s)).or
      ((sign? (c :: s)).map fun (x, kind) => ⟨x.toList, some (kind, x.toList)⟩)) := by
  have hcomment : comment.slice? (c :: s) = none := by
    have : comment.length? (c :: s) = none := by
      simp only [comment]
      split <;> simp_all
    rw [Entry.slice?, this, Option.map_none]
  have hstring : string.slice? (c :: s) = none := by
    have : string.length? (c :: s) = none := by
      simp only [string]
      split <;> simp_all
    rw [Entry.slice?, this, Option.map_none]
  have he : Slice.spelled? (c :: s) = entries.findSome? (Entry.slice? · (c :: s)) := rfl
  rw [he, entries, List.findSome?_append, List.findSome?_cons, hcomment, List.findSome?_cons,
    hstring, findSome_links, List.findSome?_cons, sign?, ← findSome_punctuation]
  cases word.slice? (c :: s) <;> rfl

end Lexicon
end Mermaid
