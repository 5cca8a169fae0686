import Mermaid.Proofs.Token.Adjacent
import Mermaid.Proofs.Token.Places

/-! Texts with their white space cut down. Outside strings and comments a run of it says no more than
one space does, and nothing at the ends of a line: a text and the text without such white space are cut
into the same slices but for the white space itself. -/
namespace Mermaid
open Lexicon Text

/-- Ends with a line break, if it is not empty. -/
def Ended (s : List Char) : Prop := ∀ c ∈ s.getLast?, isBreak c

instance {s : List Char} : Decidable (Ended s) :=
  decidable_of_iff (s.getLast?.all isBreak) <| by
    rw [Ended]
    cases s.getLast? <;> simp

theorem Ended.of_append {x rest : List Char} (h : Ended (x ++ rest)) : Ended rest := by
  intro c hc
  have hne : rest ≠ [] := by
    rintro rfl
    cases hc
  exact h c (List.getLast?_append_of_ne_nil x hne ▸ hc)

/-- Something of a line with nothing behind it does not end with a line break. -/
theorem Ended.ne_nil {x rest : List Char} (h : Ended (x ++ rest)) (hx : x.getLast?.any (!isBreak ·)) :
    rest ≠ [] := by
  rintro rfl
  rw [List.append_nil] at h
  cases hlast : x.getLast? with
  | none => simp [hlast] at hx
  | some c =>
    have hc := h c hlast
    simp [hlast, hc] at hx

namespace Slice

/-- The slices with one space in place of every run of white space that is kept, and without the
others. The characters before and behind a run, where there are any, say whether it is kept. -/
def respaced (kept : Option Char → Option Char → Bool) (before : Option Char) : List Slice → List Slice
  | [] => []
  | s :: slices =>
    let more := respaced kept s.span.getLast? slices
    if s.token?.isSome then s :: more
    else if kept before (slices.head?.bind (·.span.head?)) then ⟨[' '], none⟩ :: more
    else more

/-- A run inside a line: there is something of the line before it and behind it. -/
def inside (before behind : Option Char) : Bool := before.any (!isBreak ·) && behind.any (!isBreak ·)

/-- A run inside a line, or one that alone keeps a carriage return from being one break with a line
feed. -/
def parting (before behind : Option Char) : Bool :=
  inside before behind || before == some '\r' && behind == some '\n'

/-- Behind something of a line, what is left out of white space is at the end of the line. -/
theorem isBreak_of_not_parting {before behind : Option Char} (hbefore : before.any (!isBreak ·))
    (h : parting before behind = false) : behind.all isBreak := by
  cases behind with
  | none => rfl
  | some b =>
    have hboth : isBreak b = true ∧ (before = some '\r' → ¬ b = '\n') := by
      simpa [parting, inside, hbefore] using h
    exact hboth.1

/-- A text with its white space cut down, behind the character `before`. -/
def respell (kept : Option Char → Option Char → Bool) (before : Option Char) (s : List Char) :
    List Char :=
  (respaced kept before (ofText s)).flatMap (·.span)

variable {kept : Option Char → Option Char → Bool} {before : Option Char} {c : Char}
  {s rest rest' : List Char}

theorem head?_ofText (s : List Char) : (ofText s).head?.bind (·.span.head?) = s.head? := by
  cases s with
  | nil => rfl
  | cons c s =>
    obtain ⟨rest, hspan, htile⟩ := exists_tile_cut c s
    obtain ⟨d, x, hx⟩ := List.exists_cons_of_ne_nil htile.span_ne_nil
    rw [ofText_cons hspan, List.head?_cons, Option.bind_some, hx, List.head?_cons, List.head?_cons]
    rw [hx] at hspan
    exact congrArg some (List.cons.inj hspan).1

theorem isSome_token? (hgap : isGap c = false) (s : List Char) : (cut c s).token?.isSome := by
  rw [cut, if_neg (by simp [hgap])]
  split
  · rfl
  · cases hs : spelled? (c :: s) with
    | none => rfl
    | some slice =>
      obtain ⟨e, -, hread⟩ := List.exists_of_findSome?_eq_some hs
      obtain ⟨n, -, rfl⟩ := Option.map_eq_some_iff.mp hread
      rfl

theorem respaced_token (hspan : (cut c s).span ++ rest = c :: s) (hgap : isGap c = false) :
    respaced kept before (ofText (c :: s)) =
      cut c s :: respaced kept (cut c s).span.getLast? (ofText rest) := by
  rw [ofText_cons hspan, respaced, if_pos (isSome_token? hgap s)]

theorem cut_gap (hgap : isGap c) (s : List Char) : cut c s = ⟨c :: s.takeWhile isGap, none⟩ := by
  rw [cut, if_pos hgap]

/-- A run of white space gives way to a space, or to nothing. -/
theorem respaced_gap (kept : Option Char → Option Char → Bool) (before : Option Char) (hgap : isGap c)
    (s : List Char) : ∃ last,
    respaced kept before (ofText (c :: s)) =
      (if kept before (s.dropWhile isGap).head? then [⟨[' '], none⟩] else []) ++
        respaced kept last (ofText (s.dropWhile isGap)) := by
  have hspan : (cut c s).span ++ s.dropWhile isGap = c :: s := by
    rw [cut_gap hgap, List.cons_append, List.takeWhile_append_dropWhile]
  refine ⟨(cut c s).span.getLast?, ?_⟩
  rw [ofText_cons hspan, respaced, if_neg (by simp [cut_gap hgap]), head?_ofText]
  split <;> rfl

theorem respell_token (hspan : (cut c s).span ++ rest = c :: s) (hgap : isGap c = false) :
    respell kept before (c :: s) =
      (cut c s).span ++ respell kept (cut c s).span.getLast? rest := by
  rw [respell, respaced_token hspan hgap, List.flatMap_cons, ← respell]

theorem respell_gap (kept : Option Char → Option Char → Bool) (before : Option Char) (hgap : isGap c)
    (s : List Char) : ∃ last,
    respell kept before (c :: s) =
      (if kept before (s.dropWhile isGap).head? then [' '] else []) ++
        respell kept last (s.dropWhile isGap) := by
  obtain ⟨last, hlast⟩ := respaced_gap kept before hgap s
  refine ⟨last, ?_⟩
  rw [respell, hlast, List.flatMap_append, ← respell]
  split <;> rfl

/-- A text goes on to begin with what is no white space. -/
theorem head?_respell (hs : s.head?.all (!isGap ·)) : (respell kept before s).head? = s.head? := by
  cases s with
  | nil => rfl
  | cons c s =>
    obtain ⟨rest, hspan, htile⟩ := exists_tile_cut c s
    rw [respell_token hspan (by simpa using hs), List.head?_append_of_ne_nil _ htile.span_ne_nil,
      ← hspan, List.head?_append_of_ne_nil _ htile.span_ne_nil]

theorem eq_dropWhile (hspan : (cut c s).span ++ rest = c :: s) (hgap : isGap c) :
    rest = s.dropWhile isGap := by
  have htext : (cut c s).span ++ s.dropWhile isGap = c :: s := by
    rw [cut_gap hgap, List.cons_append, List.takeWhile_append_dropWhile]
  exact List.append_cancel_left (hspan.trans htext.symm)

theorem head?_dropWhile (s : List Char) : (s.dropWhile isGap).head?.all (!isGap ·) := by
  have hhead := List.head?_dropWhile_not isGap s
  cases h : (s.dropWhile isGap).head? <;> simp_all

/-- A slice of a line ends with a character of the line. -/
theorem any_getLast? (hspan : (cut c s).span ++ rest = c :: s) (htile : (cut c s).Tile rest)
    (hc : isBreak c = false) : (cut c s).span.getLast?.any (!isBreak ·) := by
  have hline : Unbroken (cut c s).span := htile.unbroken_span hc hspan
  rw [List.getLast?_eq_some_getLast htile.span_ne_nil, Option.any_some,
    hline _ (List.getLast_mem htile.span_ne_nil)]
  rfl

/-- White space that is cut down behind something of a line leaves white space or a line break, if the
text goes on. -/
private theorem exists_white_respell (hgap : isGap c) (hbefore : before.any (!isBreak ·))
    (hleft : s.dropWhile isGap ≠ []) :
    ∃ w ∈ white, ∃ more, respell parting before (c :: s) = w :: more := by
  obtain ⟨last, hlast⟩ := respell_gap parting before hgap s
  rw [hlast]
  split
  · exact ⟨' ', by decide, _, rfl⟩
  · rename_i hkept
    obtain ⟨b, more, hb⟩ := List.exists_cons_of_ne_nil hleft
    have hbreak := isBreak_of_not_parting hbefore (Bool.eq_false_iff.mpr hkept)
    have hhead : (respell parting last (s.dropWhile isGap)).head? = (s.dropWhile isGap).head? :=
      head?_respell (head?_dropWhile s)
    rw [hb, List.head?_cons] at hbreak hhead
    obtain ⟨more', hmore'⟩ := List.head?_eq_some_iff.mp hhead
    exact ⟨b, mem_white_iff.mpr (.inr hbreak), more', hb ▸ hmore'⟩

/-- The same up to white space or a line break, and the same break if they begin with one. -/
structure Meets (rest rest' : List Char) : Prop where
  white : ∃ l, ∃ w ∈ white, ∃ w' ∈ white, ∃ more more',
    rest = l ++ w :: more ∧ rest' = l ++ w' :: more'
  lineBreak : ∀ b ∈ rest.head?, isBreak b → rest'.head? = some b

/-- What follows a slice of a line is the same as far as that slice can tell. -/
theorem meets_respell (hne : s ≠ []) (hs : Ended s) (hbefore : before.any (!isBreak ·)) :
    Meets s (respell parting before s) := by
  induction s using cut_induction generalizing before with
  | nil => exact absurd rfl hne
  | tile c s rest hspan htile ih =>
    have hrest : Ended rest := .of_append (hspan ▸ hs)
    cases hc : isBreak c with
    | true =>
      have hgap : isGap c = false := by
        rcases List.mem_pair.mp (isBreak_iff_mem.mp hc) with rfl | rfl <;> decide
      have hhead : (respell parting before (c :: s)).head? = some c := head?_respell (by simp [hgap])
      obtain ⟨more, hmore⟩ := List.head?_eq_some_iff.mp hhead
      have hwhite : c ∈ white := mem_white_iff.mpr (.inr hc)
      refine ⟨⟨[], c, hwhite, c, hwhite, s, more, rfl, hmore⟩, ?_⟩
      rintro b ⟨⟩ -
      exact hhead
    | false =>
      have hlast := any_getLast? hspan htile hc
      have hleft : rest ≠ [] := Ended.ne_nil (hspan ▸ hs) hlast
      refine ⟨?_, ?_⟩
      · cases hgap : isGap c with
        | false =>
          obtain ⟨l, w, hw, w', hw', more, more', heq, heq'⟩ := (ih hleft hrest hlast).white
          refine ⟨(cut c s).span ++ l, w, hw, w', hw', more, more', ?_, ?_⟩
          · rw [List.append_assoc, ← heq, hspan]
          · rw [respell_token hspan hgap, heq', List.append_assoc]
        | true =>
          obtain rfl := eq_dropWhile hspan hgap
          obtain ⟨w, hw, more, hmore⟩ := exists_white_respell hgap hbefore hleft
          exact ⟨[], c, mem_white_iff.mpr (.inl hgap), w, hw, s, more, rfl, hmore⟩
      · rintro b ⟨⟩ hb
        rw [hc] at hb
        cases hb

/-- A string has its second mark, or is at the end of its line. -/
private theorem Tile.quoted {slice : Slice} {text : List Char} (h : slice.Tile rest)
    (hsaid : slice.token? = some (.string, text)) :
    (slice = ⟨'"' :: (text ++ ['"']), some (.string, text)⟩ ∧
      ∀ c ∈ text, c ≠ '"' ∧ c ≠ '\r' ∧ c ≠ '\n') ∨ rest.head?.all isBreak := by
  cases h with
  | gap | lineBreak | comment => cases hsaid
  | closed h =>
    cases hsaid
    exact .inl ⟨rfl, fun c hc => by simpa [inString, isBreak] using h c hc⟩
  | unclosed _ hrest => exact .inr hrest
  | verbatim hk =>
    cases hsaid
    exact absurd (by decide) hk

/-- A slice of a line is cut off whatever it meets as it was. -/
theorem leads_of_meets (hspan : (cut c s).span ++ rest = c :: s) (htile : (cut c s).Tile rest)
    (hc : isBreak c = false) (hgap : isGap c = false) (h : Meets rest rest') :
    (cut c s).Leads rest' := by
  obtain ⟨l, w, hw, w', hw', more, more', heq, heq'⟩ := h.white
  obtain ⟨d, x, hx⟩ := List.exists_cons_of_ne_nil htile.span_ne_nil
  obtain ⟨rfl, rfl⟩ : d = c ∧ x ++ rest = s := List.cons.inj (by rw [← hspan, hx]; rfl)
  have hleads : cut d (x ++ rest') = cut d (x ++ rest) → (cut d (x ++ rest)).Leads rest' := by
    intro hcut
    have hslice : cut d (x ++ rest) = ⟨d :: x, (cut d (x ++ rest)).token?⟩ := by rw [← hx]
    rw [hslice] at hcut ⊢
    exact leads_of_cut hcut
  by_cases hend : rest.head?.all isBreak
  · -- At the end of a line stands the same break.
    refine hleads ?_
    cases rest with
    | nil => simp at heq
    | cons b rest =>
      have hb : isBreak b := by simpa using hend
      obtain ⟨more, rfl⟩ := List.head?_eq_some_iff.mp (h.lineBreak b rfl hb)
      exact (cut_break hc hb hb more rest).1
  · by_cases hk : ∀ said ∈ (cut d (x ++ rest)).token?, said.1 ≠ .comment ∧ said.1 ≠ .string
    · refine hleads ?_
      rw [heq, ← List.append_assoc] at hk ⊢
      rw [heq', ← List.append_assoc]
      exact cut_white hc hgap hw hw' hk more'
    · push Not at hk
      obtain ⟨⟨kind, lexeme⟩, hsaid, hkind⟩ := hk
      by_cases hremark : kind = .comment
      · subst hremark
        exact absurd (head?_of_comment hspan hsaid) hend
      · obtain rfl : kind = .string := hkind hremark
        obtain ⟨hquoted, hin⟩ := (htile.quoted hsaid).resolve_right hend
        have hlong : rest' ≠ [] := by simp [heq']
        obtain ⟨e, left, rfl⟩ := List.exists_cons_of_ne_nil hlong
        have hpiece : (Piece.quotation ⟨lexeme, hin⟩).slice = cut d (x ++ rest) := by
          simp [hquoted, Piece.slice, Piece.chars, Piece.kind, Piece.lexeme, Quotation.text]
        exact hpiece ▸ (Piece.quotation ⟨lexeme, hin⟩).leads trivial left

/-- White space that parts a carriage return from a line feed is not left out. -/
theorem head?_respell_return (hs : s.head? ≠ some '\n') :
    (respell parting (some '\r') s).head? ≠ some '\n' := by
  cases s with
  | nil => simp [respell, ofText, ofTextAfter, respaced]
  | cons c s =>
    cases hgap : isGap c with
    | false => rwa [head?_respell (by simp [hgap])]
    | true =>
      obtain ⟨last, hlast⟩ := respell_gap parting (some '\r') hgap s
      rw [hlast]
      split
      · simp
      · rename_i hkept
        rw [List.nil_append, head?_respell (head?_dropWhile s)]
        intro hfeed
        simp [parting, hfeed] at hkept

/-- A line break is cut off whole. -/
private theorem leads_of_isBreak (hspan : (cut c s).span ++ rest = c :: s) (htile : (cut c s).Tile rest)
    (hc : isBreak c) : (cut c s).Leads (respell parting (cut c s).span.getLast? rest) := by
  have hlined := lined_cut hspan htile
  generalize cut c s = slice at *
  cases hlined with
  | inLine hne h =>
    obtain ⟨d, x, hx⟩ := List.exists_cons_of_ne_nil hne
    obtain rfl : d = c := (List.cons.inj (by rw [← hspan, hx]; rfl)).1
    exact absurd (h d (by rw [hx]; exact List.mem_cons_self)) (by simp [hc])
  | lineBreak h happart =>
    simp only [List.mem_cons, List.not_mem_nil, or_false] at h
    rcases h with rfl | rfl | rfl
    · exact leads_of_cut rfl
    · exact newline_leads _
    · exact leads_of_cut (cut_return (head?_respell_return (happart rfl)))

/-- A text with its white space cut down has the slices of the text, with their white space cut down. -/
theorem ofText_respell (hs : Ended s) :
    ofText (respell parting before s) = respaced parting before (ofText s) := by
  induction s using cut_induction generalizing before with
  | nil => rfl
  | tile c s rest hspan htile ih =>
    have hrest : Ended rest := .of_append (hspan ▸ hs)
    cases hgap : isGap c with
    | true =>
      obtain rfl := eq_dropWhile hspan hgap
      obtain ⟨last, hlast⟩ := respaced_gap parting before hgap s
      have hhead : (respell parting last (s.dropWhile isGap)).head?.all (!isGap ·) := by
        rw [head?_respell (head?_dropWhile s)]
        exact head?_dropWhile s
      rw [respell, hlast, List.flatMap_append, ← respell, ← ih hrest]
      split
      · exact space_leads hhead
      · rfl
    | false =>
      rw [respell_token hspan hgap, respaced_token hspan hgap, ← ih hrest]
      change (cut c s).Leads _
      cases hc : isBreak c with
      | false =>
        have hlast := any_getLast? hspan htile hc
        have hleft : rest ≠ [] := Ended.ne_nil (hspan ▸ hs) hlast
        exact leads_of_meets hspan htile hc hgap (meets_respell hleft hrest hlast)
      | true => exact leads_of_isBreak hspan htile hc

end Slice

/-- The text with its white space cut down. -/
def thinned (kept : Option Char → Option Char → Bool) (text : String) : String :=
  String.ofList (Slice.respell kept none text.toList)

end Mermaid
