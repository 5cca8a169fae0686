import Mermaid.Proofs.ClassDiagram.Body
import Mermaid.Proofs.Token.Comments

/-! The words from which the type of a member and a stereotype are made. A comment is among them, and without
the comments of the text they are the same words but for it; the rest of what a line says is the same. -/
namespace Mermaid.ClassDiagram
open Rule Token

/-- The words that give the type of a member: what stands before its name, what is returned behind its
parameters, and what is declared behind a colon. -/
structure TypeWords where
  leading : Option String
  returned : List Token
  declared : List Token

namespace TypeWords

/-- What is declared counts before what is returned, and this before what stands before the name. -/
def type (w : TypeWords) : Option String :=
  if w.declared ≠ [] then some (Text.joinWords (w.declared.map (·.lexeme)))
  else if w.returned ≠ [] then some (" ".intercalate (w.returned.map (·.lexeme)))
  else w.leading

def uncommented (w : TypeWords) : TypeWords :=
  { w with returned := Token.uncommented w.returned, declared := Token.uncommented w.declared }

end TypeWords

namespace MemberLine
variable {s : Stream} {t : Token} {ts : List Token}

/-- The words behind the parameters, up to the end of the member. -/
def returnedWords : List Token → List Token
  | [] => []
  | t :: ts =>
    let left := pastParameters 1 ts
    if t.kind = .openRound ∧ wordNext left then (rest left).1 else []

/-- The words up to the end of the member or to a parenthesis. -/
def wordsOfType : List Token → List Token
  | [] => []
  | t :: ts => if ends (t :: ts) ∨ t.kind = .openRound then [] else t :: wordsOfType ts

/-- The words behind a colon, if one comes next. -/
def declaredWords : List Token → List Token
  | [] => []
  | t :: ts => if t.kind = .colon then wordsOfType ts else []

/-- The words that give a type, from behind the name on. -/
def wordsBehind (leading : Option String) (ts : List Token) : TypeWords :=
  ⟨leading, returnedWords ts, declaredWords (parameters ts).2⟩

/-- The words of a stereotype, up to the mark that closes it or to the end of the line. -/
def stereotypeWords (ts : List Token) : List Token :=
  ts.takeWhile fun t => t.kind != .closeGuillemet && t.kind != .newline

/-- The member that is read from `ts` on, with the words that give its type. -/
inductive MemberAt (ts : List Token) : Member → TypeWords → Prop
  | named {v : Visibility} {leading : Option String} {left behind : List Token} {name : Token}
      (hmark : ∀ t ∈ ts.head?, t.kind ≠ .openGuillemet) (hv : visibility ts = some (v, left))
      (hl : leadingType left = (leading, name :: behind)) (hname : name.isWord) :
      MemberAt ts (named v leading name behind).1 (wordsBehind leading behind)

/-- A member goes on at a word. -/
private theorem rest_ne_nil (h : wordNext ts) : (rest ts).1 ≠ [] := by
  cases ts with
  | nil => cases h
  | cons t ts =>
    have hends : ends (t :: ts) = false := ends_of_isWord h ts
    simp [rest, hends]

/-- What is returned is said by the words behind the parameters. -/
private theorem returned_parameters (ts : List Token) : (parameters ts).1.getD none =
    if returnedWords ts = [] then none else some (" ".intercalate ((returnedWords ts).map (·.lexeme))) := by
  cases ts with
  | nil => rfl
  | cons t ts =>
    rw [parameters, returnedWords]
    by_cases ht : t.kind = .openRound
    · by_cases hword : wordNext (pastParameters 1 ts)
      · simp [ht, hword, rest_ne_nil hword]
      · simp [ht, hword]
    · simp [ht]

private theorem typeWords_fst (ts : List Token) : (typeWords ts).1 = (wordsOfType ts).map (·.lexeme) := by
  induction ts with
  | nil => rfl
  | cons t ts ih =>
    rw [typeWords, wordsOfType]
    by_cases hends : ends (t :: ts)
    · simp [hends]
    · by_cases hround : t.kind = .openRound
      · simp [hends, hround]
      · simp [hends, hround, ih]

/-- What is declared is said by the words behind the colon. -/
private theorem trailingType_fst (ts : List Token) : (trailingType ts).1 =
    if declaredWords ts = [] then none else some (Text.joinWords ((declaredWords ts).map (·.lexeme))) := by
  cases ts with
  | nil => rfl
  | cons t ts =>
    rw [trailingType, declaredWords]
    by_cases ht : t.kind = .colon
    · simp [ht, typeWords_fst]
    · simp [ht]

/-- The type of a member is that of the words that give it. -/
theorem type_named (v : Visibility) (leading : Option String) (name : Token) (ts : List Token) :
    (named v leading name ts).1.type = (wordsBehind leading ts).type := by
  have htype : (named v leading name ts).1.type =
      ((trailingType (parameters ts).2).1.or ((parameters ts).1.getD none)).or leading := rfl
  rw [htype, trailingType_fst, returned_parameters, wordsBehind, TypeWords.type]
  by_cases hdeclared : declaredWords (parameters ts).2 = []
  · by_cases hreturned : returnedWords ts = []
    · simp [hdeclared, hreturned]
    · simp [hdeclared, hreturned]
  · simp [hdeclared]

theorem MemberAt.type {m : Member} {w : TypeWords} (h : MemberAt ts m w) : m.type = w.type := by
  cases h with
  | named => exact type_named _ _ _ _

private theorem wordNext_uncommented (hts : s.Remains ts) :
    wordNext (uncommented ts) = wordNext ts := by
  by_cases hline : lineKind ts = .newline
  · have hend : ∀ us : List Token, (∀ u ∈ us.head?, separates u) → wordNext us = false := by
      intro us hus
      cases us with
      | nil => rfl
      | cons u us => exact isWord_of_separates (hus u rfl)
    have hless := hts.head_uncommented hline
    rw [hend _ fun u hu => by simp [separates, hless u hu]]
    refine (hend ts fun u hu => ?_).symm
    cases ts with
    | nil => cases hu
    | cons t ts =>
      cases hu
      exact separates_of_lineKind hline
  · obtain ⟨t, us, rfl, -, -, hless⟩ := exists_cons_of_lineKind hline rfl
    rw [hless]
    rfl

private theorem ends_uncommented (hts : s.Remains (t :: ts)) :
    ends (t :: uncommented ts) = ends (t :: ts) := by
  simp only [ends, wordNext_uncommented hts.tail]

private theorem ends_comment (ht : t.kind = .comment) (ts : List Token) : ends (t :: ts) = false := by
  simp [ends, ht]

private theorem rest_uncommented (hts : s.Remains ts) :
    rest (uncommented ts) = (uncommented (rest ts).1, uncommented (rest ts).2) := by
  induction ts with
  | nil => rfl
  | cons t ts ih =>
    have hmore := ih hts.tail
    by_cases ht : t.kind = .comment
    · rw [uncommented_cons_comment ht, hmore, rest, if_neg (by simp [ends_comment ht])]
      simp [uncommented_cons_comment ht]
    · rw [uncommented_cons ht, rest, rest, ends_uncommented hts, hmore]
      split
      · rw [uncommented_cons ht]
        rfl
      · simp [uncommented_cons ht]

private theorem pastParameters_uncommented {opened : Int} (ho : 0 < opened) (ts : List Token) :
    pastParameters opened (uncommented ts) = uncommented (pastParameters opened ts) := by
  induction ts generalizing opened with
  | nil => rfl
  | cons t ts ih =>
    by_cases ht : t.kind = .comment
    · have hnone : opened + depth .comment = opened := Int.add_zero opened
      rw [uncommented_cons_comment ht, ih ho, pastParameters, if_neg (by simp [ht]), ht, hnone,
        if_neg (by omega)]
    · rw [uncommented_cons ht, pastParameters, pastParameters]
      split
      · exact (uncommented_cons ht ts).symm
      · split
        · rfl
        · exact ih (by omega)

private theorem visibility_end (h : lineKind ts = .newline) : visibility ts = some (.publicly, ts) := by
  cases ts with
  | nil => rfl
  | cons t ts =>
    rw [lineKind] at h
    split at h <;> simp_all [visibility]

private theorem visibility_uncommented (hts : s.Remains ts) :
    visibility (uncommented ts) = (visibility ts).map fun (v, left) => (v, uncommented left) := by
  by_cases hline : lineKind ts = .newline
  · rw [visibility_end hline, visibility_end (hts.lineKind_uncommented.trans hline)]
    rfl
  · obtain ⟨t, us, rfl, -, -, hless⟩ := exists_cons_of_lineKind hline rfl
    rw [hless]
    simp only [visibility, wordNext_uncommented hts.tail]
    split
    · rfl
    · rfl
    · rfl
    · split <;> rfl
    · simp [hless]

private theorem brackets_eq (ts : List Token) : brackets ts =
    if lineKind ts = .openSquare ∧ lineKind ts.tail = .closeSquare then ("[]", ts.drop 2)
    else ("", ts) := by
  match ts with
  | [] => rfl
  | [t] =>
    rw [if_neg fun h => by cases h.2]
    rfl
  | t :: u :: ts =>
    simp only [brackets, List.tail_cons, lineKind_cons_eq_iff (k := .openSquare) (by decide) (by decide),
      lineKind_cons_eq_iff (k := .closeSquare) (by decide) (by decide)]
    simp

private theorem brackets_uncommented (hts : s.Remains ts) :
    brackets (uncommented ts) = ((brackets ts).1, uncommented (brackets ts).2) := by
  by_cases hline : lineKind ts = .newline
  · rw [brackets_eq, brackets_eq, hts.lineKind_uncommented, hline]
    rfl
  · obtain ⟨t, us, rfl, -, -, hless⟩ := exists_cons_of_lineKind hline rfl
    rw [brackets_eq, brackets_eq, hts.lineKind_uncommented, hless, List.tail_cons, List.tail_cons,
      hts.tail.lineKind_uncommented]
    split
    · rename_i h
      obtain ⟨u, vs, rfl, -, -, hless⟩ := exists_cons_of_lineKind (by decide) h.2
      rw [hless]
      rfl
    · rw [hless]

private theorem leadingType_uncommented (hts : s.Remains ts) :
    leadingType (uncommented ts) = ((leadingType ts).1, uncommented (leadingType ts).2) := by
  have hend : ∀ us : List Token, lineKind us = .newline → leadingType us = (none, us) := by
    intro us hus
    cases us with
    | nil => rfl
    | cons u us =>
      have hu := separates_of_lineKind hus
      simp [leadingType, isWord_of_separates hu]
  by_cases hline : lineKind ts = .newline
  · rw [hend ts hline, hend _ (hts.lineKind_uncommented.trans hline)]
  · obtain ⟨t, us, rfl, -, -, hless⟩ := exists_cons_of_lineKind hline rfl
    have hleft := hts.tail.after (reads_brackets us)
    rw [hless, leadingType, leadingType, brackets_uncommented hts.tail]
    simp only [wordNext_uncommented hleft]
    split
    · rfl
    · rw [hless]

private theorem parameters_of_lineKind (h : lineKind ts ≠ .openRound) :
    parameters ts = (none, ts) ∧ returnedWords ts = [] := by
  cases ts with
  | nil => exact ⟨rfl, rfl⟩
  | cons t ts =>
    rw [ne_eq, lineKind_cons_eq_iff (by decide) (by decide)] at h
    rw [parameters, returnedWords]
    exact ⟨if_neg h, if_neg fun hround => h hround.1⟩

/-- What parentheses say is the same but for a comment among the words behind them. -/
private theorem parameters_uncommented (hts : s.Remains ts) :
    (parameters (uncommented ts)).2 = uncommented (parameters ts).2 ∧
      (parameters (uncommented ts)).1.isSome = (parameters ts).1.isSome ∧
      returnedWords (uncommented ts) = uncommented (returnedWords ts) := by
  by_cases hround : lineKind ts = .openRound
  · obtain ⟨opening, us, rfl, ho, -, hless⟩ := exists_cons_of_lineKind (by decide) hround
    have hpast := hts.tail.after (pastParameters_suffix 1 us)
    have hsame : pastParameters 1 (uncommented us) = uncommented (pastParameters 1 us) :=
      pastParameters_uncommented (by decide) us
    rw [hless]
    simp only [parameters, returnedWords, ho, if_true, true_and, hsame, wordNext_uncommented hpast,
      rest_uncommented hpast]
    split <;> exact ⟨rfl, rfl, rfl⟩
  · obtain ⟨hparameters, hwords⟩ := parameters_of_lineKind hround
    rw [← hts.lineKind_uncommented] at hround
    obtain ⟨hparameters', hwords'⟩ := parameters_of_lineKind hround
    rw [hparameters, hparameters', hwords, hwords']
    exact ⟨rfl, rfl, rfl⟩

private theorem typeWords_uncommented (hts : s.Remains ts) :
    (typeWords (uncommented ts)).2 = ((typeWords ts).2.1, uncommented (typeWords ts).2.2) ∧
      wordsOfType (uncommented ts) = uncommented (wordsOfType ts) := by
  induction ts with
  | nil => exact ⟨rfl, rfl⟩
  | cons t ts ih =>
    obtain ⟨hleft, hwords⟩ := ih hts.tail
    by_cases ht : t.kind = .comment
    · have hends := ends_comment ht ts
      rw [uncommented_cons_comment ht, typeWords, wordsOfType]
      simp [hends, ht, hleft, hwords, uncommented_cons_comment ht]
    · rw [uncommented_cons ht, typeWords, typeWords, wordsOfType, wordsOfType, ends_uncommented hts]
      by_cases hends : ends (t :: ts)
      · rw [if_pos hends, if_pos hends, if_pos (.inl hends), if_pos (.inl hends), uncommented_cons ht]
        exact ⟨rfl, rfl⟩
      · by_cases hround : t.kind = .openRound
        · rw [if_neg hends, if_neg hends, if_pos hround, if_pos hround, if_pos (.inr hround),
            if_pos (.inr hround), uncommented_cons ht]
          exact ⟨rfl, rfl⟩
        · simp [hends, hround, hleft, hwords, uncommented_cons ht]

private theorem trailingType_of_lineKind (h : lineKind ts ≠ .colon) :
    trailingType ts = (none, false, ts) ∧ declaredWords ts = [] := by
  cases ts with
  | nil => exact ⟨rfl, rfl⟩
  | cons t ts =>
    rw [ne_eq, lineKind_cons_eq_iff (by decide) (by decide)] at h
    rw [trailingType, declaredWords]
    exact ⟨if_neg h, if_neg h⟩

/-- What a colon says is the same but for a comment among its words. -/
private theorem trailingType_uncommented (hts : s.Remains ts) :
    (trailingType (uncommented ts)).2 = ((trailingType ts).2.1, uncommented (trailingType ts).2.2) ∧
      declaredWords (uncommented ts) = uncommented (declaredWords ts) := by
  by_cases hcolon : lineKind ts = .colon
  · obtain ⟨colon, us, rfl, hk, -, hless⟩ := exists_cons_of_lineKind (by decide) hcolon
    obtain ⟨hleft, hwords⟩ := typeWords_uncommented hts.tail
    rw [hless, trailingType, trailingType, declaredWords, declaredWords, if_pos hk, if_pos hk, if_pos hk,
      if_pos hk]
    exact ⟨hleft, hwords⟩
  · obtain ⟨htrailing, hwords⟩ := trailingType_of_lineKind hcolon
    rw [← hts.lineKind_uncommented] at hcolon
    obtain ⟨htrailing', hwords'⟩ := trailingType_of_lineKind hcolon
    rw [htrailing, htrailing', hwords, hwords']
    exact ⟨rfl, rfl⟩

/-- A member is the same from its name on but for a comment among the words of its type. -/
private theorem named_uncommented (hts : s.Remains ts) (v : Visibility) (leading : Option String)
    (name : Token) : named v leading name (uncommented ts) =
      ({ (named v leading name ts).1 with type := (wordsBehind leading ts).uncommented.type },
        uncommented (named v leading name ts).2) := by
  have htype := type_named v leading name (uncommented ts)
  obtain ⟨hbehind, hmethod, hreturned⟩ := parameters_uncommented hts
  have hafter := hts.after (reads_parameters ts)
  obtain ⟨hleft, hdeclared⟩ := trailingType_uncommented hafter
  have hrest := rest_uncommented (hafter.after (trailingType_suffix (parameters ts).2))
  have hwords : wordsBehind leading (uncommented ts) = (wordsBehind leading ts).uncommented := by
    rw [wordsBehind, hbehind, hreturned, hdeclared]
    rfl
  rw [hwords] at htype
  obtain ⟨hmore, hleft⟩ := Prod.mk.inj hleft
  refine Prod.ext ?_ ?_
  · rw [← htype]
    simp only [named, hbehind, hmethod, hmore]
  · simp only [named, hbehind, hleft, hrest]

/-- The words of a stereotype are the same but for a comment among them. -/
theorem stereotypeText_uncommented (ts : List Token) :
    (stereotypeText (uncommented ts)).2 = uncommented (stereotypeText ts).2 ∧
      stereotypeWords (uncommented ts) = uncommented (stereotypeWords ts) := by
  obtain ⟨hwords, hleft⟩ := uncommented_takeWhile
    (p := fun t => t.kind != .closeGuillemet && t.kind != .newline) (fun t ht => by simp [ht]) ts
  refine ⟨?_, hwords.symm⟩
  have hstop : ∀ u ∈ (ts.dropWhile fun t => t.kind != .closeGuillemet && t.kind != .newline).head?,
      u.kind = .closeGuillemet ∨ u.kind = .newline := by
    intro u hu
    have hhead := List.head?_dropWhile_not
      (fun t : Token => t.kind != .closeGuillemet && t.kind != .newline) ts
    rw [hu] at hhead
    simpa [or_iff_not_imp_left] using hhead
  simp only [stereotypeText, List.span_eq_takeWhile_dropWhile, ← hleft]
  generalize ts.dropWhile (fun t => t.kind != .closeGuillemet && t.kind != .newline) = left at *
  cases left with
  | nil => rfl
  | cons u us =>
    have hu : u.kind ≠ .comment := by rcases hstop u rfl with hu | hu <;> simp [hu]
    rw [uncommented_cons hu]
    simp only
    split
    · rfl
    · exact (uncommented_cons hu us).symm

theorem stereotypeText_fst (ts : List Token) :
    (stereotypeText ts).1 = " ".intercalate ((stereotypeWords ts).map (·.lexeme)) := by
  simp only [stereotypeText, stereotypeWords, List.span_eq_takeWhile_dropWhile]

/-- What a line says from `ts` on, with its comment and without it. -/
inductive Alike (ts : List Token) : MemberLine → MemberLine → Prop
  | nothing : Alike ts .nothing .nothing
  | stereotype {mark : Token} {more : List Token} (hts : mark :: more = ts)
      (hmark : mark.kind = .openGuillemet) :
      Alike ts (.stereotype (" ".intercalate ((stereotypeWords more).map (·.lexeme))))
        (.stereotype (" ".intercalate ((uncommented (stereotypeWords more)).map (·.lexeme))))
  | member {m : Member} {w : TypeWords} (h : MemberAt ts m w) :
      Alike ts (.member m) (.member { m with type := w.uncommented.type })

private theorem read_end (h : lineKind ts = .newline) : read ts = (.nothing, ts) := by
  cases ts with
  | nil => rfl
  | cons t ts =>
    have ht := separates_of_lineKind h
    have hk : t.kind ≠ .openGuillemet := by
      intro hk
      simp [separates, hk] at ht
    have hword := isWord_of_separates ht
    simp only [read, hk, if_false, visibility_end h, leadingType, hword, Bool.false_and,
      Bool.false_eq_true]

/-- What a line says whose name comes next. -/
private def atName (v : Visibility) (leading : Option String) : List Token → MemberLine × List Token
  | name :: behind =>
    if name.isWord then
      let (m, left) := named v leading name behind
      (.member m, left)
    else (.nothing, name :: behind)
  | [] => (.nothing, [])

private theorem atName_uncommented (hts : s.Remains ts) {v : Visibility} {leading : Option String}
    {start : List Token} (h : ∀ name behind, ts = name :: behind → name.isWord →
      MemberAt start (named v leading name behind).1 (wordsBehind leading behind)) :
    (atName v leading (uncommented ts)).2 = uncommented (atName v leading ts).2 ∧
      Alike start (atName v leading ts).1 (atName v leading (uncommented ts)).1 := by
  have hend : ∀ us : List Token, lineKind us = .newline → atName v leading us = (.nothing, us) := by
    intro us hus
    cases us with
    | nil => rfl
    | cons u us =>
      have hu := separates_of_lineKind hus
      rw [atName, if_neg (by simp [isWord_of_separates hu])]
  by_cases hline : lineKind ts = .newline
  · rw [hend ts hline, hend _ (hts.lineKind_uncommented.trans hline)]
    exact ⟨rfl, .nothing⟩
  · obtain ⟨name, behind, rfl, -, -, hless⟩ := exists_cons_of_lineKind hline rfl
    rw [hless, atName, atName]
    by_cases hname : name.isWord
    · rw [if_pos hname, if_pos hname, named_uncommented hts.tail]
      exact ⟨rfl, .member (h name behind rfl hname)⟩
    · rw [if_neg hname, if_neg hname]
      exact ⟨hless.symm, .nothing⟩

/-- A line of a class is the same but for a comment among the words of a type or a stereotype. -/
theorem read_uncommented (hts : s.Remains ts) :
    (read (uncommented ts)).2 = uncommented (read ts).2 ∧
      Alike ts (read ts).1 (read (uncommented ts)).1 := by
  by_cases hline : lineKind ts = .newline
  · rw [read_end hline, read_end (hts.lineKind_uncommented.trans hline)]
    exact ⟨rfl, .nothing⟩
  obtain ⟨t, us, rfl, -, -, hless⟩ := exists_cons_of_lineKind hline rfl
  by_cases hmark : t.kind = .openGuillemet
  · obtain ⟨hleft, hwords⟩ := stereotypeText_uncommented us
    rw [hless, read, read, if_pos hmark, if_pos hmark]
    refine ⟨hleft, ?_⟩
    change Alike (t :: us) (.stereotype (stereotypeText us).1) (.stereotype (stereotypeText (uncommented us)).1)
    rw [stereotypeText_fst, stereotypeText_fst, hwords]
    exact .stereotype rfl hmark
  have hvisibility := visibility_uncommented hts
  rw [hless] at hvisibility ⊢
  rw [read, read, if_neg hmark, if_neg hmark, hvisibility]
  cases hv : visibility (t :: us) with
  | none => exact ⟨hless.symm, .nothing⟩
  | some p =>
    obtain ⟨v, left⟩ := p
    have hleft := hts.after (visibility_suffix hv)
    simp only [Option.map_some, leadingType_uncommented hleft]
    have hname := hleft.after (reads_leadingType left)
    refine atName_uncommented hname fun name behind hl hword => ?_
    exact .named (by simpa using hmark) hv (Prod.ext rfl hl) hword

end MemberLine
end Mermaid.ClassDiagram
