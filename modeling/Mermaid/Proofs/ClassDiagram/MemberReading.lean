import Mermaid.ClassDiagram.Member
import Mermaid.Proofs.ClassDiagram.Meaning
import Mermaid.Proofs.Grammar.Running

/-! Lines of a class on well-formed tokens: what is read from them is the member or the stereotype
that they describe. -/
namespace Mermaid.ClassDiagram
open Token

/-- The kinds of token that words stand for. -/
def wordKinds : List TokenKind := .identifier :: TokenKind.reserved.map (·.2)

theorem kind_mem_wordKinds {t : Token} {w : Word} (h : t.Tells (.word w)) : t.kind ∈ wordKinds :=
  h.1 ▸ Piece.ofWord_mem w.text

theorem wordKinds_ne : ∀ k ∈ wordKinds, k ∉ [TokenKind.newline, .comment, .closeCurly, .plus, .hash,
    .tilde, .minus, .openRound, .openSquare, .colon, .openGuillemet, .closeGuillemet] := by
  decide

private theorem ne_of_mem_wordKinds {j k : TokenKind} (h : k ∈ wordKinds) (hj : j ∉ wordKinds) : k ≠ j :=
  fun hk => hj (hk ▸ h)

theorem isWord_of_tells {t : Token} {w : Word} (h : t.Tells (.word w)) : t.isWord := by
  have hkind : t.kind = (TokenKind.reserved.lookup w.text).getD .identifier := h.1
  have hlexeme : t.lexeme = w.text := h.2
  rw [isWord, hkind, hlexeme]
  cases TokenKind.reserved.lookup w.text <;> simp

theorem isWord_eq_false {t : Token} (h : t.kind ∉ wordKinds) : t.isWord = false := by
  simp only [wordKinds, List.mem_cons, not_or] at h
  have hlookup : TokenKind.reserved.lookup t.lexeme ≠ some t.kind := by
    intro hl
    obtain ⟨l₁, l₂, hl, _⟩ := List.lookup_eq_some_iff.mp hl
    exact h.2 (by rw [hl]; simp)
  simp [isWord, h.1, hlookup]

/-- Words in a row. -/
theorem row_wordKinds {n : Int} {ts : List Token} {ws : List Word}
    (h : Row n ts (ws.map .word)) : ∀ t ∈ ts, t.kind ∈ wordKinds := by
  refine forall_kind h.tells (P := (· ∈ wordKinds)) fun p hp => ?_
  obtain ⟨w, _, rfl⟩ := List.mem_map.mp hp
  exact Piece.ofWord_mem w.text

section pieces

def Tail.pieces : Tail → List Piece
  | plain => []
  | method parameters returned => .sign .openRound :: (parameters.map (·.piece) ++
      .sign .closeRound :: returned.map .word)
  | typed first more => .sign colon :: (first :: more).map .word

def typePieces : Option TypeTerm → List Piece
  | none => []
  | some ⟨w, isArray⟩ =>
    .word w :: if isArray then [.sign .openSquare, .sign .closeSquare] else []

def MemberTerm.pieces (m : MemberTerm) : List Piece :=
  (m.marker.map (.sign ·.sign)).toList ++ (typePieces m.type ++ .word m.name :: m.tail.pieces)

def stereotypePieces (ws : List Word) : List Piece :=
  .sign openGuillemet :: (ws.map .word ++ [.sign closeGuillemet])

def MemberText.pieces : MemberText → List Piece
  | stereotype ws => stereotypePieces ws
  | member m => m.pieces

theorem pieces_wordsLine (ws : List Word) :
    (wordsLine ws).map (·.piece) = ws.map .word := by
  simp [wordsLine, spread, Function.comp_def]

private theorem pieces_enclosed (tight : Bool) (ps : List Piece) (y : Sign) :
    (enclosed tight ps y).map (·.piece) = ps ++ [.sign y] := by
  cases ps <;> simp [enclosed, spread, Function.comp_def]

theorem pieces_stereotypeLine (spacing : Spacing) (b : Bool) (ws : List Word) :
    (stereotypeLine spacing b ws).map (·.piece) = stereotypePieces ws := by
  rw [stereotypeLine, List.map_cons, pieces_enclosed, stereotypePieces]

private theorem pieces_parametersLine (spacing : Spacing) (ps : List Parameter) :
    (parametersLine spacing ps).map (·.piece) = ps.map (·.piece) ++ [.sign .closeRound] := by
  have hplaced : ∀ p : Parameter, (p.placed spacing).piece = p.piece := by
    intro p
    cases p <;> rfl
  cases ps <;> simp [parametersLine, hplaced]

private theorem pieces_tail (spacing : Spacing) (t : Tail) :
    (t.line spacing).map (·.piece) = t.pieces := by
  cases t with
  | plain => rfl
  | method parameters returned =>
    simp [Tail.line, Tail.pieces, pieces_parametersLine, pieces_wordsLine]
  | typed first more => simp [Tail.line, Tail.pieces, pieces_wordsLine]

private theorem pieces_typedLine (b : Bool) (name : Word) (type : Option TypeTerm) :
    (typedLine b name type).map (·.piece) = typePieces type ++ [.word name] := by
  match type with
  | none => rfl
  | some ⟨w, false⟩ => rfl
  | some ⟨w, true⟩ => rfl

/-- The pieces of a line do not depend on its spacing. -/
theorem pieces_text (spacing : Spacing) (b : Bool) (t : MemberText) :
    (t.line spacing b).map (·.piece) = t.pieces := by
  cases t with
  | stereotype ws => exact pieces_stereotypeLine spacing b ws
  | member m =>
    cases hm : m.marker <;>
      simp [MemberText.line, MemberText.pieces, MemberTerm.line, MemberTerm.pieces, hm,
        pieces_typedLine, pieces_tail]

end pieces

def MemberText.said : MemberText → MemberLine
  | stereotype ws => .stereotype (wordsText ws)
  | member m => .member m.member

namespace MemberLine
variable {n : Int} {ts us more : List Token} {close : Token}

private theorem ends_word {t : Token} (h : t.kind ∈ wordKinds) (ts : List Token) :
    ends (t :: ts) = false := by
  have hne := wordKinds_ne _ h
  unfold ends
  split <;> simp_all

/-- No member ends at a word. -/
theorem ends_of_isWord {t : Token} (h : t.isWord) (ts : List Token) : ends (t :: ts) = false := by
  refine ends_word (Decidable.byContradiction fun hkind => ?_) ts
  rw [isWord_eq_false hkind] at h
  cases h

private theorem rest_words (h : ∀ t ∈ ts, t.kind ∈ wordKinds) (hclose : close.kind = .newline)
    (more : List Token) : MemberLine.rest (ts ++ close :: more) = (ts, close :: more) := by
  induction ts with
  | nil => simp [MemberLine.rest, ends_newline hclose]
  | cons t ts ih =>
    rw [List.forall_mem_cons] at h
    simp [MemberLine.rest, ends_word h.1, ih h.2]

private theorem typeWords_words (h : ∀ t ∈ ts, t.kind ∈ wordKinds) (hclose : close.kind = .newline)
    (more : List Token) :
    typeWords (ts ++ close :: more) = (ts.map (·.lexeme), false, close :: more) := by
  induction ts with
  | nil => simp [typeWords, ends_newline hclose]
  | cons t ts ih =>
    rw [List.forall_mem_cons] at h
    have hopen : t.kind ≠ .openRound := ne_of_mem_wordKinds h.1 (by decide)
    simp [typeWords, ends_word h.1, hopen, ih h.2]

private theorem depth_word : ∀ k ∈ .comma :: wordKinds,
    k ≠ .newline ∧ k ≠ .closeCurly ∧ depth k = 0 := by
  decide

/-- Words and commas are passed over. -/
theorem pastParameters_words (h : ∀ t ∈ ts, t.kind ∈ .comma :: wordKinds) {opened : Int} (ho : 0 < opened)
    (us : List Token) : pastParameters opened (ts ++ us) = pastParameters opened us := by
  induction ts with
  | nil => rfl
  | cons t ts ih =>
    rw [List.forall_mem_cons] at h
    obtain ⟨hn, hc, hd⟩ := depth_word _ h.1
    simp [pastParameters, hn, hc, hd, Int.not_le.mpr ho, ih h.2]

theorem wordNext_close (h : close.kind = .newline) (rest : List Token) :
    wordNext (close :: rest) = false := by
  simpa [wordNext] using isWord_eq_false (by rw [h]; decide)

theorem parameters_of_ne (h : ts.head?.map (·.kind) ≠ some .openRound) :
    parameters ts = (none, ts) := by
  cases ts with
  | nil => rfl
  | cons t ts =>
    have ht : t.kind ≠ .openRound := by simpa using h
    simp [parameters, ht]

theorem trailingType_of_ne (h : ts.head?.map (·.kind) ≠ some .colon) :
    trailingType ts = (none, false, ts) := by
  cases ts with
  | nil => rfl
  | cons t ts =>
    have ht : t.kind ≠ .colon := by simpa using h
    simp [trailingType, ht]

/-- Behind the parameters a method has what it returns, up to the end of the line. -/
theorem parameters_past {o : Token} (hopen : o.kind = .openRound) {returned : List Word}
    (hpast : pastParameters 1 us = ts ++ close :: more) (h : Row n ts (returned.map .word))
    (hclose : close.kind = .newline) : MemberLine.parameters (o :: us) =
      (some (Tail.method [] returned).type, close :: more) := by
  simp only [MemberLine.parameters, hopen, if_true, hpast]
  cases returned with
  | nil =>
    obtain rfl := Row.nil_iff.mp h
    simp [wordNext_close hclose, Tail.type]
  | cons w returned =>
    have hrest := rest_words (row_wordKinds h) hclose more
    have htext := h.lexemes
    obtain ⟨t, us, rfl, ht, _, _⟩ := h.exists_cons
    have hnext : wordNext (t :: us ++ close :: more) = true := isWord_of_tells ht
    rw [if_pos hnext, hrest, htext, Tail.type]
    rfl

private theorem parameters_method {parameters : List Parameter} {returned : List Word}
    (h : Row n ts (Tail.method parameters returned).pieces) (hclose : close.kind = .newline)
    (more : List Token) : MemberLine.parameters (ts ++ close :: more) =
      (some (Tail.method parameters returned).type, close :: more) := by
  obtain ⟨o, us, rfl, ho, _, h⟩ := h.exists_cons
  obtain ⟨ps, vs, rfl, hps, h⟩ := h.exists_append
  obtain ⟨c, ws, rfl, hc, _, hws⟩ := h.exists_cons
  have hopen : o.kind = .openRound := ho.1
  have hparameters : ∀ t ∈ ps, t.kind ∈ .comma :: wordKinds := by
    refine forall_kind hps.tells (P := (· ∈ .comma :: wordKinds)) fun p hp => ?_
    obtain ⟨q, _, rfl⟩ := List.mem_map.mp hp
    cases q with
    | word w => exact List.mem_cons_of_mem _ (Piece.ofWord_mem w.text)
    | comma => exact List.mem_cons_self
  have hkind : c.kind = .closeRound := hc.1
  have hpast : pastParameters 1 (ps ++ c :: (ws ++ close :: more)) = ws ++ close :: more := by
    rw [pastParameters_words hparameters Int.one_pos]
    simp [pastParameters, hkind, depth]
  have htype : (Tail.method parameters returned).type = (Tail.method [] returned).type := by
    cases returned <;> rfl
  rw [List.cons_append, List.append_assoc, htype]
  exact parameters_past hopen hpast hws hclose

/-- A member is read from its name on. -/
private theorem named_run {t : Tail} (h : Row n ts t.pieces) (hclose : close.kind = .newline)
    (v : Visibility) (type : Option String) (name : Token) (more : List Token) :
    named v type name (ts ++ close :: more) =
      (⟨name.lexeme, t.isMethod, v, t.type.or type⟩, close :: more) := by
  have hcolon : (close :: more).head?.map (·.kind) ≠ some .colon := by simp [hclose]
  cases t with
  | plain =>
    obtain rfl := Row.nil_iff.mp h
    have hround : (close :: more).head?.map (·.kind) ≠ some .openRound := by simp [hclose]
    simp [named, parameters_of_ne hround, trailingType_of_ne hcolon, MemberLine.rest,
      ends_newline hclose, Tail.isMethod, Tail.type]
  | method parameters returned =>
    simp [named, parameters_method h hclose, trailingType_of_ne hcolon, MemberLine.rest,
      ends_newline hclose, Tail.isMethod]
  | typed first words =>
    obtain ⟨c, us, rfl, hc, _, hus⟩ := h.exists_cons
    have hkind : c.kind = .colon := hc.1
    have hround : (c :: us ++ close :: more).head?.map (·.kind) ≠ some .openRound := by
      simp [hkind]
    have hne : (first :: words).map (·.text) ≠ [] := List.cons_ne_nil _ _
    have htype : trailingType (c :: us ++ close :: more) =
        (some (wordsText (first :: words)), false, close :: more) := by
      rw [List.cons_append, trailingType, if_pos hkind, typeWords_words (row_wordKinds hus) hclose]
      simp only [hus.lexemes, if_neg hne, joinWords_words]
    simp only [named, parameters_of_ne hround, htype]
    simp [MemberLine.rest, ends_newline hclose, Tail.isMethod, Tail.type]

private theorem brackets_of_ne (h : ts.head?.map (·.kind) ≠ some .openSquare) :
    brackets ts = ("", ts) := by
  match ts with
  | [] | [_] => rfl
  | t :: u :: ts =>
    have ht : t.kind ≠ .openSquare := by simpa using h
    simp [brackets, ht]

/-- What follows a name is neither a bracket nor a word. -/
private theorem head_tail {t : Tail} (h : Row n ts t.pieces) (hclose : close.kind = .newline)
    (more : List Token) : (ts ++ close :: more).head?.map (·.kind) ≠ some .openSquare ∧
      wordNext (ts ++ close :: more) = false := by
  have hhead : ∃ u us, ts ++ close :: more = u :: us ∧
      u.kind ∈ [TokenKind.newline, .openRound, .colon] := by
    cases t with
    | plain =>
      obtain rfl := Row.nil_iff.mp h
      exact ⟨close, more, rfl, by simp [hclose]⟩
    | method | typed =>
      obtain ⟨u, us, rfl, hu, _, _⟩ := h.exists_cons
      exact ⟨u, _, rfl, by rw [hu.1]; decide⟩
  obtain ⟨u, us, hts, hu⟩ := hhead
  have hkinds : ∀ k ∈ [TokenKind.newline, .openRound, .colon],
      k ≠ .openSquare ∧ k ∉ wordKinds := by decide
  obtain ⟨hs, hw⟩ := hkinds _ hu
  rw [hts]
  exact ⟨by simpa using hs, isWord_eq_false hw⟩

/-- A word that neither a bracket nor a word follows is no type. -/
theorem leadingType_name (h : us.head?.map (·.kind) ≠ some .openSquare) (hword : wordNext us = false)
    (name : Token) : leadingType (name :: us) = (none, name :: us) := by
  simp [leadingType, brackets_of_ne h, hword]

private theorem leadingType_run {type : Option TypeTerm} {t : Tail} {name : Token} {w : Word}
    {us : List Token} (h : Row n ts (typePieces type)) (hname : name.Tells (.word w))
    (hus : Row n us t.pieces) (hclose : close.kind = .newline) (more : List Token) :
    leadingType (ts ++ name :: (us ++ close :: more)) =
      (type.map (·.text), name :: (us ++ close :: more)) := by
  have hnext : wordNext (name :: (us ++ close :: more)) = true := isWord_of_tells hname
  match type with
  | none =>
    obtain rfl := Row.nil_iff.mp h
    obtain ⟨hs, hw⟩ := head_tail hus hclose more
    exact leadingType_name hs hw name
  | some ⟨v, false⟩ =>
    obtain ⟨u, _, rfl, hu, _, h⟩ := h.exists_cons
    obtain rfl := Row.nil_iff.mp h
    have hlexeme : u.lexeme = v.text := hu.2
    have hs : (name :: (us ++ close :: more)).head?.map (·.kind) ≠ some .openSquare := by
      simpa using ne_of_mem_wordKinds (kind_mem_wordKinds hname) (by decide)
    simp [leadingType, brackets_of_ne hs, isWord_of_tells hu, hnext, hlexeme, TypeTerm.text]
  | some ⟨v, true⟩ =>
    obtain ⟨u, _, rfl, hu, _, h⟩ := h.exists_cons
    obtain ⟨o, _, rfl, ho, _, h⟩ := h.exists_cons
    obtain ⟨c, _, rfl, hc, _, h⟩ := h.exists_cons
    obtain rfl := Row.nil_iff.mp h
    have hlexeme : u.lexeme = v.text := hu.2
    have hopen : o.kind = .openSquare := ho.1
    have hshut : c.kind = .closeSquare := hc.1
    simp [leadingType, brackets, hopen, hshut, isWord_of_tells hu, hnext, hlexeme, TypeTerm.text]

private theorem visibility_marker {mark : Marker} {t u : Token} (ht : t.Tells (.sign mark.sign))
    (hu : u.isWord) (more : List Token) :
    visibility (t :: u :: more) = some (mark.visibility, u :: more) := by
  have hkind : t.kind = mark.sign.kind := ht.1
  have hnext : wordNext (u :: more) = true := hu
  cases mark <;> simp [visibility, hkind, Marker.sign, Marker.visibility, hnext]

private theorem visibility_word {t : Token} (ht : t.kind ∈ wordKinds) (more : List Token) :
    visibility (t :: more) = some (.publicly, t :: more) := by
  have hne := wordKinds_ne _ ht
  unfold visibility
  split
  · contradiction
  · split <;> simp_all

/-- The words of a stereotype are read up to its closing mark. -/
theorem stereotypeText_run {ws : List Word} (h : Row n ts (ws.map .word)) {c : Token}
    (hc : c.kind = .closeGuillemet) (more : List Token) :
    stereotypeText (ts ++ c :: more) = (wordsText ws, more) := by
  have hin : ∀ t ∈ ts, (t.kind != .closeGuillemet && t.kind != .newline) = true := by
    intro t ht
    have hk := row_wordKinds h t ht
    have hg : t.kind ≠ .closeGuillemet := ne_of_mem_wordKinds hk (by decide)
    have hn : t.kind ≠ .newline := ne_of_mem_wordKinds hk (by decide)
    simp [hg, hn]
  rw [stereotypeText, span_append hin (by simp [hc])]
  simp [hc, h.lexemes, wordsText]

/-- A member is read from its marker on, and then from its name on. -/
theorem read_marked {marker : Option Marker} {type : Option String} {u name : Token} {left : List Token}
    (h : Row n ts (marker.map (.sign ·.sign)).toList) (hu : u.isWord) (hk : u.kind ∈ wordKinds)
    (htype : leadingType (u :: left) = (type, name :: us)) (hname : name.isWord) {m : Member}
    (hnamed : named ((marker.map (·.visibility)).getD .publicly) type name us = (m, more)) :
    read (ts ++ u :: left) = (.member m, more) := by
  have hvisibility : ∃ t more, ts ++ u :: left = t :: more ∧ t.kind ≠ .openGuillemet ∧
      visibility (t :: more) = some ((marker.map (·.visibility)).getD .publicly, u :: left) := by
    cases marker with
    | none =>
      obtain rfl := Row.nil_iff.mp h
      exact ⟨u, left, rfl, ne_of_mem_wordKinds hk (by decide), visibility_word hk left⟩
    | some mark =>
      obtain ⟨t, _, rfl, ht, _, hnil⟩ := h.exists_cons
      obtain rfl := Row.nil_iff.mp hnil
      refine ⟨t, u :: left, rfl, ?_, visibility_marker ht hu left⟩
      have hkind : t.kind = mark.sign.kind := ht.1
      rw [hkind]
      cases mark <;> decide
  obtain ⟨t, more, ht, hne, hv⟩ := hvisibility
  simp only [ht, read, hne, if_false, hv, htype, hname, if_true, hnamed]

private theorem read_member {m : MemberTerm} (h : Row n ts m.pieces)
    (hclose : close.kind = .newline) (more : List Token) :
    read (ts ++ close :: more) = (.member m.member, close :: more) := by
  obtain ⟨ms, us, rfl, hms, h⟩ := h.exists_append
  obtain ⟨ys, vs, rfl, hys, h⟩ := h.exists_append
  obtain ⟨name, zs, rfl, hname, _, hzs⟩ := h.exists_cons
  have hlexeme : name.lexeme = m.name.text := hname.2
  have htype := leadingType_run hys hname hzs hclose more
  obtain ⟨u, left, hu, hword, hk⟩ : ∃ u left, ys ++ name :: (zs ++ close :: more) = u :: left ∧
      u.isWord ∧ u.kind ∈ wordKinds := by
    match m.type, hys with
    | none, hys =>
      obtain rfl := Row.nil_iff.mp hys
      exact ⟨name, _, rfl, isWord_of_tells hname, kind_mem_wordKinds hname⟩
    | some ⟨w, isArray⟩, hys =>
      obtain ⟨u, left, rfl, hu, _, _⟩ := hys.exists_cons
      exact ⟨u, _, rfl, isWord_of_tells hu, kind_mem_wordKinds hu⟩
  have hnamed := named_run hzs hclose ((m.marker.map (·.visibility)).getD .publicly)
    (m.type.map (·.text)) name more
  have hall : ms ++ (ys ++ name :: zs) ++ close :: more =
      ms ++ (ys ++ name :: (zs ++ close :: more)) := by simp
  rw [hu] at htype
  rw [hall, hu, read_marked hms hword hk htype (isWord_of_tells hname) hnamed, hlexeme]
  rfl

/-- A line of a class is read as what it describes, up to the end of the line. -/
theorem read_run {t : MemberText} (h : Row n ts t.pieces) (hclose : close.kind = .newline)
    (more : List Token) : read (ts ++ close :: more) = (t.said, close :: more) := by
  cases t with
  | member m => exact read_member h hclose more
  | stereotype ws =>
    obtain ⟨o, us, rfl, ho, _, h⟩ := h.exists_cons
    obtain ⟨ys, vs, rfl, hys, h⟩ := h.exists_append
    obtain ⟨c, _, rfl, hc, _, hnil⟩ := h.exists_cons
    obtain rfl := Row.nil_iff.mp hnil
    have hopen : o.kind = .openGuillemet := ho.1
    have htext := stereotypeText_run hys hc.1 (close :: more)
    rw [List.cons_append, List.append_assoc, List.singleton_append, read, if_pos hopen, htext]
    rfl

end MemberLine
end Mermaid.ClassDiagram
