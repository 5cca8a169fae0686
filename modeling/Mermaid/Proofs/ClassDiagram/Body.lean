import Mermaid.Proofs.ClassDiagram.Lines
import Mermaid.Proofs.ClassDiagram.Reading

/-! The body of a class, line by line. What is read of a line does not depend on the lines behind it,
so a body of lines that are read to their end writes what its lines do. -/
namespace Mermaid.ClassDiagram
open Rule

/-- What a line of a class writes. -/
def MemberLine.events (owner : String) : MemberLine → List Event
  | .nothing => []
  | .stereotype text => [.stereotype owner text]
  | .member m => [.member owner m]

namespace Grammar
variable {s : Stream} {owner : String} {t close : Token} {ts us : List Token}

/-- Whether the body of a class ends before this token. -/
def endsBody (t : Token) : Bool := t.kind == .closeCurly || t.kind == .classWord

theorem member_eq (owner : String) (s : Stream) (ts : List Token) : member owner s ts =
    ⟨(MemberLine.read ts).1.events owner, .done (), (MemberLine.read ts).2⟩ := by
  rw [member, bind_run, take_run, Reply.follow_done]
  cases (MemberLine.read ts).1 <;> rfl

theorem body_dropWhile (owner : String) (ts : List Token) :
    body owner s (ts.dropWhile separates) = body owner s ts := by
  rw [body_run, body_run, List.dropWhile_idempotent separates ts]

theorem body_stop (h : ∀ t ∈ ts.head?, endsBody t) : body owner s ts = ⟨[], .done (), ts⟩ := by
  have hblank : ts.dropWhile separates = ts := dropWhile_separates fun t ht => by
    have hend := h t ht
    simp only [endsBody, Bool.or_eq_true, beq_iff_eq] at hend
    rcases hend with hk | hk <;> simp [separates, hk]
  rw [body_run, hblank]
  refine iterate_of_head (fun t ht => ?_) ()
  have hend := h t ht
  simp only [endsBody, Bool.or_eq_true, beq_iff_eq] at hend
  rcases hend with hk | hk <;> simp [hk]

/-- The tokens behind a round of the body: those that the member leaves, or all but the first where it
takes none. -/
def pastRound (ts : List Token) : List Token :=
  let left := (MemberLine.read ts).2
  if left.length = ts.length then left.tail else left

theorem bodyRound_eq (ts : List Token) : bodyRound owner s ts =
    ⟨(MemberLine.read ts).1.events owner, .done (), (pastRound ts).dropWhile separates⟩ := by
  simp only [bodyRound, bind_run, look_run, member_eq, Reply.follow_done, progressPast,
    skipBlankLines_run, Reply.after_mk, List.append_nil, List.nil_append, pastRound]

theorem pastRound_stuck (h : (MemberLine.read (t :: ts)).2 = t :: ts) : pastRound (t :: ts) = ts := by
  simp [pastRound, h]

theorem pastRound_moved (h : (MemberLine.read (t :: ts)).2 <:+ ts) :
    pastRound (t :: ts) = (MemberLine.read (t :: ts)).2 := by
  have hlength := h.length_le
  rw [pastRound, if_neg (by rw [List.length_cons]; omega)]

theorem pastRound_suffix (t : Token) (ts : List Token) : pastRound (t :: ts) <:+ ts := by
  rcases List.suffix_cons_iff.mp (MemberLine.reads_read (t :: ts)) with hread | hread
  · exact ⟨[], pastRound_stuck hread⟩
  · rw [pastRound_moved hread]
    exact hread

/-- A body is read by one member after the other. -/
theorem body_cons (ht : separates t = false) (hend : endsBody t = false) :
    body owner s (t :: ts) =
      (body owner s (pastRound (t :: ts))).after ((MemberLine.read (t :: ts)).1.events owner) := by
  have hready : (t.kind != .closeCurly && t.kind != .classWord) = true := by
    simp only [endsBody, Bool.or_eq_false_iff, beq_eq_false_iff_ne] at hend
    simp [hend]
  have hlength : ((pastRound (t :: ts)).dropWhile separates).length ≤ ts.length :=
    ((List.dropWhile_suffix _).trans (pastRound_suffix t ts)).length_le
  rw [body_run, dropWhile_separates (by simpa using ht), iterate_cons hready (bodyRound_eq _) hlength,
    ← body_run]

/-- What stands between the members of a line is passed over, and so is the end of the line. -/
theorem body_separates (ht : separates t) (ts : List Token) : body owner s (t :: ts) = body owner s ts := by
  rw [← body_dropWhile, List.dropWhile_cons_of_pos ht, body_dropWhile]

theorem statement_class (ht : t.kind = .classWord) (ts : List Token) :
    statement s (t :: ts) = declaration s (t :: ts) := by
  have hblank : separates t = false := by simp [separates, ht]
  simp [statement, bind_run, skipBlankLines_run, hblank, ht]

/-- The body goes on behind a line, or ends at a token of the line. What it writes until then depends on the
line alone. -/
theorem body_line (owner : String) (hus : ∀ u ∈ us, u.kind ≠ .newline) (hclose : close.kind = .newline) :
    ∃ es left, left <:+ us ∧ (∀ u ∈ left.head?, endsBody u) ∧ ∀ s more,
      body owner s (us ++ close :: more) =
        (if left = [] then body owner s more else ⟨[], .done (), left ++ close :: more⟩).after es := by
  induction hn : us.length using Nat.strongRecOn generalizing us with
  | ind n ih =>
    have hshorter : ∀ vs : List Token, vs.length < us.length → vs <:+ us → ∀ fs : List Event,
        (∀ s more, body owner s (us ++ close :: more) = (body owner s (vs ++ close :: more)).after fs) →
        ∃ es left, left <:+ us ∧ (∀ u ∈ left.head?, endsBody u) ∧ ∀ s more,
          body owner s (us ++ close :: more) =
            (if left = [] then body owner s more else ⟨[], .done (), left ++ close :: more⟩).after es := by
      intro vs hlength hvs fs hrun
      obtain ⟨es, left, hleft, hend, hmore⟩ := ih vs.length (hn ▸ hlength)
        (fun v hv => hus v (hvs.subset hv)) rfl
      exact ⟨fs ++ es, left, hleft.trans hvs, hend, fun s more => by
        rw [hrun, hmore, Reply.after_after]⟩
    cases us with
    | nil =>
      refine ⟨[], [], List.suffix_refl _, by simp, fun s more => ?_⟩
      rw [List.nil_append, body_separates (by simp [separates, hclose]), if_pos rfl, Reply.after_nil]
    | cons u us =>
      have hlength : us.length < (u :: us).length := Nat.lt_succ_self _
      cases hu : separates u with
      | true =>
        refine hshorter us hlength (us.suffix_cons u) [] fun s more => ?_
        rw [List.cons_append, body_separates hu, Reply.after_nil]
      | false =>
      cases hend : endsBody u with
      | true =>
        refine ⟨[], u :: us, List.suffix_refl _, by simpa using hend, fun s more => ?_⟩
        rw [if_neg (List.cons_ne_nil _ _), List.cons_append, Reply.after_nil]
        exact body_stop (by simpa using hend)
      | false =>
        obtain ⟨said, vs, hvs, hread⟩ := MemberLine.readsLine_read (u :: us) close hus hclose
        have hround : ∃ ws, ws <:+ us ∧ ∀ more,
            pastRound (u :: (us ++ close :: more)) = ws ++ close :: more := by
          rcases List.suffix_cons_iff.mp hvs with rfl | hvs
          · exact ⟨us, List.suffix_refl _, fun more => pastRound_stuck (congrArg Prod.snd (hread more))⟩
          · refine ⟨vs, hvs, fun more => ?_⟩
            have hleft : (MemberLine.read (u :: (us ++ close :: more))).2 = vs ++ close :: more :=
              congrArg Prod.snd (hread more)
            have hsuffix : vs ++ close :: more <:+ us ++ close :: more :=
              (List.suffix_append_inj_of_length_eq rfl).mpr ⟨hvs, rfl⟩
            rw [pastRound_moved (hleft ▸ hsuffix), hleft]
        obtain ⟨ws, hws, hpast⟩ := hround
        refine hshorter ws (Nat.lt_succ_of_le hws.length_le) (hws.trans (us.suffix_cons u))
          (said.events owner) fun s more => ?_
        have hread := hread more
        rw [List.cons_append] at hread ⊢
        rw [body_cons hu hend, hpast, hread]

end Grammar

open Grammar

/-- The line that begins a class with a body. -/
def classHead (name : Name) : String := "class " ++ name.text ++ " \x7b"

section head
variable (name : Name)

private def headLine : Line := declareLine name ++ [⟨true, .sign .openCurly⟩]

private theorem fits_headLine : (headLine name).Fits '\n' :=
  ⟨Piece.stops_space _, Piece.stops_space _, Piece.sign_stops_newline _, trivial⟩

theorem toList_classHead :
    (classHead name).toList = (declareLine name ++ [⟨true, .sign .openCurly⟩] : Line).chars := by
  simp [classHead, declareLine, Line.chars, Placed.chars, Placed.indent, Piece.chars, Word.classWord,
    Word.spelled, Word.chars, Word.text, Word.argumentChars, Sign.openCurly]

theorem unbroken_classHead : Unbroken (classHead name).toList :=
  toList_classHead name ▸ Line.unbroken (fits_headLine name)

theorem tokens_classHead (n : Nat) : ∃ us close,
    (Stream.ofTextFrom n (classHead name ++ "\n")).tokens =
        ⟨.classWord, "class", ⟨n, 1⟩⟩ :: (us ++ [close]) ∧
      Token.Row n (⟨.classWord, "class", ⟨n, 1⟩⟩ :: us)
        [.word .classWord, .word name.toWord, .sign .openCurly] ∧
      close.kind = .newline := by
  have htext : classHead name ++ "\n" = textOf [headLine name] := by
    apply String.toList_injective
    simp [textOf, toList_classHead, headLine]
  have htokens := Stream.ofTextFrom_textOf (List.forall_mem_singleton.mpr (fits_headLine name)) n
  have hword : TokenKind.ofWord "class" = .classWord := by decide
  have hfirst : (Line.tokens n 1 (headLine name)).head? = some ⟨.classWord, "class", ⟨n, 1⟩⟩ := by
    simp [headLine, declareLine, Line.tokens, Piece.kind, Piece.lexeme, Word.classWord, Placed.indent, hword]
  obtain ⟨close, hlines, hclose⟩ := Line.exists_tokensOf_cons n (headLine name) []
  obtain ⟨us, hus⟩ := List.head?_eq_some_iff.mp hfirst
  refine ⟨us, close, ?_, ?_, hclose⟩
  · rw [htext, htokens, hlines, hus]
    rfl
  · rw [← hus]
    exact Line.row_tokens n 1 (headLine name)

end head

/-- A line that can stand in the body of a class: it is read to its end there, whatever the class and the
number of the line. -/
def Inside (l : String) : Prop :=
  Unbroken l.toList ∧ ∀ (owner : String) (n : Int),
    let s := Stream.ofTextFrom n (l ++ "\n")
    (body owner s s.tokens).rest = []

/-- What the body of a class writes about lines, the first one with the number `n`. -/
def bodyEvents (owner : String) : (n : Nat) → List String → List Event
  | _, [] => []
  | n, l :: lines =>
    let s := Stream.ofTextFrom n (l ++ "\n")
    (body owner s s.tokens).events ++ bodyEvents owner (n + 1) lines

theorem bodyEvents_append (owner : String) (n : Nat) (lines more : List String) :
    bodyEvents owner n (lines ++ more) = bodyEvents owner n lines ++ bodyEvents owner (n + lines.length) more := by
  induction lines generalizing n with
  | nil => rfl
  | cons l lines ih =>
    rw [List.cons_append, bodyEvents, ih, bodyEvents, List.append_assoc, List.length_cons,
      Nat.add_assoc, Nat.add_comm 1]

section inside
variable {s : Stream} {owner l : String} {n : Nat}

/-- A line is read to its end, or up to a token at which the body ends. -/
theorem body_text (hl : Unbroken l.toList) (owner : String) (n : Int) : ∃ es left,
    (∀ u ∈ left, u ∈ (Stream.ofTextFrom n (l ++ "\n")).tokens) ∧ (∀ u ∈ left.head?, endsBody u) ∧
    ∀ s more, ∃ close, body owner s ((Stream.ofTextFrom n (l ++ "\n")).tokens ++ more) =
      (if left = [] then body owner s more else ⟨[], .done (), left ++ close :: more⟩).after es := by
  obtain ⟨us, close, htokens, hus, hclose⟩ := Stream.exists_tokens_line n hl
  obtain ⟨es, left, hleft, hend, hrun⟩ := body_line owner hus hclose
  refine ⟨es, left, fun u hu => ?_, hend, fun s more => ⟨close, ?_⟩⟩
  · rw [htokens]
    exact List.mem_append_left _ (hleft.subset hu)
  · rw [htokens, List.append_assoc, List.singleton_append, hrun]

/-- In front of other lines such a line is read as on its own. -/
theorem Inside.body_run (h : Inside l) (s : Stream) (owner : String) (n : Nat) (more : List Token) :
    let line := Stream.ofTextFrom n (l ++ "\n")
    body owner s (line.tokens ++ more) =
      (body owner s more).after (body owner line line.tokens).events := by
  intro line
  obtain ⟨es, left, -, -, hrun⟩ := body_text h.1 owner n
  obtain ⟨close, halone⟩ := hrun line []
  have hrest : (body owner line line.tokens).rest = [] := h.2 owner n
  rw [List.append_nil] at halone
  by_cases hleft : left = []
  · obtain ⟨_, hrun⟩ := hrun s more
    have hevents : (body owner line line.tokens).events = es := by
      rw [halone, if_pos hleft, body_stop (by simp), Reply.after_mk, List.append_nil]
    rw [hrun, if_pos hleft, hevents]
  · rw [halone, if_neg hleft] at hrest
    simp [Reply.after] at hrest

theorem body_lines {lines : List String} (h : ∀ l ∈ lines, Inside l) (s : Stream) (owner : String) (n : Nat)
    (more : List Token) : body owner s (Stream.lineTokens n lines ++ more) =
      (body owner s more).after (bodyEvents owner n lines) := by
  induction lines generalizing n with
  | nil => rfl
  | cons l lines ih =>
    obtain ⟨hl, hlines⟩ := List.forall_mem_cons.mp h
    rw [Stream.lineTokens, List.append_assoc, hl.body_run, ih hlines, Reply.after_after, bodyEvents]

/-- A line in which no body ends can stand in each. -/
theorem inside_of_plain (hl : Unbroken l.toList) (h : ∀ t ∈ scan (l ++ "\n"), endsBody t = false) :
    Inside l := by
  refine ⟨hl, fun owner n => ?_⟩
  obtain ⟨es, left, hleft, hend, hrun⟩ := body_text hl owner n
  have hnil : left = [] := by
    cases left with
    | nil => rfl
    | cons u left =>
      obtain ⟨t, ht, hkind⟩ := Stream.exists_kind_eq (hleft u List.mem_cons_self)
      have hplain := h t ht
      rw [endsBody, hkind] at hplain
      exact absurd (hend u rfl) (by simp [endsBody, hplain])
  obtain ⟨_, halone⟩ := hrun (Stream.ofTextFrom n (l ++ "\n")) []
  rw [List.append_nil] at halone
  dsimp only
  rw [halone, if_pos hnil, body_stop (by simp)]
  rfl

/-- The well-formed lines of classes can stand there. -/
theorem BodyLine.inside (spacing : Spacing) (line : BodyLine) :
    Inside (String.ofList (line.text.line spacing false).chars) := by
  have hfits := line.text.fits_line spacing false
  let placed := line.text.line spacing false
  refine ⟨by simpa using Line.unbroken hfits, fun owner n => ?_⟩
  have htext : String.ofList placed.chars ++ "\n" = textOf [placed] := by
    apply String.toList_injective
    simp [textOf]
  obtain ⟨close, hlines, hclose⟩ := Line.exists_tokensOf_cons n placed []
  have hrow := Line.row_tokens n 1 placed
  rw [pieces_text] at hrow
  obtain ⟨t, us, hts, hblank, hready⟩ := exists_first line hrow
  have hround : ∀ s, bodyRound owner s (t :: (us ++ [close])) =
      ⟨[line.text.event owner], .done (), []⟩ := by
    intro s
    rw [← List.cons_append, ← hts]
    exact bodyRound_run hrow (by simp [hts]) hclose owner []
  have htokens := Stream.ofTextFrom_textOf (List.forall_mem_singleton.mpr hfits) n
  dsimp only
  rw [htext, htokens, hlines, hts, List.cons_append, Grammar.body_run,
    dropWhile_separates (by simpa using hblank)]
  simp only [tokensOf]
  rw [iterate_cons hready (hround _) (Nat.zero_le _), iterate_nil]
  rfl

end inside
end Mermaid.ClassDiagram
