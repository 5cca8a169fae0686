import Mermaid.Proofs.ClassDiagram.Reporting
import Mermaid.Proofs.Grammar.Staying

/-! Class diagrams line by line. A statement that declares no class stays on its line, so a text
without declarations is drawn line by line, each line into the diagram of the lines before it. -/
namespace Mermaid.ClassDiagram
open Rule

namespace MemberLine
variable {us : List Token} {close : Token}

private theorem isWord_close (hclose : close.kind = .newline) : close.isWord = false :=
  isWord_of_separates (by simp [separates, hclose])

private theorem wordNext_line (us : List Token) (close : Token) (more : List Token) :
    wordNext (us ++ close :: more) = (us.headD close).isWord := by
  cases us <;> rfl

private theorem ends_line (u : Token) (us : List Token) (close : Token) (more : List Token) :
    ends (u :: (us ++ close :: more)) = ends (u :: (us ++ [close])) := by
  simp only [ends, wordNext_line]

theorem readsLine_rest : ReadsLine rest := by
  intro us close hus hclose
  induction us with
  | nil =>
    refine ⟨[], [], List.suffix_refl _, fun more => ?_⟩
    rw [List.nil_append, rest, if_pos (ends_newline hclose more)]
  | cons u us ih =>
    obtain ⟨taken, vs, hvs, hread⟩ := ih (List.forall_mem_cons.mp hus).2
    by_cases he : ends (u :: (us ++ [close]))
    · refine ⟨[], u :: us, List.suffix_refl _, fun more => ?_⟩
      rw [List.cons_append, rest, ends_line, if_pos he]
    · refine ⟨u :: taken, vs, hvs.trans (us.suffix_cons u), fun more => ?_⟩
      rw [List.cons_append, rest, ends_line, if_neg he, hread]

theorem readsLine_stereotypeText : ReadsLine stereotypeText := by
  intro us close hus hclose
  obtain ⟨words, vs, hvs, hread⟩ :=
    ReadsLine.span (p := fun t => t.kind != .closeGuillemet && t.kind != .newline)
      (fun t ht => by simp [ht]) us close hus hclose
  let text := " ".intercalate (words.map (·.lexeme))
  by_cases hv : vs.head?.any (·.kind == .closeGuillemet)
  · refine ⟨text, vs.tail, vs.tail_suffix.trans hvs, fun more => ?_⟩
    rw [stereotypeText, hread]
    cases vs <;> simp_all [text]
  · refine ⟨text, vs, hvs, fun more => ?_⟩
    rw [stereotypeText, hread]
    cases vs <;> simp_all [text]

/-- The visibility of a member, whatever comes behind the line; its marker is on the line. -/
private theorem visibility_line (us : List Token) (hclose : close.kind = .newline) :
    (∀ more, visibility (us ++ close :: more) = none) ∨
      ∃ v vs, vs <:+ us ∧
        ∀ more, visibility (us ++ close :: more) = some (v, vs ++ close :: more) := by
  cases us with
  | nil => exact .inr ⟨.publicly, [], List.suffix_refl _, fun more => by simp [visibility, hclose]⟩
  | cons u us =>
    have hcons := us.suffix_cons u
    simp only [List.cons_append, visibility, wordNext_line]
    split
    · exact .inr ⟨_, us, hcons, fun _ => rfl⟩
    · exact .inr ⟨_, us, hcons, fun _ => rfl⟩
    · exact .inr ⟨_, us, hcons, fun _ => rfl⟩
    · split
      · exact .inr ⟨_, us, hcons, fun _ => rfl⟩
      · exact .inl fun _ => rfl
    · exact .inr ⟨_, u :: us, List.suffix_refl _, fun _ => rfl⟩

theorem readsLine_brackets : ReadsLine brackets := by
  intro us close hus hclose
  match us with
  | [] =>
    refine ⟨"", [], List.suffix_refl _, fun more => ?_⟩
    cases more <;> simp [brackets, hclose]
  | [u] => exact ⟨"", [u], List.suffix_refl _, fun more => by simp [brackets, hclose]⟩
  | t :: u :: us =>
    by_cases h : t.kind = .openSquare ∧ u.kind = .closeSquare
    · refine ⟨"[]", us, (us.suffix_cons u).trans ((u :: us).suffix_cons t), fun more => ?_⟩
      simp [brackets, h]
    · refine ⟨"", t :: u :: us, List.suffix_refl _, fun more => ?_⟩
      simp only [List.cons_append, brackets]
      rw [if_neg (by simpa using h)]

theorem readsLine_leadingType : ReadsLine leadingType := by
  intro us close hus hclose
  cases us with
  | nil =>
    refine ⟨none, [], List.suffix_refl _, fun more => ?_⟩
    simp [leadingType, isWord_close hclose]
  | cons u us =>
    obtain ⟨suffix, vs, hvs, hread⟩ :=
      readsLine_brackets us close (List.forall_mem_cons.mp hus).2 hclose
    by_cases h : u.isWord && (vs.headD close).isWord
    · refine ⟨some (u.lexeme ++ suffix), vs, hvs.trans (us.suffix_cons u), fun more => ?_⟩
      rw [List.cons_append, leadingType, hread]
      simp only [wordNext_line, h, if_true]
    · refine ⟨none, u :: us, List.suffix_refl _, fun more => ?_⟩
      rw [List.cons_append, leadingType, hread]
      simp only [wordNext_line, h, if_false, Bool.false_eq_true]

private theorem pastParameters_line (hus : ∀ u ∈ us, u.kind ≠ .newline)
    (hclose : close.kind = .newline) (opened : Int) :
    ∃ vs, vs <:+ us ∧ ∀ more, pastParameters opened (us ++ close :: more) = vs ++ close :: more := by
  induction us generalizing opened with
  | nil => exact ⟨[], List.suffix_refl _, fun more => by simp [pastParameters, hclose]⟩
  | cons u us ih =>
    obtain ⟨hu, hus⟩ := List.forall_mem_cons.mp hus
    by_cases hend : u.kind = .newline || u.kind = .closeCurly
    · refine ⟨u :: us, List.suffix_refl _, fun more => ?_⟩
      rw [List.cons_append, pastParameters, if_pos hend]
    by_cases hpast : opened + depth u.kind ≤ 0
    · refine ⟨us, us.suffix_cons u, fun more => ?_⟩
      rw [List.cons_append, pastParameters, if_neg hend, if_pos hpast]
    · obtain ⟨vs, hvs, hread⟩ := ih hus (opened + depth u.kind)
      refine ⟨vs, hvs.trans (us.suffix_cons u), fun more => ?_⟩
      rw [List.cons_append, pastParameters, if_neg hend, if_neg hpast, hread]

theorem readsLine_parameters : ReadsLine parameters := by
  intro us close hus hclose
  cases us with
  | nil => exact ⟨none, [], List.suffix_refl _, fun more => by simp [parameters, hclose]⟩
  | cons u us =>
    obtain ⟨hu, hus⟩ := List.forall_mem_cons.mp hus
    by_cases hopen : u.kind = .openRound
    · obtain ⟨vs, hvs, hpast⟩ := pastParameters_line hus hclose 1
      have hline : ∀ v ∈ vs, v.kind ≠ .newline := fun v hv => hus v (hvs.subset hv)
      by_cases hword : (vs.headD close).isWord
      · obtain ⟨words, ws, hws, hread⟩ := readsLine_rest vs close hline hclose
        refine ⟨some (some (" ".intercalate (words.map (·.lexeme)))), ws,
          hws.trans (hvs.trans (us.suffix_cons u)), fun more => ?_⟩
        rw [List.cons_append, parameters, if_pos hopen]
        simp only [hpast, wordNext_line, hword, if_true, hread]
      · refine ⟨some none, vs, hvs.trans (us.suffix_cons u), fun more => ?_⟩
        rw [List.cons_append, parameters, if_pos hopen]
        simp only [hpast, wordNext_line, hword, if_false, Bool.false_eq_true]
    · refine ⟨none, u :: us, List.suffix_refl _, fun more => ?_⟩
      rw [List.cons_append, parameters, if_neg hopen]

private theorem typeWords_line (us : List Token) (hclose : close.kind = .newline) :
    ∃ words method vs, vs <:+ us ∧
      ∀ more, typeWords (us ++ close :: more) = (words, method, vs ++ close :: more) := by
  induction us with
  | nil =>
    refine ⟨[], false, [], List.suffix_refl _, fun more => ?_⟩
    rw [List.nil_append, typeWords, if_pos (ends_newline hclose more)]
  | cons u us ih =>
    by_cases he : ends (u :: (us ++ [close]))
    · refine ⟨[], false, u :: us, List.suffix_refl _, fun more => ?_⟩
      rw [List.cons_append, typeWords, ends_line, if_pos he]
    by_cases hopen : u.kind = .openRound
    · refine ⟨[], true, u :: us, List.suffix_refl _, fun more => ?_⟩
      rw [List.cons_append, typeWords, ends_line, if_neg he, if_pos hopen]
    · obtain ⟨words, method, vs, hvs, hread⟩ := ih
      refine ⟨u.lexeme :: words, method, vs, hvs.trans (us.suffix_cons u), fun more => ?_⟩
      rw [List.cons_append, typeWords, ends_line, if_neg he, if_neg hopen, hread]

private theorem trailingType_line (us : List Token) (hclose : close.kind = .newline) :
    ∃ type method vs, vs <:+ us ∧
      ∀ more, trailingType (us ++ close :: more) = (type, method, vs ++ close :: more) := by
  cases us with
  | nil => exact ⟨none, false, [], List.suffix_refl _, fun more => by simp [trailingType, hclose]⟩
  | cons u us =>
    by_cases hcolon : u.kind = .colon
    · obtain ⟨words, method, vs, hvs, hread⟩ := typeWords_line us hclose
      refine ⟨if words = [] then none else some (Text.joinWords words), method, vs,
        hvs.trans (us.suffix_cons u), fun more => ?_⟩
      rw [List.cons_append, trailingType, if_pos hcolon, hread]
    · refine ⟨none, false, u :: us, List.suffix_refl _, fun more => ?_⟩
      rw [List.cons_append, trailingType, if_neg hcolon]

theorem readsLine_named (v : Visibility) (type : Option String) (name : Token) :
    ReadsLine (named v type name) := by
  intro us close hus hclose
  obtain ⟨returned, vs, hvs, hparameters⟩ := readsLine_parameters us close hus hclose
  obtain ⟨declared, method, ws, hws, htype⟩ := trailingType_line vs hclose
  obtain ⟨_, xs, hxs, hrest⟩ := readsLine_rest ws close
    (fun w hw => hus w (hvs.subset (hws.subset hw))) hclose
  let member : Member := {
    name := name.lexeme, visibility := v
    isMethod := returned.isSome || method
    type := (declared.or (returned.getD none)).or type }
  refine ⟨member, xs, hxs.trans (hws.trans hvs), fun more => ?_⟩
  rw [named, hparameters]
  simp only [htype, hrest, member]

theorem readsLine_read : ReadsLine read := by
  intro us close hus hclose
  by_cases hopen : us.head?.any (·.kind == .openGuillemet)
  · cases us with
    | nil => cases hopen
    | cons u us =>
      have hu : u.kind = .openGuillemet := by simpa using hopen
      obtain ⟨text, vs, hvs, hread⟩ :=
        readsLine_stereotypeText us close (List.forall_mem_cons.mp hus).2 hclose
      refine ⟨.stereotype text, vs, hvs.trans (us.suffix_cons u), fun more => ?_⟩
      rw [List.cons_append, read, if_pos hu, hread]
  have hfirst : ∀ more, ∃ t ts, us ++ close :: more = t :: ts ∧ t.kind ≠ .openGuillemet := by
    intro more
    cases us with
    | nil => exact ⟨close, more, rfl, by simp [hclose]⟩
    | cons u us => exact ⟨u, us ++ close :: more, rfl, by simpa using hopen⟩
  rcases visibility_line us hclose with hnone | ⟨v, vs, hvs, hvisibility⟩
  · refine ⟨.nothing, us, us.suffix_refl, fun more => ?_⟩
    obtain ⟨t, ts, hts, ht⟩ := hfirst more
    have hnone := hnone more
    rw [hts] at hnone ⊢
    simp only [read, if_neg ht, hnone]
  obtain ⟨type, ws, hws, htype⟩ :=
    readsLine_leadingType vs close (fun v hv => hus v (hvs.subset hv)) hclose
  by_cases hword : (ws.headD close).isWord
  · cases ws with
    | nil =>
      rw [List.headD_nil, isWord_close hclose] at hword
      cases hword
    | cons w ws =>
      have hw : w.isWord := hword
      obtain ⟨m, xs, hxs, hnamed⟩ := readsLine_named v type w ws close
        (fun x hx => hus x (hvs.subset (hws.subset (List.mem_cons_of_mem w hx)))) hclose
      refine ⟨.member m, xs, hxs.trans ((ws.suffix_cons w).trans (hws.trans hvs)), fun more => ?_⟩
      obtain ⟨t, ts, hts, ht⟩ := hfirst more
      have hvisibility := hvisibility more
      rw [hts] at hvisibility ⊢
      simp only [read, if_neg ht, hvisibility, htype, List.cons_append, hw, if_true, hnamed]
  · refine ⟨.nothing, ws, hws.trans hvs, fun more => ?_⟩
    obtain ⟨t, ts, hts, ht⟩ := hfirst more
    have hvisibility := hvisibility more
    rw [hts] at hvisibility ⊢
    cases ws with
    | nil =>
      have hw : close.isWord = false := isWord_close hclose
      simp [read, ht, hvisibility, htype, hw]
    | cons w ws =>
      have hw : w.isWord = false := by simpa using hword
      simp [read, ht, hvisibility, htype, hw]

end MemberLine

namespace Grammar
variable {banned k : TokenKind}

theorem stays_restText : Stays banned restText := .bind .skipLine fun _ => .pure _

theorem stays_title (hk : k ≠ .newline) : StaysAt banned k title :=
  .bind (.advance hk) fun _ => .bind stays_restText fun _ => .emit _

theorem stays_member (owner : String) : Stays banned (member owner) := by
  refine .bind (.take MemberLine.readsLine_read) fun said => ?_
  cases said with
  | nothing => exact .pure _
  | stereotype text => exact .emit _
  | member m => exact .emit _

theorem stays_stereotype (hk : k ≠ .newline) : StaysAt banned k stereotype :=
  .bind (.advance hk) fun _ => .bind (.take MemberLine.readsLine_stereotypeText) fun _ =>
    .bind (.expect (by decide) _) fun _ => .bind (.emit _) fun _ => .emit _

/-- A rule that goes on with whether a token is next that stands before a link. -/
private theorem stays_beforeLink {α : Type} {inClass : TokenKind → Bool} {next : Bool → Rule Event α}
    (hclass : inClass .newline = false) (hno : Stays banned (next false))
    (hyes : ∀ k, k ≠ .newline → StaysAt banned k (next true)) :
    Stays banned (look (beforeLink inClass) >>= next) := by
  refine .lookBind fun us close hus hclose => ?_
  match us with
  | [] =>
    refine ⟨false, fun more => ?_, hno _⟩
    cases more <;> simp [beforeLink, hclose, hclass]
  | [u] =>
    refine ⟨false, fun more => ?_, hno _⟩
    simp [beforeLink, hclose, relation?]
  | t :: u :: us =>
    refine ⟨beforeLink inClass (t :: u :: us), fun _ => rfl, ?_⟩
    cases beforeLink inClass (t :: u :: us) with
    | true => exact hyes t.kind (hus t List.mem_cons_self).1
    | false => exact hno _

theorem stays_sourceCardinality : Stays banned sourceCardinality := by
  refine stays_beforeLink (by decide) (.pure _) fun k hk => ?_
  exact .bind (.advance hk) fun _ => .pure _

theorem stays_targetCardinality : Stays banned targetCardinality := by
  refine .nextKindBind fun k => ?_
  by_cases h : some k = some .string
  · rw [if_pos h]
    have hk : k ≠ .newline := by simp_all
    exact .bind (.advance hk) fun _ => .pure _
  · rw [if_neg h]
    exact Stays.pure _ k

private theorem readsLine_fragments :
    ReadsLine fun ts => ((), ts.dropWhile (isFragment ·.kind)) := by
  intro us close hus hclose
  obtain ⟨_, vs, hvs, hread⟩ :=
    ReadsLine.span (p := fun t => isFragment t.kind) (fun t ht => by rw [ht]; rfl) us close hus hclose
  refine ⟨(), vs, hvs, fun more => ?_⟩
  have hread := hread more
  rw [List.span_eq_takeWhile_dropWhile] at hread
  exact congrArg (Prod.mk ()) (Prod.mk.inj hread).2

theorem stays_relation (source : Token) (cardinality : Option String) (type : RelationType)
    (hk : k ≠ .newline) : StaysAt banned k (relation source cardinality type) := by
  refine .emitBind _ (.bind (.advance hk) fun _ => .bind (.take readsLine_fragments) fun _ =>
    .bind stays_targetCardinality fun _ => .bind (.expect (by decide) _) fun _ =>
      .bind (.emit _) fun _ => .bind (.accept (by decide)) fun given => ?_)
  cases given with
  | true => exact .bind (.map _ stays_restText) fun _ => .emit _
  | false => exact .bind (.pure _) fun _ => .emit _

theorem stays_relationOrReference (hk : k ≠ .newline) : StaysAt banned k relationOrReference := by
  refine .bind (.advance hk) fun source => .bind stays_sourceCardinality fun cardinality => ?_
  extract_lets last
  have hlast : ∀ u, Stays banned (last u) := by
    refine fun u => .nextKindBind fun k => ?_
    cases hr : (some k).bind relation? with
    | some type =>
      have hk : k ≠ .newline := by
        rintro rfl
        cases hr
      exact stays_relation source cardinality type hk
    | none =>
      refine Stays.bind (.accept (by decide)) (fun withMember => .bind (.emit _) fun _ => ?_) k
      cases withMember with
      | true => exact stays_member _
      | false => exact .pure _
  exact stays_beforeLink (by decide) (hlast ()) fun k hk => .bind (.advance hk) fun _ => hlast ()

/-- Statements stay on their lines, declarations of classes apart. -/
theorem lineLocal_statement : LineLocal .classWord (fun _ => True) statement where
  taken :=
    have htakes : Takes True statement := takes_statement
    htakes.taken
  stays k hk hclass := by
    refine .pastBlank hk ?_
    split
    · contradiction
    · exact stays_title hk.1
    · simp_all
    · exact stays_stereotype hk.1
    · exact stays_relationOrReference hk.1
    · exact .bind (.advance hk.1) fun _ => .pure _
  events _ _ _ _ _ _ _ := trivial
  recovered _ := trivial
  restarts := rfl

end Grammar

/-- Draws one line into a diagram: a block of statements, with the tokens of the line as line `n`. -/
def addLine (d : ClassDiagram) (l : String) (n : Nat) : ClassDiagram :=
  d.applyAll (lineEvents Grammar.statement l n)

/-- Draws lines into a diagram one after the other, the first one as line `n`. -/
def addLines (d : ClassDiagram) (lines : List String) (n : Nat) : ClassDiagram :=
  (lines.zipIdx n).foldl (fun d (l, n) => d.addLine l n) d

theorem applyAll_append (d : ClassDiagram) (es fs : List Event) :
    d.applyAll (es ++ fs) = (d.applyAll es).applyAll fs := List.foldl_append

private theorem applyAll_lines (d : ClassDiagram) (lines : List String) (n : Nat) :
    d.applyAll ((lines.zipIdx n).flatMap fun (l, n) => lineEvents Grammar.statement l n) =
      d.addLines lines n := by
  induction lines generalizing d n with
  | nil => rfl
  | cons l lines ih =>
    rw [List.zipIdx_cons, List.flatMap_cons, applyAll_append, ih]
    rfl

/-- What events do to a diagram does not depend on its diagnostics, and the diagnostics that they add
do not depend on the diagram. -/
theorem applyAll_withDiagnostics (d : ClassDiagram) (ds : List Diagnostic) (events : List Event) :
    applyAll { d with diagnostics := ds } events =
      { d.applyAll events with diagnostics := ds ++ events.filterMap Event.diagnostic? } := by
  induction events generalizing d ds with
  | nil => simp [applyAll]
  | cons e events ih =>
    have happly : apply { d with diagnostics := ds } e =
        { d.apply e with diagnostics := ds ++ e.diagnostic?.toList } := by
      cases e with
      | fault _ | recovered _ => rfl
      | title _ | mention _ _ | declare _ _ | stereotype _ _ | member _ _ | relate _ =>
        simp [apply, ensureClass, declareClass, setStereotype, addMember, addRelation,
          Event.diagnostic?]
    rw [applyAll, List.foldl_cons, ← applyAll, happly, ih, List.append_assoc, List.filterMap_cons]
    cases e.diagnostic? <;> rfl

/-- What lines do to a diagram does not depend on the diagnostics of the lines before them, and the
diagnostics that they add do not depend on the diagram. -/
theorem addLines_withDiagnostics (lines : List String) (n : Nat) : ∃ added, ∀ d ds,
    addLines { d with diagnostics := ds } lines n =
      { addLines d lines n with diagnostics := ds ++ added } := by
  refine ⟨((lines.zipIdx n).flatMap fun (l, n) =>
    lineEvents Grammar.statement l n).filterMap Event.diagnostic?, fun d ds => ?_⟩
  rw [← applyAll_lines, ← applyAll_lines, applyAll_withDiagnostics]

namespace Grammar

theorem header_run {s : Stream} {t : Token} (ht : t.kind = .classDiagram)
    (rest : List Token) : header s (t :: rest) = ⟨[], .done (), rest⟩ := by
  have hblank : separates t = false := by simp [separates, ht]
  simp [header, bind_run, skipBlankLines_run, hblank, accept_cons ht]

/-- Below its header a document is the block of its lines. -/
theorem document_below {lines : List String} (h : ∀ l ∈ lines, Unbroken l.toList) :
    let s := Stream.ofText ("classDiagram\n" ++ String.join (lines.map (· ++ "\n")))
    Stream.lineTokens 2 lines <:+ s.tokens ∧
      document s s.tokens = block statement none s (Stream.lineTokens 2 lines) := by
  intro s
  obtain ⟨t, close, hheader, ht, hclose⟩ : ∃ t close,
      (Stream.ofTextFrom 1 "classDiagram\n").tokens = [t, close] ∧ t.kind = .classDiagram ∧
        close.kind = .newline :=
    ⟨_, _, rfl, rfl, rfl⟩
  have htokens : s.tokens = t :: close :: Stream.lineTokens 2 lines :=
    (Stream.tokens_below "classDiagram" (by decide) h).trans
      (congrArg (· ++ Stream.lineTokens 2 lines) hheader)
  refine ⟨⟨[t, close], htokens.symm⟩, ?_⟩
  rw [htokens, document, bind_run, header_run ht, Reply.follow_done, block_run,
    dropWhile_close hclose, ← block_run, Reply.after_nil]

/-- A document of plain lines writes what the blocks of its lines do. -/
theorem document_lines {lines : List String} (h : ∀ l ∈ lines, PlainLine .classWord l) :
    let s := Stream.ofText ("classDiagram\n" ++ String.join (lines.map (· ++ "\n")))
    document s s.tokens = ⟨(lines.zipIdx 2).flatMap fun (l, n) => lineEvents statement l n,
      .done (), []⟩ := by
  intro s
  obtain ⟨hsuffix, hdocument⟩ := document_below fun l hl => (h l hl).1
  rw [hdocument, lineLocal_statement.block_lines h 2 hsuffix]

end Grammar

/-- A text without declarations of classes is drawn line by line. -/
theorem parse_lines {lines : List String} (h : ∀ l ∈ lines, PlainLine .classWord l) :
    parse ("classDiagram\n" ++ String.join (lines.map (· ++ "\n"))) = empty.addLines lines 2 := by
  rw [parse, ofStream, Grammar.document_lines h, ofReply_of_done rfl]
  exact applyAll_lines empty lines 2

end Mermaid.ClassDiagram
