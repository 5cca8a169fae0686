import Mermaid.Proofs.ClassDiagram.TypeWords
import Mermaid.Proofs.Grammar.Commenting

/-! The class diagram grammar run with the comments of a stream and without them. Every rule takes a
comment for the end of its line, but the type of a member and a stereotype have it among their words
wherever the document reads one. -/
namespace Mermaid.ClassDiagram
open Rule Token

namespace Grammar

/-- The places at which a document enters a statement. -/
def StatementPlace (s : Stream) (us : List Token) : Prop :=
  Entered statement none s (header s s.tokens).rest us

/-- The places at which the body of a class reads a member, if it begins at `ts`. -/
def BodyPlace (owner : String) (s : Stream) (ts us : List Token) : Prop :=
  Rounds (fun t => t.kind != .closeCurly && t.kind != .classWord) (fun _ => bodyRound owner) s ()
    (ts.dropWhile separates) () us

/-- The places at which a document reads a member: behind the name of a class with a colon, and in the
bodies of classes. -/
inductive MemberPlace (s : Stream) : List Token → Prop
  | named {owner colon : Token} {ts : List Token} (h : StatementPlace s (owner :: colon :: ts))
      (howner : owner.kind = .identifier) (hcolon : colon.kind = .colon) : MemberPlace s ts
  | inside {word name brace : Token} {ts us vs : List Token} (h : StatementPlace s (word :: name :: ts))
      (hword : word.kind = .classWord) (hname : name.kind = .identifier)
      (hopen : ts.dropWhile separates = brace :: us) (hbrace : brace.kind = .openCurly)
      (hvs : BodyPlace name.lexeme s us vs) : MemberPlace s vs

/-- The places behind the marks with which a document opens a stereotype. -/
inductive StereotypePlace (s : Stream) : List Token → Prop
  | statement {mark : Token} {ts : List Token} (h : StatementPlace s (mark :: ts))
      (hmark : mark.kind = .openGuillemet) : StereotypePlace s ts
  | member {mark : Token} {ts : List Token} (h : MemberPlace s (mark :: ts))
      (hmark : mark.kind = .openGuillemet) : StereotypePlace s ts

end Grammar

open Grammar MemberLine

/-- The type that a member of the document has without the comments: that of its words but for the comment
among them. -/
def Retyped (s : Stream) (m : Member) (type : Option String) : Prop :=
  ∃ ts w, MemberPlace s ts ∧ MemberAt ts m w ∧ m.type = w.type ∧ type = w.uncommented.type

/-- A stereotype of the document with the comments and without them: its words, and these but for the comment
among them. -/
def Restereotyped (s : Stream) (text text' : String) : Prop :=
  ∃ ts, StereotypePlace s ts ∧ text = " ".intercalate ((stereotypeWords ts).map (·.lexeme)) ∧
    text' = " ".intercalate ((uncommented (stereotypeWords ts)).map (·.lexeme))

/-- Whether an event holds neither a type nor a stereotype. -/
def Event.wordless : Event → Bool
  | .stereotype _ _ | .member _ _ => false
  | _ => true

/-- Events that differ in types of which `T` holds, in stereotypes of which `U` holds, and in the
columns of faults. -/
inductive Event.Alike (T : Member → Option String → Prop) (U : String → String → Prop) :
    Event → Event → Prop
  | same {e : Event} (h : e.wordless) : Alike T U e e
  | stereotype {owner text text' : String} (h : U text text') :
      Alike T U (.stereotype owner text) (.stereotype owner text')
  | member {owner : String} {m : Member} {type : Option String} (h : T m type) :
      Alike T U (.member owner m) (.member owner { m with type })
  | fault {d d' : Diagnostic} (h : d.SameLine d') : Alike T U (.fault d) (.fault d')
  | recovered {d d' : Diagnostic} (h : d.SameLine d') : Alike T U (.recovered d) (.recovered d')

namespace Grammar
variable {s : Stream} {T : Member → Option String → Prop} {U : String → String → Prop} {k : TokenKind}
  {ts : List Token}

theorem alike_restText : Alike s (Event.Alike T U) Eq restText restText := by
  refine .bind .skipLine fun line line' h => .pure ?_
  rw [h, uncommented, List.filter_filter]
  simp

theorem alike_title (hk : k ≠ .newline) : AlikeAt s (Event.Alike T U) Eq k title title :=
  .bindEq (.advance hk) fun _ => .bindEq alike_restText fun _ => .emit (.same rfl)

private theorem beforeLink_eq {inClass : TokenKind → Bool} (hn : inClass .newline = false)
    (hc : inClass .comment = false) (ts : List Token) :
    beforeLink inClass ts = (inClass (lineKind ts) && (relation? (lineKind ts.tail)).isSome) := by
  match ts with
  | [] => simp [beforeLink, lineKind, hn]
  | [t] => simp [beforeLink, lineKind, relation?]
  | t :: u :: ts =>
    rw [beforeLink, List.tail_cons, lineKind, lineKind]
    split
    · rename_i ht
      simp [ht, hn, hc]
    · split
      · rename_i hu
        simp [hu, relation?]
      · rfl

private theorem beforeLink_uncommented {inClass : TokenKind → Bool} (hn : inClass .newline = false)
    (hc : inClass .comment = false) (hts : s.Remains ts) :
    beforeLink inClass (uncommented ts) = beforeLink inClass ts := by
  rw [beforeLink_eq hn hc, beforeLink_eq hn hc, hts.lineKind_uncommented]
  by_cases hline : lineKind ts = .newline
  · rw [hline, hn]
    rfl
  · obtain ⟨t, us, rfl, -, -, hless⟩ := exists_cons_of_lineKind hline rfl
    rw [hless, List.tail_cons, List.tail_cons, hts.tail.lineKind_uncommented]

/-- A token right before a link stands inside its line. -/
private theorem exists_link {inClass : TokenKind → Bool} (hn : inClass .newline = false)
    (hc : inClass .comment = false) (h : beforeLink inClass ts) :
    lineKind ts ≠ .newline ∧ ∀ t us, ts = t :: us → (relation? (lineKind us)).isSome := by
  rw [beforeLink_eq hn hc, Bool.and_eq_true] at h
  refine ⟨fun hline => ?_, fun t us hus => ?_⟩
  · rw [hline, hn] at h
    cases h.1
  · subst hus
    exact h.2

theorem alike_sourceCardinality :
    Alike s (Event.Alike T U) Eq sourceCardinality sourceCardinality :=
  .lookBind (fun _ hts => beforeLink_uncommented rfl rfl hts) (fun _ h => (exists_link rfl rfl h).1)
    (fun _ hk => .bindEq (.advance hk) fun _ => .pure rfl) (.pure rfl)

theorem alike_targetCardinality :
    Alike s (Event.Alike T U) Eq targetCardinality targetCardinality := by
  refine .nextKindBind (fun k hk => ?_) fun o ho o' ho' => ?_
  · by_cases h : some k = some .string
    · rw [if_pos h]
      exact .bindEq (.advance hk) fun _ => .pure rfl
    · rw [if_neg h]
      exact Alike.pure rfl k
  · have hnone : ∀ o ∈ endKinds, o ≠ some .string := by decide
    rw [if_neg (hnone o ho), if_neg (hnone o' ho')]
    exact Alike.pure rfl .newline

/-- Fragments of a link stand inside a line. -/
private theorem alike_fragments {α : Type} {next : Rule Event α}
    (hnext : Alike s (Event.Alike T U) Eq next next) :
    Alike s (Event.Alike T U) Eq
      (do let _ ← take fun ts => ((), ts.dropWhile (isFragment ·.kind)); next)
      (do let _ ← take fun ts => ((), ts.dropWhile (isFragment ·.kind)); next) := by
  refine .bindEq (.take (fun _ => List.dropWhile_suffix _) fun ts hts => ⟨rfl, ?_⟩) fun _ => hnext
  induction ts with
  | nil => rfl
  | cons t ts ih =>
    by_cases ht : t.kind = .comment
    · have hhead := hts.head_uncommented (by rw [lineKind, if_pos ht])
      have hstop : isFragment t.kind = false := by rw [ht]; rfl
      rw [List.dropWhile_cons_of_neg (by simp [hstop])]
      cases hless : uncommented (t :: ts) with
      | nil => rfl
      | cons u us =>
        rw [hless] at hhead
        have hstop : isFragment u.kind = false := by rw [hhead u rfl]; rfl
        rw [List.dropWhile_cons_of_neg (by simp [hstop])]
    · rw [uncommented_cons ht, List.dropWhile_cons, List.dropWhile_cons]
      split
      · exact ih hts.tail
      · exact (uncommented_cons ht ts).symm

theorem alike_relation (source : Token) (cardinality : Option String) (type : RelationType)
    (hk : k ≠ .newline) : AlikeAt s (Event.Alike T U) Eq k (relation source cardinality type)
      (relation source cardinality type) := by
  refine .emitBind (.same rfl) (.bindEq (.advance hk) fun _ => alike_fragments ?_)
  refine .bindEq alike_targetCardinality fun _ => .bindEq (.expect (by decide) _) fun _ =>
    .bindEq (.emit (.same rfl)) fun _ => .bindEq (.accept (by decide)) fun given => ?_
  cases given with
  | true => exact .bindEq (.map alike_restText fun _ _ => congrArg some) fun _ => .emit (.same rfl)
  | false => exact .bindEq (.pure rfl) fun _ => .emit (.same rfl)

/-- If a colon comes next, a member is read behind it. -/
private def BeforeMember (s : Stream) (ts : List Token) : Prop :=
  ∀ colon us, ts = colon :: us → colon.kind = .colon → MemberPlace s us

private theorem BeforeMember.of_link (h : (relation? (lineKind ts)).isSome) : BeforeMember s ts := by
  rintro colon us rfl hcolon
  have hline : lineKind (colon :: us) = .colon := (lineKind_cons_eq_iff (by decide) (by decide)).mpr hcolon
  rw [hline] at h
  cases h

/-- A cardinality stands before a link. -/
private theorem BeforeMember.past (h : BeforeMember s ts) :
    BeforeMember s (sourceCardinality s ts).rest := by
  rw [sourceCardinality, bind_run, look_run, Reply.follow_done, Reply.after_nil]
  cases hview : beforeLink (· == .string) ts with
  | true =>
    obtain ⟨hline, hlink⟩ := exists_link rfl rfl hview
    obtain ⟨t, us, rfl, -⟩ := exists_cons_of_lineKind hline rfl
    exact .of_link (hlink t us rfl)
  | false => exact h

section members
variable (hT : ∀ m type, Retyped s m type → T m type)
  (hU : ∀ text text', Restereotyped s text text' → U text text')
include hT hU

theorem alike_member (owner : String) (hts : s.Remains ts) (hplace : MemberPlace s ts) :
    AlikeFrom s (Event.Alike T U) Eq ts (member owner) (member owner) := by
  obtain ⟨hleft, hsaid⟩ := read_uncommented hts
  rw [AlikeFrom, member_eq, member_eq]
  refine ⟨?_, .done rfl, hleft, reads_read ts⟩
  generalize (read ts).1 = said at hsaid
  generalize (read (uncommented ts)).1 = said' at hsaid
  cases hsaid with
  | nothing => exact .nil
  | stereotype hmore hmark =>
    subst hmore
    exact .cons (.stereotype (hU _ _ ⟨_, .member hplace hmark, rfl, rfl⟩)) .nil
  | member h => exact .cons (.member (hT _ _ ⟨ts, _, hplace, h, h.type, rfl⟩)) .nil

/-- The members of a class, each one where a line begins. -/
theorem alike_body (owner : String) (hts : s.Remains ts)
    (hplaces : ∀ us, BodyPlace owner s ts us → MemberPlace s us) :
    AlikeFrom s (Event.Alike T U) Eq ts (body owner) (body owner) := by
  have hsure : Sure (member owner) := fun _ ts => ⟨(), by rw [member_eq]⟩
  have hsteady : Steady True (member owner) := steady_member owner
  refine .pastBlankLoop (fun _ => .progress hsure hsteady .skipBlankLines) (fun _ t us _ _ => ?_) () hts
    fun _ us hus hremains hline =>
      .progress hremains hline (alike_member hT hU owner hremains (hplaces us hus)) .skipBlankLines
  exact ⟨pastRound (t :: us), congrArg Reply.rest (bodyRound_eq (t :: us))⟩

theorem alike_declaration {word : Token} (hts : s.Remains (word :: ts)) (hword : word.kind = .classWord)
    (hplace : StatementPlace s (word :: ts)) :
    AlikeFrom s (Event.Alike T U) Eq (word :: ts) declaration declaration := by
  have hline : lineKind (word :: ts) ≠ .newline := by simp [lineKind, hword]
  refine .advanceBind hline fun _ us hus => ?_
  obtain ⟨rfl, rfl⟩ := List.cons.inj hus
  refine .expectBind (by decide) hts.tail fun name us hus hname => ?_
  subst hus
  have hus : s.Remains us := hts.tail.tail
  refine .bind (Alike.emit (.same rfl) _ us hus rfl) fun _ _ _ _ => ?_
  refine .bind (Alike.skipBlankLines _ us hus rfl) fun _ _ _ _ => ?_
  have hleft : s.Remains (us.dropWhile separates) := hus.after (List.dropWhile_suffix _)
  refine .acceptBind (by decide) hleft (fun brace vs hopen hbrace => ?_) (Alike.pure rfl _ _ hleft rfl)
  rw [hopen] at hleft
  refine .bind (alike_body hT hU name.lexeme hleft.tail fun ws hws =>
    .inside hplace hword hname hopen hbrace hws) fun _ _ _ _ => ?_
  have hbody : Steady True (body name.lexeme) := steady_body name.lexeme
  have hbehind := hleft.tail.after (hbody.rest s vs)
  exact .expectBind (by decide) hbehind fun t us hus _ => Alike.pure rfl _ us (hbehind.tail_of_eq hus) rfl

omit hT in
theorem alike_stereotype {mark : Token} (hts : s.Remains (mark :: ts)) (hmark : mark.kind = .openGuillemet)
    (hplace : StatementPlace s (mark :: ts)) :
    AlikeFrom s (Event.Alike T U) Eq (mark :: ts) stereotype stereotype := by
  obtain ⟨hleft, hwords⟩ := stereotypeText_uncommented ts
  have htext : U (stereotypeText ts).1 (stereotypeText (uncommented ts)).1 :=
    hU _ _ ⟨ts, .statement hplace hmark, stereotypeText_fst ts, by rw [stereotypeText_fst, hwords]⟩
  have hline : lineKind (mark :: ts) ≠ .newline := by simp [lineKind, hmark]
  refine .advanceBind hline fun _ us hus => ?_
  obtain ⟨rfl, rfl⟩ := List.cons.inj hus
  have htake : AlikeFrom s (Event.Alike T U) U ts (take stereotypeText) (take stereotypeText) :=
    ⟨.nil, .done htext, hleft, reads_stereotypeText ts⟩
  have hremains := hts.tail.after (reads_stereotypeText ts)
  refine htake.bind fun text text' _ h => .expectBind (by decide) hremains fun name us hus _ => ?_
  have hrest : s.Remains us := hremains.tail_of_eq hus
  exact .bind (Alike.emit (.same rfl) _ us hrest rfl) fun _ _ _ _ =>
    Alike.emit (.stereotype h) _ us hrest rfl

/-- The name of a class, behind which a member may stand. -/
private theorem alike_reference (owner : Token) (hts : s.Remains ts) (hbefore : BeforeMember s ts) :
    AlikeFrom s (Event.Alike T U) Eq ts
      (do
        let withMember ← accept .colon
        emit (.mention owner.lexeme owner.position.line)
        if withMember then member owner.lexeme)
      (do
        let withMember ← accept .colon
        emit (.mention owner.lexeme owner.position.line)
        if withMember then member owner.lexeme) := by
  refine .acceptBind (by decide) hts (fun colon us hus hcolon => ?_)
    (.bind (Alike.emit (.same rfl) _ ts hts rfl) fun _ _ _ _ => Alike.pure rfl _ ts hts rfl)
  have hrest : s.Remains us := hts.tail_of_eq hus
  exact .bind (Alike.emit (.same rfl) _ us hrest rfl) fun _ _ _ _ =>
    alike_member hT hU owner.lexeme hrest (hbefore colon us hus hcolon)

theorem alike_relationOrReference {owner : Token} (hts : s.Remains (owner :: ts))
    (howner : owner.kind = .identifier) (hplace : StatementPlace s (owner :: ts)) :
    AlikeFrom s (Event.Alike T U) Eq (owner :: ts) relationOrReference relationOrReference := by
  have hline : lineKind (owner :: ts) ≠ .newline := by simp [lineKind, howner]
  have hbefore : BeforeMember s ts := by
    rintro colon us rfl hcolon
    exact .named hplace howner hcolon
  refine .advanceBind hline fun _ us hus => ?_
  obtain ⟨rfl, rfl⟩ := List.cons.inj hus
  refine .bind (alike_sourceCardinality _ ts hts.tail rfl) fun cardinality _ _ heq => ?_
  subst heq
  have hsteady : Steady True sourceCardinality := steady_sourceCardinality
  have hremains := hts.tail.after (hsteady.rest s ts)
  replace hbefore := hbefore.past
  generalize (sourceCardinality s ts).rest = us at hremains hbefore
  extract_lets last
  have hlast : ∀ us, s.Remains us → BeforeMember s us →
      AlikeFrom s (Event.Alike T U) Eq us (last ()) (last ()) := by
    intro us hus hbefore
    have hmember := alike_reference hT hU owner hus hbefore
    refine .nextKindBind hus (fun hline => ?_) fun hline o ho o' ho' => ?_
    · cases (some (lineKind us)).bind relation? with
      | some type => exact alike_relation owner cardinality type hline us hus rfl
      | none => exact hmember
    · have hnone : ∀ o ∈ endKinds, o.bind relation? = none := by decide
      rw [hnone o ho, hnone o' ho']
      exact hmember
  refine .lookBind (beforeLink_uncommented rfl rfl hremains) ?_
  cases hview : beforeLink isFragment us with
  | true =>
    obtain ⟨hline, hlink⟩ := exists_link rfl rfl hview
    refine .advanceBind hline fun t vs hvs => ?_
    exact hlast vs (hremains.tail_of_eq hvs) (.of_link (hlink t vs hvs))
  | false => exact hlast us hremains hbefore

theorem alike_statement {t : Token} (hts : s.Remains (t :: ts)) (hblank : separates t = false)
    (hplace : StatementPlace s (t :: ts)) :
    AlikeFrom s (Event.Alike T U) Eq (t :: ts) statement statement := by
  have hkind : lineKind (t :: ts) = t.kind ∧ t.kind ≠ .newline := by
    simp only [separates, Bool.or_eq_false_iff, beq_eq_false_iff_ne] at hblank
    exact ⟨if_neg hblank.2, hblank.1⟩
  refine .pastBlank hblank ?_
  split
  · contradiction
  · exact alike_title hkind.2 _ hts hkind.1
  · rename_i hword
    exact alike_declaration hT hU hts (Option.some.inj hword) hplace
  · rename_i hmark
    exact alike_stereotype hU hts (Option.some.inj hmark) hplace
  · rename_i howner
    exact alike_relationOrReference hT hU hts (Option.some.inj howner) hplace
  · exact .advanceBind (hkind.1 ▸ hkind.2) fun u us hus =>
      Alike.pure rfl _ us (hts.tail_of_eq hus) rfl

omit hT hU in
theorem alike_header : Alike s (Event.Alike T U) Eq header header := by
  refine .bindEq .skipBlankLines fun _ => .bindEq (.accept (by decide)) fun given => ?_
  cases given with
  | true => exact .pure rfl
  | false => exact .bind (.unmet _) fun _ _ h => .emit (.fault h)

/-- A document writes events that differ in types, stereotypes and columns only. -/
theorem alike_document (hts : s.Remains s.tokens) :
    AlikeFrom s (Event.Alike T U) Eq s.tokens document document := by
  have htakes : Takes True statement := takes_statement
  have hsteady : Steady True header := steady_header
  refine .bind (alike_header _ s.tokens hts rfl) fun _ _ _ _ => ?_
  refine .block rfl (fun _ _ => .recovered) htakes none (hts.after (hsteady.rest s s.tokens))
    fun us hus hremains _ => ?_
  obtain ⟨-, t, vs, rfl, hblank, -⟩ := hus.exists_cons htakes
  exact alike_statement hT hU hremains hblank hus

end members
end Grammar
end Mermaid.ClassDiagram
