import Mermaid.Proofs.ClassDiagram.Composing
import Mermaid.Proofs.Grammar.Tracing

/-! The relations of a class diagram are those that its text draws. Each has a link of its own in the
text, between the names of its classes. -/
namespace Mermaid.ClassDiagram
open Rule

/-- Whether a token stands between a class and a link: a cardinality, or a part of a link that has two
heads. -/
def attends (t : Token) : Bool := t.kind == .string || isFragment t.kind

theorem kind_ne_newline_of_attends {ts : List Token} (h : ∀ t ∈ ts, attends t) :
    ∀ t ∈ ts, t.kind ≠ .newline := by
  intro t ht hk
  have hattends := h t ht
  simp [attends, hk, isFragment] at hattends

/-- The tokens that draw a relation: a class, a link of its type, and the other class. -/
inductive DrawnBy (r : Relation) : List Token → Token → List Token → Prop
  | mk {source link target : Token} {before after : List Token}
      (hsource : source.kind = .identifier ∧ r.source = source.lexeme)
      (hbefore : ∀ t ∈ before, attends t)
      (hlink : relation? link.kind = some r.type)
      (hafter : ∀ t ∈ after, attends t)
      (htarget : target.kind = .identifier ∧ r.target = target.lexeme) :
      DrawnBy r (source :: before) link (after ++ [target])

/-- A relation is drawn on one line. -/
theorem DrawnBy.inLine (r : Relation) (front : List Token) (t : Token) (back : List Token)
    (h : DrawnBy r front t back) : ∀ u ∈ front ++ t :: back, u.kind ≠ .newline := by
  obtain ⟨hsource, hbefore, hlink, hafter, htarget⟩ := h
  refine List.forall_mem_append.mpr
    ⟨List.forall_mem_cons.mpr ⟨by simp [hsource.1], kind_ne_newline_of_attends hbefore⟩,
      List.forall_mem_cons.mpr ⟨fun ht => ?_,
        List.forall_mem_append.mpr ⟨kind_ne_newline_of_attends hafter, ?_⟩⟩⟩
  · rw [ht] at hlink
    cases hlink
  · exact List.forall_mem_singleton.mpr (by simp [htarget.1])

theorem relations_apply (d : ClassDiagram) (e : Event) :
    (d.apply e).relations = d.relations ++ e.relate?.toList := by
  cases e with
  | relate _ => rfl
  | title _ | mention _ _ | declare _ _ | stereotype _ _ | member _ _ | fault _ | recovered _ =>
    exact (List.append_nil _).symm

theorem relations_ofReply (r : Reply Event Unit) :
    (ofReply r).relations = r.events.filterMap Event.relate? := by
  have hrelations : (empty.applyAll r.events).relations = r.events.filterMap Event.relate? :=
    foldl_view relations (fun d e _ => d.relations_apply e) empty
  rw [ofReply]
  split <;> exact hrelations

namespace Grammar
variable {s : Stream}

theorem exists_cons_of_beforeLink {inClass : TokenKind → Bool} {ts : List Token}
    (h : beforeLink inClass ts) : ∃ t us, ts = t :: us ∧ inClass t.kind := by
  match ts with
  | [] | [_] => cases h
  | t :: u :: us =>
    rw [beforeLink, Bool.and_eq_true] at h
    exact ⟨t, u :: us, rfl, h.1⟩

theorem exists_sourceCardinality (s : Stream) (ts : List Token) : ∃ cardinality taken us,
    (∀ t ∈ taken, attends t) ∧ ts = taken ++ us ∧
      sourceCardinality s ts = ⟨[], .done cardinality, us⟩ := by
  rw [sourceCardinality, bind_run, look_run, Reply.follow_done, Reply.after_nil]
  cases hgiven : beforeLink (· == .string) ts with
  | false => exact ⟨none, [], ts, List.forall_mem_nil _, rfl, rfl⟩
  | true =>
    obtain ⟨t, us, rfl, ht⟩ := exists_cons_of_beforeLink hgiven
    exact ⟨some t.lexeme, [t], us, List.forall_mem_singleton.mpr (by simp [attends, ht]), rfl, rfl⟩

theorem exists_targetCardinality (s : Stream) (ts : List Token) : ∃ cardinality taken us,
    (∀ t ∈ taken, attends t) ∧ ts = taken ++ us ∧
      targetCardinality s ts = ⟨[], .done cardinality, us⟩ := by
  rw [targetCardinality, bind_run, nextKind_run, Reply.follow_done, Reply.after_nil]
  by_cases h : ts.head?.map (·.kind) = some .string
  · cases ts with
    | nil => cases h
    | cons t ts =>
      have ht : t.kind = .string := Option.some.inj h
      rw [if_pos h]
      exact ⟨some t.lexeme, [t], ts, List.forall_mem_singleton.mpr (by simp [attends, ht]), rfl, rfl⟩
  · rw [if_neg h]
    exact ⟨none, [], ts, List.forall_mem_nil _, rfl, rfl⟩

/-- Right before the tokens a class is named. -/
def Named (s : Stream) (source : Token) (ts : List Token) : Prop :=
  source.kind = .identifier ∧ ∃ before, (∀ t ∈ before, attends t) ∧ source :: (before ++ ts) <:+ s.tokens

theorem Named.past {source : Token} {taken ts : List Token} (h : Named s source (taken ++ ts))
    (htaken : ∀ t ∈ taken, attends t) : Named s source ts := by
  obtain ⟨hkind, before, hbefore, hts⟩ := h
  exact ⟨hkind, before ++ taken, List.forall_mem_append.mpr ⟨hbefore, htaken⟩, by simpa using hts⟩

/-- Behind the target a relation is written, with the label that it has there. -/
theorem exists_label (s : Stream) (r : Option String → Relation) (ts : List Token) :
    ∃ label rest, rest <:+ ts ∧
      (do
        if ← accept .colon then
          let label ← some <$> restText
          emit (.relate (r label))
        else
          let label ← pure none
          emit (.relate (r label)) : Rule Event Unit) s ts = ⟨[.relate (r label)], .done (), rest⟩ := by
  by_cases hcolon : ts.head?.map (·.kind) = some .colon
  · cases ts with
    | nil => cases hcolon
    | cons colon ts =>
      have hsteady : Steady True restText := steady_restText
      have hrest := hsteady.rest s ts
      obtain ⟨text, htext⟩ : ∃ text, restText s ts = ⟨[], .done text, (restText s ts).rest⟩ := ⟨_, rfl⟩
      refine ⟨some text, _, hrest.trans (ts.suffix_cons colon), ?_⟩
      rw [bind_run, accept_cons (Option.some.inj hcolon)]
      simp only [Reply.follow_done, if_true, bind_run, map_run]
      rw [htext]
      rfl
  · rw [bind_run, accept_of_ne hcolon]
    exact ⟨_, _, ts.suffix_refl, rfl⟩

/-- A relation draws itself at its link. -/
theorem course_relation {source link : Token} {ts : List Token} (hsource : Named s source (link :: ts))
    {type : RelationType} (hlink : relation? link.kind = some type) (cardinality : Option String) :
    Course (MadeAt DrawnBy s) (link :: ts)
      ((relation source cardinality type s (link :: ts)).events.filterMap Event.relate?)
      (relation source cardinality type s (link :: ts)).rest := by
  obtain ⟨hkind, before, hbefore, hts⟩ := hsource
  have hsplit := List.takeWhile_append_dropWhile (p := fun t => isFragment t.kind) (l := ts)
  have hfragments : ∀ t ∈ ts.takeWhile fun t => isFragment t.kind, attends t := fun t ht => by
    have ht := List.mem_takeWhile_imp ht
    simp [attends, ht]
  obtain ⟨cardinality', taken, us, htaken, hus, hrun⟩ :=
    exists_targetCardinality s (ts.dropWhile fun t => isFragment t.kind)
  rw [relation]
  simp only [bind_run, emit_run, advance_cons, take_run, Reply.follow_done, Reply.after_nil, hrun]
  by_cases htarget : us.head?.map (·.kind) = some .identifier
  · cases us with
    | nil => cases htarget
    | cons target us =>
      have htarget := Option.some.inj htarget
      obtain ⟨label, rest, hrest, hlabel⟩ := exists_label s (fun label => {
        source := source.lexeme
        target := target.lexeme
        type, label
        targetCardinality := cardinality'
        sourceCardinality := cardinality }) us
      rw [expect_cons htarget]
      simp only [Reply.follow_done, Reply.after_nil]
      rw [← bind_run, hlabel]
      have hback : ts = (ts.takeWhile (isFragment ·.kind) ++ taken ++ [target]) ++ us := by
        rw [hus] at hsplit
        simpa using hsplit.symm
      refine .cons (List.suffix_refl _) ⟨source :: before, link, _, us,
        .mk ⟨hkind, rfl⟩ hbefore hlink (List.forall_mem_append.mpr ⟨hfragments, htaken⟩) ⟨htarget, rfl⟩,
          congrArg (link :: ·) hback, hts⟩ (.nil (hrest.trans ?_))
      rw [hback]
      exact List.suffix_append _ us
  · rw [expect_of_ne htarget]
    refine .nil (.trans ?_ (ts.suffix_cons link))
    have hleft : us <:+ ts.dropWhile fun t => isFragment t.kind := hus ▸ List.suffix_append taken us
    exact hleft.trans (List.dropWhile_suffix _)

/-- Behind its name a class draws a relation if a link follows, and else none. -/
theorem course_named {source : Token} {ts : List Token} (hsource : Named s source ts)
    (hts : ts <:+ s.tokens) (cardinality : Option String) {r : Rule Event Unit}
    (hr : r = do
      match (← nextKind).bind relation? with
      | some type => relation source cardinality type
      | none =>
        let withMember ← accept .colon
        emit (.mention source.lexeme source.position.line)
        if withMember then member source.lexeme) :
    Course (MadeAt DrawnBy s) ts ((r s ts).events.filterMap Event.relate?) (r s ts).rest := by
  rw [hr, bind_run, nextKind_run, Reply.follow_done, Reply.after_nil]
  cases hlink : (ts.head?.map (·.kind)).bind relation? with
  | some type =>
    cases ts with
    | nil => cases hlink
    | cons link ts => exact course_relation hsource hlink cardinality
  | none =>
    have hlaw := Course.composes (MadeAt DrawnBy s) Event.relate?
    have hreference : Traces s (MadeAt DrawnBy s) Event.relate? (do
        let withMember ← accept .colon
        emit (.mention source.lexeme source.position.line)
        if withMember then member source.lexeme) := by
      refine hlaw.bind (.accept _) (hlaw.silent (.accept _) (.accept _)) fun withMember =>
        hlaw.bind (.emit _) (hlaw.silent (.emit _) (.emit rfl)) fun _ => ?_
      cases withMember with
      | true => exact hlaw.silent (steady_member _) (writes_member (fun _ _ => rfl) (fun _ _ => rfl) _)
      | false => exact hlaw.silent (.pure _) (.silent fun _ _ => rfl)
    exact hreference ts hts

theorem traces_relationOrReference :
    TracesAt s (MadeAt DrawnBy s) Event.relate? .identifier relationOrReference := by
  intro source ts hts hkind
  obtain ⟨cardinality, taken, us, htaken, rfl, hrun⟩ := exists_sourceCardinality s ts
  have hnamed : Named s source us := Named.past ⟨hkind, [], List.forall_mem_nil _, hts⟩ htaken
  have hus : us <:+ source :: (taken ++ us) := List.suffix_append (source :: taken) us
  rw [relationOrReference, bind_run, advance_cons, Reply.follow_done, Reply.after_nil, bind_run, hrun,
    Reply.follow_done, Reply.after_nil, bind_run, look_run, Reply.follow_done, Reply.after_nil]
  refine Course.before ?_ hus
  by_cases hfragment : beforeLink isFragment us
  · obtain ⟨fragment, vs, rfl, hf⟩ := exists_cons_of_beforeLink hfragment
    have hvs := vs.suffix_cons fragment
    rw [if_pos hfragment]
    have hpast : Named s source ([fragment] ++ vs) := hnamed
    refine Course.before ?_ hvs
    exact course_named (hpast.past (by simp [attends, hf])) (hvs.trans (hus.trans hts)) cardinality rfl
  · rw [if_neg hfragment]
    exact course_named hnamed (hus.trans hts) cardinality rfl

theorem traces_document : Traces s (MadeAt DrawnBy s) Event.relate? document := by
  have hlaw := Course.composes (MadeAt DrawnBy s) Event.relate?
  exact obeys_document hlaw ((hlaw.silent takes_title.toSteady (writes_title fun _ => rfl)).at _)
    ((hlaw.silent takes_declaration.toSteady (writes_declaration fun _ _ _ h => h)).at _)
    ((hlaw.silent takes_stereotype.toSteady (writes_stereotype fun _ _ _ h => h)).at _)
    traces_relationOrReference (fun _ => rfl) fun _ => rfl

end Grammar

/-- The relations of a text are drawn in it, in their order. -/
theorem traced_relations (text : String) :
    Traced DrawnBy (Stream.ofText text).tokens (parse text).relations := by
  have hcourse := Grammar.traces_document (Stream.ofText text).tokens (List.suffix_refl _)
  rw [parse, ofStream, relations_ofReply]
  exact hcourse.traced (Stream.inLines_ofText text) DrawnBy.inLine

end Mermaid.ClassDiagram
