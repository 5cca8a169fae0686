import Mermaid.Proofs.ClassDiagram.Drawing
import Mermaid.Proofs.Grammar.Anchoring
import Mermaid.Proofs.Sighting

/-! Where the classes of a class diagram come from. A class is sighted wherever it is named in the text,
and has the line of its last declaration. -/
namespace Mermaid.ClassDiagram
open Rule

/-- The sighting that an event is written for. A declaration says that the class stands there. -/
def Event.sightings : Event → List (Sighting Unit)
  | .mention name line => [⟨name, line, none⟩]
  | .declare name line => [⟨name, line, some ()⟩]
  | _ => []

/-- The tokens by which a class is sighted: its name, behind `class` or anywhere else. -/
inductive SightedBy : Sighting Unit → List Token → Token → List Token → Prop
  | mention {name : Token} (hname : name.kind = .identifier) :
      SightedBy ⟨name.lexeme, name.position.line, none⟩ [] name []
  | declare {word name : Token} (hword : word.kind = .classWord) (hname : name.kind = .identifier) :
      SightedBy ⟨name.lexeme, name.position.line, some ()⟩ [word] name []

/-- A class is sighted at an identifier on one line. -/
theorem SightedBy.spec {x : Sighting Unit} {front back : List Token} {t : Token}
    (h : SightedBy x front t back) : (∀ u ∈ front ++ t :: back, u.kind ≠ .newline) ∧
      t.kind = .identifier ∧ t.lexeme = x.name ∧ ∃ u ∈ front ++ [t], u.position.line = x.line := by
  cases h with
  | mention hname => exact ⟨by simp [hname], hname, rfl, t, List.mem_singleton_self t, rfl⟩
  | declare hword hname => exact ⟨by simp [hword, hname], hname, rfl, t, by simp, rfl⟩

/-- The classes that an event takes for granted. -/
def Event.refers (e : Event) : List String := e.relate?.toList.flatMap fun r => [r.source, r.target]

def Event.sightedNames (e : Event) : List String := e.sightings.map (·.name)

namespace Grammar
variable {s : Stream}

/-- The sightings of a rule are made on its way. -/
abbrev Sights (s : Stream) (r : Rule Event Unit) : Prop :=
  Obeys s (fun _ ts es rest => Course (MadeAt SightedBy s) ts (es.flatMap Event.sightings) rest) r

abbrev SightsAt (s : Stream) (k : TokenKind) (r : Rule Event Unit) : Prop :=
  ObeysAt s (fun _ ts es rest => Course (MadeAt SightedBy s) ts (es.flatMap Event.sightings) rest) k r

/-- A class that has been passed is sighted where it stands. -/
theorem course_mention {source : Token} {ts us : List Token} (hsource : source.kind = .identifier)
    (hts : source :: ts <:+ s.tokens) (hus : us <:+ ts) {next : Rule Event Unit} (h : Sights s next) :
    let r := (do
      emit (.mention source.lexeme source.position.line)
      next : Rule Event Unit) s us
    Course (MadeAt SightedBy s) (source :: ts) (r.events.flatMap Event.sightings) r.rest :=
  .cons (List.suffix_refl _) ⟨[], source, [], ts, .mention hsource, rfl, hts⟩
    ((h us (hus.trans ((ts.suffix_cons source).trans hts))).before hus)

theorem sights_member (owner : String) : Sights s (member owner) :=
  (Course.composesAll _ _).silent (steady_member owner)
    (writes_member (fun _ _ => rfl) (fun _ _ => rfl) owner)

/-- Behind its header a declaration sights no class. -/
private theorem idle_behindHeader (owner : String) :
    let behind : Rule Event Unit := do
      skipBlankLines
      if ← accept .openCurly then
        body owner
        let _ ← expect .closeCurly .classEnd
    Steady True behind ∧ Writes (fun e => e.sightings = []) (fun _ => True) behind := by
  constructor
  · refine .bind .skipBlankLines fun _ => .bind (.accept _) fun opened => ?_
    cases opened with
    | true => exact .bind (steady_body owner) fun _ => .bind (.expect _ _) fun _ => .pure _
    | false => exact .pure _
  · refine .bind .skipBlankLines fun _ _ => .bind (.accept _) fun opened _ => ?_
    cases opened with
    | true =>
      exact .bind (writes_body (fun _ _ => rfl) (fun _ _ => rfl) owner) fun _ _ =>
        .bind (.expect _ _) fun _ _ => .silent fun _ _ => rfl
    | false => exact .silent fun _ _ => rfl

theorem sights_declaration : SightsAt s .classWord declaration := by
  have hlaw := Course.composesAll (MadeAt SightedBy s) Event.sightings
  intro word ts hts hword
  have hcons := ts.suffix_cons word
  rw [declaration, bind_run, advance_cons, Reply.follow_done, Reply.after_nil, bind_run]
  by_cases hname : ts.head?.map (·.kind) = some .identifier
  · cases ts with
    | nil => cases hname
    | cons name ts =>
      have hname := Option.some.inj hname
      have hus := (ts.suffix_cons name).trans (hcons.trans hts)
      obtain ⟨hsteady, hsilent⟩ := idle_behindHeader name.lexeme
      rw [expect_cons hname, Reply.follow_done, Reply.after_nil]
      exact .cons hcons ⟨[word], name, [], ts, .declare hword hname, rfl, hts⟩
        (hlaw.silent hsteady hsilent ts hus)
  · rw [expect_of_ne hname]
    exact .nil hcons

theorem sights_stereotype : Sights s stereotype := by
  have hlaw := Course.composesAll (MadeAt SightedBy s) Event.sightings
  refine hlaw.bind .advance (hlaw.silent .advance .advance) fun _ =>
    hlaw.bind (.take MemberLine.reads_stereotypeText)
      (hlaw.silent (.take MemberLine.reads_stereotypeText) (.take _)) fun text => hlaw.expectBind fun name ts hts hname => ?_
  exact course_mention hname hts ts.suffix_refl (hlaw.silent (.emit _) (.emit rfl))

/-- A relation sights its source, from which it starts, and its target. -/
theorem course_related {source : Token} {ts us : List Token} (hsource : source.kind = .identifier)
    (hts : source :: ts <:+ s.tokens) (hus : us <:+ ts) (cardinality : Option String) (type : RelationType) :
    Course (MadeAt SightedBy s) (source :: ts)
      ((relation source cardinality type s us).events.flatMap Event.sightings)
      (relation source cardinality type s us).rest := by
  have hlaw := Course.composesAll (MadeAt SightedBy s) Event.sightings
  have hfragments : Steady True (take fun ts => ((), ts.dropWhile (isFragment ·.kind)) : Rule Event Unit) :=
    .take fun _ => List.dropWhile_suffix _
  refine course_mention hsource hts hus <| hlaw.bind .advance (hlaw.silent .advance .advance) fun _ =>
    hlaw.bind hfragments (hlaw.silent hfragments (.take _)) fun _ =>
      hlaw.bind steady_targetCardinality
        (hlaw.silent steady_targetCardinality writes_targetCardinality) fun _ => hlaw.expectBind fun target vs hvs htarget => ?_
  refine course_mention htarget hvs vs.suffix_refl <|
    hlaw.bind (.accept _) (hlaw.silent (.accept _) (.accept _)) fun given => ?_
  cases given with
  | true =>
    exact hlaw.silent (.bind (.map _ steady_restText) fun _ => .emit _)
      (.bind (.map _ writes_restText) fun _ _ => .emit rfl)
  | false =>
    exact hlaw.silent (.bind (.pure _) fun _ => .emit _)
      (.bind (.silent fun _ _ => rfl) fun _ _ => .emit rfl)

/-- A class that is named is sighted there, whether a relation follows or not. -/
theorem course_sighted {source : Token} {ts us : List Token} (hsource : source.kind = .identifier)
    (hts : source :: ts <:+ s.tokens) (hus : us <:+ ts) (cardinality : Option String) {r : Rule Event Unit}
    (hr : r = do
      match (← nextKind).bind relation? with
      | some type => relation source cardinality type
      | none =>
        let withMember ← accept .colon
        emit (.mention source.lexeme source.position.line)
        if withMember then member source.lexeme) :
    Course (MadeAt SightedBy s) (source :: ts) ((r s us).events.flatMap Event.sightings) (r s us).rest := by
  have hlaw := Course.composesAll (MadeAt SightedBy s) Event.sightings
  rw [hr, bind_run, nextKind_run, Reply.follow_done, Reply.after_nil]
  cases (us.head?.map (·.kind)).bind relation? with
  | some type => exact course_related hsource hts hus cardinality type
  | none =>
    dsimp only
    by_cases hcolon : us.head?.map (·.kind) = some .colon
    · cases us with
      | nil => cases hcolon
      | cons colon us =>
        have hcons := us.suffix_cons colon
        simp only [bind_run, accept_cons (Option.some.inj hcolon), Reply.follow_done, Reply.after_nil]
        exact course_mention hsource hts (hcons.trans hus) (sights_member _)
    · rw [bind_run, accept_of_ne hcolon]
      exact course_mention hsource hts hus (hlaw.silent (.pure _) (.silent fun _ _ => rfl))

theorem sights_relationOrReference : SightsAt s .identifier relationOrReference := by
  intro source ts hts hsource
  obtain ⟨cardinality, taken, us, -, rfl, hrun⟩ := exists_sourceCardinality s ts
  have hus : us <:+ taken ++ us := List.suffix_append taken us
  rw [relationOrReference, bind_run, advance_cons, Reply.follow_done, Reply.after_nil, bind_run, hrun,
    Reply.follow_done, Reply.after_nil, bind_run, look_run, Reply.follow_done, Reply.after_nil]
  by_cases hfragment : beforeLink isFragment us
  · obtain ⟨fragment, vs, rfl, -⟩ := exists_cons_of_beforeLink hfragment
    rw [if_pos hfragment]
    exact course_sighted hsource hts ((vs.suffix_cons fragment).trans hus) cardinality rfl
  · rw [if_neg hfragment]
    exact course_sighted hsource hts hus cardinality rfl

theorem sights_document : Sights s document := by
  have hlaw := Course.composesAll (MadeAt SightedBy s) Event.sightings
  exact obeys_document hlaw ((hlaw.silent takes_title.toSteady (writes_title fun _ => rfl)).at _)
    sights_declaration (sights_stereotype.at _) sights_relationOrReference (fun _ => rfl) fun _ => rfl

theorem refers_relate {r : Relation} {known : List String} (hsource : r.source ∈ known)
    (htarget : r.target ∈ known) :
    Refers Event.sightedNames Event.refers known (fun _ _ => True) (emit (.relate r)) := by
  have hends : (Event.relate r).refers ⊆ known :=
    List.cons_subset.mpr ⟨hsource, List.cons_subset.mpr ⟨htarget, List.nil_subset _⟩⟩
  exact (Refers.emit hends).mono fun _ _ _ => trivial

/-- A relation connects classes that are sighted in it. -/
theorem refers_relation (source : Token) (cardinality : Option String) (type : RelationType)
    (known : List String) :
    Refers Event.sightedNames Event.refers known (fun _ _ => True) (relation source cardinality type) := by
  refine .bind (.emit (List.nil_subset _)) fun _ after₁ h₁ => .bind (.of_writes .advance) fun _ after₂ h₂ =>
    .bind (.of_writes (.take _)) fun _ after₃ h₃ => .bind (.of_writes writes_targetCardinality)
      fun _ after₄ h₄ => .bind (.of_writes (.expect _ _)) fun target after₅ h₅ =>
        .bind (.emit (List.nil_subset _)) fun _ after₆ h₆ => .bind (.of_writes (.accept _))
          fun given after₇ h₇ => ?_
  have hmention : source.lexeme ∈ after₁ := by simp [h₁, Event.sightedNames, Event.sightings]
  have hsource : source.lexeme ∈ after₇ :=
    h₇ (h₆ ▸ List.mem_append_left _ (h₅ (h₄ (h₃ (h₂ hmention)))))
  have htarget : target.lexeme ∈ after₇ := h₇ (by simp [h₆, Event.sightedNames, Event.sightings])
  cases given with
  | true =>
    exact .bind (.of_writes (.map _ writes_restText)) fun _ _ h₈ =>
      refers_relate (h₈ hsource) (h₈ htarget)
  | false =>
    exact .bind (.of_writes (.silent fun _ _ => rfl)) fun _ _ h₈ =>
      refers_relate (h₈ hsource) (h₈ htarget)

theorem refers_relationOrReference (known : List String) :
    Refers Event.sightedNames Event.refers known (fun _ _ => True) relationOrReference := by
  refine .bind (.of_writes .advance) fun source after₁ _ => .bind (.of_writes writes_sourceCardinality)
    fun cardinality after₂ _ => .bind (.of_writes (.look _)) fun given after₃ _ => ?_
  extract_lets last
  have hlast : ∀ u known, Refers Event.sightedNames Event.refers known (fun _ _ => True) (last u) := by
    refine fun u known => .bind (.of_writes .nextKind) fun k after₁ _ => ?_
    cases k.bind relation? with
    | some type => exact refers_relation source cardinality type after₁
    | none =>
      refine .bind (.of_writes (.accept _)) fun withMember after₂ _ =>
        .bind (.emit (List.nil_subset _)) fun _ after₃ _ => ?_
      cases withMember with
      | true =>
        exact (Refers.of_writes (writes_member (fun _ _ => rfl) (fun _ _ => rfl) _)).mono fun _ _ _ => trivial
      | false => exact .pure trivial
  cases given with
  | true => exact .bind (.of_writes .advance) fun _ after₄ _ => hlast () after₄
  | false => exact hlast () after₃

theorem anchored_document (s : Stream) :
    Anchored Event.sightedNames Event.refers [] (document s s.tokens).events := by
  have hlaw := Anchored.composes Event.sightedNames Event.refers
  have hidle : ∀ e : Event, e.title? = none → e.diagnostic? = none → e.relate? = none → e.refers = [] :=
    fun e _ _ he => by simp [Event.refers, he]
  exact obeys_document hlaw ((hlaw.silent takes_title.toSteady (writes_title fun _ => rfl)).at _)
    ((hlaw.silent takes_declaration.toSteady (writes_declaration hidle)).at _)
    ((hlaw.silent takes_stereotype.toSteady (writes_stereotype hidle)).at _)
    (fun t ts _ _ => (refers_relationOrReference []).events s (t :: ts)) (fun _ => rfl) (fun _ => rfl) s.tokens
    (List.suffix_refl _)

end Grammar

/-- The class has the line of a sighting. -/
def AsSighted (x : Sighting Unit) (c : Classifier) : Prop := c.line = x.line

section
variable {d : ClassDiagram} {sightings : List (Sighting Unit)}

/-- Each event leaves the classes as the sightings tell, if it takes none for granted that was not sighted. -/
theorem follows_apply (h : d.classes.Follows AsSighted sightings) {e : Event}
    (hrefers : e.refers ⊆ sightings.map (·.name)) :
    (d.apply e).classes.Follows AsSighted (sightings ++ e.sightings) := by
  cases e with
  | mention name line => exact h.ensure (x := ⟨name, line, none⟩) rfl rfl
  | declare name line =>
    dsimp only [apply, declareClass, ensureClass]
    exact h.define (x := ⟨name, line, some ()⟩) rfl fun _ => rfl
  | relate r =>
    have hclasses : (d.apply (.relate r)).classes = d.classes := by
      simp only [apply, addRelation, ensureClass]
      rw [h.ensure_eq_self (hrefers List.mem_cons_self),
        h.ensure_eq_self (hrefers (List.mem_cons_of_mem _ List.mem_cons_self))]
    rw [hclasses]
    simpa [Event.sightings] using h
  | stereotype owner text =>
    simp only [apply, setStereotype, Event.sightings, List.append_nil]
    exact h.update fun _ _ hc => hc
  | member owner m =>
    simp only [apply, addMember, Event.sightings, List.append_nil]
    exact h.update fun _ _ hc => hc
  | title | fault | recovered => simpa [apply, report, Event.sightings] using h

end

/-- The classes of a text are as they are sighted in it. -/
theorem follows_ofStream (s : Stream) : (ofStream s).classes.Follows AsSighted
    ((Grammar.document s s.tokens).events.flatMap Event.sightings) := by
  have hfollows := Registry.Follows.foldl classes (fun _ _ _ h he => follows_apply h he) (d := empty) .empty
    (Grammar.anchored_document s)
  rw [ofStream, ofReply]
  split <;> exact hfollows

end Mermaid.ClassDiagram
