import Mermaid.Proofs.Grammar.Progress
import Mermaid.Proofs.Token.Comments

/-! Rules run with the comments of a stream and without them. A rule that takes a comment for the end
of its line leaves the same tokens both times but for comments, and writes events that are alike; the
property is closed under everything that grammars are put together from. -/
namespace Mermaid
open Token

/-- The same fault on the same line. -/
structure Diagnostic.SameLine (d d' : Diagnostic) : Prop where
  message : d'.message = d.message
  line : d'.position.line = d.position.line

variable {ε α β γ δ : Type}

inductive Outcome.Alike (V : α → β → Prop) : Outcome α → Outcome β → Prop
  | done {a : α} {b : β} (h : V a b) : Alike V (.done a) (.done b)
  | failed (m : Expectation) : Alike V (.failed m) (.failed m)
  | tooDeep : Alike V .tooDeep .tooDeep

/-- Two replies to `ts`, the second one to `ts` without its comments: they write events of which `E`
holds, have values of which `V` holds, and leave the same but for comments. -/
structure Reply.Alike (E : ε → ε → Prop) (V : α → β → Prop) (ts : List Token) (r : Reply ε α)
    (r' : Reply ε β) : Prop where
  events : List.Forall₂ E r.events r'.events
  outcome : r.outcome.Alike V r'.outcome
  rest : r'.rest = uncommented r.rest
  suffix : r.rest <:+ ts

theorem Reply.Alike.widen {E : ε → ε → Prop} {V : α → β → Prop} {ts us : List Token}
    {r : Reply ε α} {r' : Reply ε β} (h : r.Alike E V us r') (hus : us <:+ ts) : r.Alike E V ts r' :=
  { h with suffix := h.suffix.trans hus }

theorem Reply.Alike.follow {E : ε → ε → Prop} {V : α → β → Prop} {W : γ → δ → Prop}
    {ts : List Token} {r : Reply ε α} {r' : Reply ε β} {next : α → List Token → Reply ε γ}
    {next' : β → List Token → Reply ε δ} (h : r.Alike E V ts r')
    (hn : ∀ a b, r.outcome = .done a → V a b →
      (next a r.rest).Alike E W r.rest (next' b (uncommented r.rest))) :
    (r.follow next).Alike E W ts (r'.follow next') := by
  obtain ⟨events, outcome, rest⟩ := r
  obtain ⟨events', outcome', rest'⟩ := r'
  obtain ⟨hevents, houtcome, rfl, hsuffix⟩ := h
  cases houtcome with
  | @done a b hv =>
    obtain ⟨hevents', houtcome', hrest', hsuffix'⟩ := hn a b rfl hv
    exact ⟨List.rel_append hevents hevents', houtcome', hrest', hsuffix'.trans hsuffix⟩
  | failed m => exact ⟨hevents, .failed m, rfl, hsuffix⟩
  | tooDeep => exact ⟨hevents, .tooDeep, rfl, hsuffix⟩

namespace Rule
variable {s : Stream} {E : ε → ε → Prop} {V : α → β → Prop} {W : γ → δ → Prop} {k : TokenKind}

/-- The first rule replies to `ts` with the comments as the second one does without them. -/
def AlikeFrom (s : Stream) (E : ε → ε → Prop) (V : α → β → Prop) (ts : List Token) (r : Rule ε α)
    (r' : Rule ε β) : Prop :=
  (r s ts).Alike E V ts (r' s.uncommented (uncommented ts))

/-- So the rules reply wherever the next token of the line is of the kind `k`. -/
def AlikeAt (s : Stream) (E : ε → ε → Prop) (V : α → β → Prop) (k : TokenKind) (r : Rule ε α)
    (r' : Rule ε β) : Prop :=
  ∀ ts, s.Remains ts → lineKind ts = k →
    (r s ts).Alike E V ts (r' s.uncommented (uncommented ts))

def Alike (s : Stream) (E : ε → ε → Prop) (V : α → β → Prop) (r : Rule ε α) (r' : Rule ε β) : Prop :=
  ∀ k, AlikeAt s E V k r r'

section rules
variable {rule : Rule ε α} {rule' : Rule ε β} {next : α → Rule ε γ} {next' : β → Rule ε δ}

theorem AlikeFrom.bind {ts : List Token} (h : AlikeFrom s E V ts rule rule')
    (hn : ∀ a b, (rule s ts).outcome = .done a → V a b →
      AlikeFrom s E W (rule s ts).rest (next a) (next' b)) :
    AlikeFrom s E W ts (rule >>= next) (rule' >>= next') :=
  Reply.Alike.follow h hn

theorem AlikeAt.bind (h : AlikeAt s E V k rule rule')
    (hn : ∀ a b, V a b → Alike s E W (next a) (next' b)) :
    AlikeAt s E W k (rule >>= next) (rule' >>= next') := by
  intro ts hts hk
  have hrule := h ts hts hk
  exact hrule.follow fun a b _ hv => hn a b hv _ _ (hts.after hrule.suffix) rfl

theorem Alike.bind (h : Alike s E V rule rule') (hn : ∀ a b, V a b → Alike s E W (next a) (next' b)) :
    Alike s E W (rule >>= next) (rule' >>= next') := fun k => (h k).bind hn

/-- A rule with the same value both times. -/
theorem AlikeAt.bindEq {rule rule' : Rule ε α} {next : α → Rule ε γ} {next' : α → Rule ε δ}
    (h : AlikeAt s E Eq k rule rule') (hn : ∀ a, Alike s E W (next a) (next' a)) :
    AlikeAt s E W k (rule >>= next) (rule' >>= next') :=
  h.bind fun a _ heq => heq ▸ hn a

theorem Alike.bindEq {rule rule' : Rule ε α} {next : α → Rule ε γ} {next' : α → Rule ε δ}
    (h : Alike s E Eq rule rule') (hn : ∀ a, Alike s E W (next a) (next' a)) :
    Alike s E W (rule >>= next) (rule' >>= next') := fun k => (h k).bindEq hn

theorem Alike.pure {a : α} {b : β} (h : V a b) : Alike s E V (pure a) (pure b) :=
  fun _ ts _ _ => ⟨.nil, .done h, rfl, ts.suffix_refl⟩

theorem Alike.map {f : α → γ} {f' : β → δ} (h : Alike s E V rule rule')
    (hf : ∀ a b, V a b → W (f a) (f' b)) : Alike s E W (f <$> rule) (f' <$> rule') :=
  .bind h fun a b hv => .pure (hf a b hv)

theorem Alike.emit {e e' : ε} (h : E e e') : Alike s E Eq (emit e) (emit e') :=
  fun _ ts _ _ => ⟨.cons h .nil, .done rfl, rfl, ts.suffix_refl⟩

theorem AlikeAt.emitBind {e e' : ε} {next : Rule ε γ} {next' : Rule ε δ} (he : E e e')
    (h : AlikeAt s E W k next next') :
    AlikeAt s E W k (do Rule.emit e; next) (do Rule.emit e'; next') := by
  intro ts hts hk
  obtain ⟨hevents, houtcome, hrest, hsuffix⟩ := h ts hts hk
  exact ⟨.cons he hevents, houtcome, hrest, hsuffix⟩

theorem Alike.fail (m : Expectation) : Alike s E V (fail m) (fail m) :=
  fun _ ts _ _ => ⟨.nil, .failed m, rfl, ts.suffix_refl⟩

theorem Alike.tooDeep : Alike s E V tooDeep tooDeep :=
  fun _ ts _ _ => ⟨.nil, .tooDeep, rfl, ts.suffix_refl⟩

theorem Alike.onOverflow {e e' : ε} (h : Alike s E V rule rule') (he : E e e') :
    Alike s E V (onOverflow rule e) (onOverflow rule' e') := by
  intro k ts hts hk
  have hreply := h k ts hts hk
  rcases hr : rule s ts with ⟨es, o, rest⟩
  rcases hr' : rule' s.uncommented (uncommented ts) with ⟨es', o', rest'⟩
  rw [hr, hr'] at hreply
  obtain ⟨hevents, houtcome, hrest, hsuffix⟩ := hreply
  have hsame := houtcome
  cases houtcome with
  | tooDeep =>
    rw [onOverflow_of_tooDeep hr, onOverflow_of_tooDeep hr']
    exact ⟨List.rel_append hevents (.cons he .nil), hsame, hrest, hsuffix⟩
  | done | failed =>
    rw [onOverflow_of_ne (by simp [hr]), onOverflow_of_ne (by simp [hr']), hr, hr']
    exact ⟨hevents, hsame, hrest, hsuffix⟩

theorem Alike.take {read : List Token → α × List Token} {read' : List Token → β × List Token}
    (hr : Reads read) (h : ∀ ts, s.Remains ts → V (read ts).1 (read' (uncommented ts)).1 ∧
      (read' (uncommented ts)).2 = uncommented (read ts).2) :
    Alike s E V (take read) (take read') :=
  fun _ ts hts _ => ⟨.nil, .done (h ts hts).1, (h ts hts).2, hr ts⟩

theorem AlikeAt.advance (hk : k ≠ .newline) : AlikeAt s E Eq k advance advance := by
  intro ts hts hkind
  obtain ⟨t, us, rfl, -, -, hless⟩ := exists_cons_of_lineKind hk hkind
  rw [hless]
  exact ⟨.nil, .done rfl, rfl, us.suffix_cons t⟩

/-- A token of a kind that is neither a comment's nor a line break's is next both times, or neither
time. -/
private theorem head?_ne_of_lineKind {ts : List Token} {kind : TokenKind}
    (hts : s.Remains ts) (hkind : kind ≠ .newline ∧ kind ≠ .comment) (h : lineKind ts ≠ kind) :
    ts.head?.map (·.kind) ≠ some kind ∧ (uncommented ts).head?.map (·.kind) ≠ some kind := by
  have hhead : ∀ us : List Token, (∀ u ∈ us.head?, u.kind ≠ kind) →
      us.head?.map (·.kind) ≠ some kind := by
    intro us hus hsome
    obtain ⟨u, hu, huk⟩ := Option.map_eq_some_iff.mp hsome
    exact hus u hu huk
  by_cases hline : lineKind ts = .newline
  · refine ⟨hhead _ fun u hu => ?_, hhead _ fun u hu => ?_⟩
    · cases ts with
      | nil => cases hu
      | cons t ts =>
        cases hu
        rw [lineKind] at hline
        split at hline
        · rename_i ht
          exact fun hut => hkind.2 (hut.symm.trans ht)
        · exact fun hut => hkind.1 (hut.symm.trans hline)
    · exact fun hut => hkind.1 (hut.symm.trans (hts.head_uncommented hline u hu))
  · obtain ⟨t, us, rfl, ht, -, hless⟩ := exists_cons_of_lineKind hline rfl
    have hne : t.kind ≠ kind := fun hk => h (ht.symm.trans hk)
    rw [hless]
    exact ⟨hhead _ (by simpa using hne), hhead _ (by simpa using hne)⟩

theorem Alike.accept {kind : TokenKind} (hkind : kind ≠ .newline ∧ kind ≠ .comment) :
    Alike s E Eq (accept kind) (accept kind) := by
  intro k ts hts hk
  by_cases h : lineKind ts = kind
  · obtain ⟨t, us, rfl, ht, -, hless⟩ := exists_cons_of_lineKind hkind.1 h
    rw [hless, accept_cons ht, accept_cons ht]
    exact ⟨.nil, .done rfl, rfl, us.suffix_cons t⟩
  · obtain ⟨hne, hne'⟩ := head?_ne_of_lineKind hts hkind h
    rw [accept_of_ne hne, accept_of_ne hne']
    exact ⟨.nil, .done rfl, rfl, ts.suffix_refl⟩

theorem Alike.expect {kind : TokenKind} (hkind : kind ≠ .newline ∧ kind ≠ .comment) (m : Expectation) :
    Alike s E Eq (expect kind m) (expect kind m) := by
  intro k ts hts hk
  by_cases h : lineKind ts = kind
  · obtain ⟨t, us, rfl, ht, -, hless⟩ := exists_cons_of_lineKind hkind.1 h
    rw [hless, expect_cons ht, expect_cons ht]
    exact ⟨.nil, .done rfl, rfl, us.suffix_cons t⟩
  · obtain ⟨hne, hne'⟩ := head?_ne_of_lineKind hts hkind h
    rw [expect_of_ne hne, expect_of_ne hne']
    exact ⟨.nil, .failed m, rfl, ts.suffix_refl⟩

/-- A rule that takes the next token of the line. -/
theorem AlikeFrom.advanceBind {ts : List Token} {next : Token → Rule ε γ} {next' : Token → Rule ε δ}
    (hk : lineKind ts ≠ .newline)
    (hn : ∀ t us, ts = t :: us → AlikeFrom s E W us (next t) (next' t)) :
    AlikeFrom s E W ts (Rule.advance >>= next) (Rule.advance >>= next') := by
  obtain ⟨t, us, rfl, -, -, hless⟩ := exists_cons_of_lineKind hk rfl
  rw [AlikeFrom, hless, bind_run, bind_run, advance_cons, advance_cons, Reply.follow_done,
    Reply.follow_done, Reply.after_nil, Reply.after_nil]
  exact Reply.Alike.widen (hn t us rfl) (us.suffix_cons t)

/-- A rule that goes on behind a token of a kind if it comes next, and else where it is. -/
theorem AlikeFrom.acceptBind {kind : TokenKind} (hkind : kind ≠ .newline ∧ kind ≠ .comment)
    {ts : List Token} (hts : s.Remains ts) {next : Bool → Rule ε γ} {next' : Bool → Rule ε δ}
    (htrue : ∀ t us, ts = t :: us → t.kind = kind → AlikeFrom s E W us (next true) (next' true))
    (hfalse : AlikeFrom s E W ts (next false) (next' false)) :
    AlikeFrom s E W ts (Rule.accept kind >>= next) (Rule.accept kind >>= next') := by
  refine .bind (Alike.accept hkind _ ts hts rfl) fun given _ hgiven heq => ?_
  subst heq
  cases given with
  | true =>
    obtain ⟨t, ht, hcons⟩ := accept_eq_true hgiven
    exact htrue t _ hcons ht
  | false =>
    rw [accept_eq_false hgiven]
    exact hfalse

/-- A rule that goes on behind a token of a kind, which has to come next. -/
theorem AlikeFrom.expectBind {kind : TokenKind} (hkind : kind ≠ .newline ∧ kind ≠ .comment)
    {m : Expectation} {ts : List Token} (hts : s.Remains ts) {next : Token → Rule ε γ}
    {next' : Token → Rule ε δ}
    (hn : ∀ t us, ts = t :: us → t.kind = kind → AlikeFrom s E W us (next t) (next' t)) :
    AlikeFrom s E W ts (Rule.expect kind m >>= next) (Rule.expect kind m >>= next') := by
  refine .bind (Alike.expect hkind m _ ts hts rfl) fun t _ hfound heq => ?_
  subst heq
  obtain ⟨ht, hcons⟩ := expect_eq_done hfound
  exact hn t _ hcons ht

theorem Alike.unmet (m : Expectation) : Alike s E Diagnostic.SameLine (unmet m) (unmet m) :=
  fun _ ts hts _ => ⟨.nil, .done ⟨rfl, hts.current_uncommented⟩, rfl, ts.suffix_refl⟩

theorem Alike.skipBlankLines : Alike s E Eq skipBlankLines skipBlankLines := fun _ ts _ _ =>
  ⟨.nil, .done rfl, (uncommented_dropWhile_separates ts).symm, List.dropWhile_suffix _⟩

/-- The rest of a line, with its comment and without it. -/
theorem Alike.skipLine : Alike s E (fun l l' => l' = uncommented l) skipLine skipLine := by
  refine .take (.span _) fun ts _ => ?_
  have hline := uncommented_takeWhile (p := (·.kind != .newline)) (fun t ht => by simp [ht]) ts
  rw [restOfLine, restOfLine, List.span_eq_takeWhile_dropWhile, List.span_eq_takeWhile_dropWhile]
  exact ⟨hline.1.symm, hline.2.symm⟩

/-- The kinds of the next token at the end of a line: none at the end of the text, and that of a
comment if there is one. -/
def endKinds : List (Option TokenKind) := [none, some .newline, some .comment]

/-- A rule that goes on with the kind of the next token, inside a line and at its end. -/
theorem AlikeFrom.nextKindBind {ts : List Token} (hts : s.Remains ts)
    {next : Option TokenKind → Rule ε γ} {next' : Option TokenKind → Rule ε δ}
    (hword : lineKind ts ≠ .newline →
      AlikeFrom s E W ts (next (some (lineKind ts))) (next' (some (lineKind ts))))
    (hend : lineKind ts = .newline → ∀ o ∈ endKinds, ∀ o' ∈ endKinds,
      AlikeFrom s E W ts (next o) (next' o')) :
    AlikeFrom s E W ts (nextKind >>= next) (nextKind >>= next') := by
  simp only [AlikeFrom, bind_run, nextKind_run, Reply.follow_done, Reply.after_nil]
  by_cases hnewline : lineKind ts = .newline
  · refine hend hnewline _ ?_ _ ?_
    · cases ts with
      | nil => exact List.mem_cons_self
      | cons t ts =>
        rw [lineKind] at hnewline
        split at hnewline
        · rename_i ht
          simp [endKinds, ht]
        · simp [endKinds, hnewline]
    · have hhead := hts.head_uncommented hnewline
      cases hless : uncommented ts with
      | nil => exact List.mem_cons_self
      | cons u us =>
        rw [hless] at hhead
        simp [endKinds, hhead u rfl]
  · obtain ⟨t, us, rfl, ht, -, hless⟩ := exists_cons_of_lineKind hnewline rfl
    have hnext := hword hnewline
    rw [AlikeFrom, ← ht, hless] at hnext
    rw [hless]
    exact hnext

theorem Alike.nextKindBind {next : Option TokenKind → Rule ε γ} {next' : Option TokenKind → Rule ε δ}
    (hword : ∀ k, k ≠ .newline → AlikeAt s E W k (next (some k)) (next' (some k)))
    (hend : ∀ o ∈ endKinds, ∀ o' ∈ endKinds, AlikeAt s E W .newline (next o) (next' o')) :
    Alike s E W (nextKind >>= next) (nextKind >>= next') := fun _ ts hts _ =>
  AlikeFrom.nextKindBind hts (fun hline => hword _ hline ts hts rfl)
    fun hline o ho o' ho' => hend o ho o' ho' ts hts hline

/-- A rule that passes over blank lines first, where there are none. -/
theorem AlikeFrom.pastBlank {t : Token} {ts : List Token} (ht : separates t = false)
    {next : Option TokenKind → Rule ε γ} {next' : Option TokenKind → Rule ε δ}
    (h : AlikeFrom s E W (t :: ts) (next (some t.kind)) (next' (some t.kind))) :
    AlikeFrom s E W (t :: ts) (do Rule.skipBlankLines; next (← Rule.nextKind))
      (do Rule.skipBlankLines; next' (← Rule.nextKind)) := by
  have hcomment : t.kind ≠ .comment := by
    intro hk
    simp [separates, hk] at ht
  rw [AlikeFrom, uncommented_cons hcomment] at h ⊢
  simp only [bind_run, skipBlankLines_run, nextKind_run, Reply.follow_done, Reply.after_nil,
    List.dropWhile_cons, ht, Bool.false_eq_true, if_false]
  exact h

/-- A rule that passes over blank lines first. -/
theorem Alike.pastBlank {next : Option TokenKind → Rule ε γ} {next' : Option TokenKind → Rule ε δ}
    (hnone : Alike s E W (next none) (next' none))
    (hsome : ∀ k, k ≠ .newline → AlikeAt s E W k (next (some k)) (next' (some k))) :
    Alike s E W (do Rule.skipBlankLines; next (← Rule.nextKind))
      (do Rule.skipBlankLines; next' (← Rule.nextKind)) := by
  intro k ts hts _
  have hleft : s.Remains (ts.dropWhile separates) := hts.after (List.dropWhile_suffix _)
  simp only [bind_run, skipBlankLines_run, nextKind_run, Reply.follow_done, Reply.after_nil]
  rw [← uncommented_dropWhile_separates]
  refine .widen ?_ (List.dropWhile_suffix separates)
  cases hd : ts.dropWhile separates with
  | nil => exact hnone .newline [] (hd ▸ hleft) rfl
  | cons t us =>
    have ht := separates_of_dropWhile hd
    simp only [separates, Bool.or_eq_false_iff, beq_eq_false_iff_ne] at ht
    have hnext := hsome t.kind ht.1 (t :: us) (hd ▸ hleft) (by rw [lineKind, if_neg ht.2])
    rw [uncommented_cons ht.2] at hnext ⊢
    exact hnext

/-- A rule that looks ahead first, and sees the same both times. -/
theorem AlikeFrom.lookBind {view : List Token → Bool} {ts : List Token}
    (hview : view (uncommented ts) = view ts) {next : Bool → Rule ε γ} {next' : Bool → Rule ε δ}
    (h : AlikeFrom s E W ts (next (view ts)) (next' (view ts))) :
    AlikeFrom s E W ts (look view >>= next) (look view >>= next') := by
  simp only [AlikeFrom, bind_run, look_run, Reply.follow_done, Reply.after_nil, hview]
  exact h

/-- A rule that looks ahead inside a line first. -/
theorem Alike.lookBind {view : List Token → Bool}
    (hview : ∀ ts, s.Remains ts → view (uncommented ts) = view ts)
    (hin : ∀ ts, view ts → lineKind ts ≠ .newline) {next : Bool → Rule ε γ} {next' : Bool → Rule ε δ}
    (htrue : ∀ k, k ≠ .newline → AlikeAt s E W k (next true) (next' true))
    (hfalse : Alike s E W (next false) (next' false)) :
    Alike s E W (look view >>= next) (look view >>= next') := by
  intro k ts hts hk
  refine AlikeFrom.lookBind (hview ts hts) ?_
  cases hv : view ts with
  | true => exact htrue _ (hin ts hv) ts hts rfl
  | false => exact hfalse _ ts hts rfl

/-- A rule behind which a token is taken if it took none itself takes it both times. -/
theorem AlikeFrom.progress {rule next : Rule ε Unit} {ts : List Token} (hts : s.Remains ts)
    (hk : lineKind ts ≠ .newline) (hrule : AlikeFrom s E Eq ts rule rule) (hn : Alike s E Eq next next) :
    AlikeFrom s E Eq ts (do let before ← look List.length; rule; progressPast before; next)
      (do let before ← look List.length; rule; progressPast before; next) := by
  obtain ⟨t, us, rfl, -, -, hless⟩ := exists_cons_of_lineKind hk rfl
  rw [AlikeFrom, hless] at hrule ⊢
  simp only [bind_run, look_run, Reply.follow_done, Reply.after_nil]
  refine hrule.follow fun _ _ _ _ => ?_
  rcases List.suffix_cons_iff.mp hrule.suffix with heq | hsuffix
  · rw [heq, hless, progressPast_stuck, progressPast_stuck]
    exact (hn _ us hts.tail rfl).widen (us.suffix_cons t)
  · have hfewer : (uncommented (rule s (t :: us)).rest).length ≤ (uncommented us).length :=
      (hsuffix.filter _).length_le
    rw [progressPast_moved hsuffix.length_le, progressPast_moved hfewer]
    exact hn _ _ (hts.after hrule.suffix) rfl

end rules

section loops
variable {ready : Token → Bool} {step : α → Rule ε α} {deep : Prop}

/-- A loop whose rounds begin inside a line. `Settled` holds wherever a round may begin. -/
theorem iterate_alike (Settled : List Token → Prop) (htakes : ∀ a, Takes deep (step a))
    (hsettled : ∀ a t ts b, (step a s (t :: ts)).outcome = .done b →
      Settled (step a s (t :: ts)).rest)
    (hready : ∀ t ts, s.Remains (t :: ts) → Settled (t :: ts) → ready t →
      separates t = false)
    (hstop : ∀ ts, s.Remains ts → Settled ts → (∀ t ∈ ts.head?, ready t = false) →
      ∀ t ∈ (uncommented ts).head?, ready t = false)
    {ts : List Token} (hts : s.Remains ts) (hs : Settled ts) (a : α)
    (hstep : ∀ b us, Rounds ready step s a ts b us → s.Remains us → lineKind us ≠ .newline →
      AlikeFrom s E Eq us (step b) (step b)) :
    AlikeFrom s E Eq ts (iterate ready step a) (iterate ready step a) := by
  induction hn : ts.length using Nat.strongRecOn generalizing a ts with
  | ind n ih =>
    by_cases hr : ∀ t ∈ ts.head?, ready t = false
    · rw [AlikeFrom, iterate_of_head hr, iterate_of_head (hstop ts hts hs hr)]
      exact ⟨.nil, .done rfl, rfl, ts.suffix_refl⟩
    · obtain ⟨t, us, rfl, hnext⟩ : ∃ t us, ts = t :: us ∧ ready t := by
        cases ts with
        | nil => exact absurd (fun t ht => by cases ht) hr
        | cons t us => exact ⟨t, us, rfl, by simpa using hr⟩
      have ht : t.kind ≠ .newline ∧ t.kind ≠ .comment := by
        simpa [separates] using hready t us hts hs hnext
      have hround := hstep a (t :: us) (.first hnext) hts (by rw [lineKind, if_neg ht.2]; exact ht.1)
      have hleft := ((htakes a).taken s t us)
      rw [AlikeFrom, uncommented_cons ht.2] at hround ⊢
      rw [Takes.iterate_run htakes hnext, Takes.iterate_run htakes hnext]
      refine hround.follow fun b _ hb heq => ?_
      subst heq
      have hrun : step a s (t :: us) =
          ⟨(step a s (t :: us)).events, .done b, (step a s (t :: us)).rest⟩ := by rw [← hb]
      refine ih _ ?_ (hts.tail.after hleft) (hsettled a t us b hb) b (fun c vs hc => ?_) rfl
      · rw [← hn, List.length_cons]
        exact Nat.lt_succ_of_le hleft.length_le
      · exact hstep c vs (hc.cons hnext hrun hleft.length_le)

/-- A loop that goes on at neither comments nor line breaks. -/
theorem Alike.iterate (htakes : ∀ a, Takes deep (step a))
    (hstep : ∀ a k, k ≠ .newline → AlikeAt s E Eq k (step a) (step a))
    (hready : ∀ t, ready t → separates t = false) (a : α) :
    Alike s E Eq (iterate ready step a) (iterate ready step a) := by
  intro k ts hts _
  refine iterate_alike (fun _ => True) htakes (fun _ _ _ _ _ => trivial)
    (fun t _ _ _ => hready t) (fun ts hts _ hstop => ?_) hts trivial a
      fun b us _ hus hline => hstep b _ hline us hus rfl
  have hbreak : ∀ t, t.kind = .newline → ready t = false := by
    intro t ht
    cases hr : ready t with
    | false => rfl
    | true => simpa [separates, ht] using hready t hr
  by_cases hline : lineKind ts = .newline
  · exact fun t ht => hbreak t (hts.head_uncommented hline t ht)
  · obtain ⟨t, us, rfl, -, -, hless⟩ := exists_cons_of_lineKind hline rfl
    rw [hless]
    simpa using hstop

/-- A loop whose rounds begin past blank lines. -/
theorem AlikeFrom.pastBlankLoop (htakes : ∀ a, Takes deep (step a))
    (hrest : ∀ a t ts b, (step a s (t :: ts)).outcome = .done b →
      ∃ left : List Token, (step a s (t :: ts)).rest = left.dropWhile separates) (a : α)
    {ts : List Token} (hts : s.Remains ts)
    (hstep : ∀ b us, Rounds ready step s a (ts.dropWhile separates) b us → s.Remains us →
      lineKind us ≠ .newline → AlikeFrom s E Eq us (step b) (step b)) :
    AlikeFrom s E Eq ts (do Rule.skipBlankLines; Rule.iterate ready step a)
      (do Rule.skipBlankLines; Rule.iterate ready step a) := by
  simp only [AlikeFrom, bind_run, skipBlankLines_run, Reply.follow_done, Reply.after_nil]
  rw [← uncommented_dropWhile_separates]
  refine .widen ?_ (List.dropWhile_suffix separates)
  have hhead : ∀ us : List Token, ∀ u ∈ (us.dropWhile separates).head?, separates u = false :=
    fun us u hu => separates_of_dropWhile (List.head?_eq_some_iff.mp hu).choose_spec
  refine iterate_alike (fun us => ∀ u ∈ us.head?, separates u = false) htakes ?_
    (fun t _ _ hs _ => hs t rfl) ?_ (hts.after (List.dropWhile_suffix _)) (hhead ts) a hstep
  · intro a t us b hd u hu
    obtain ⟨left, hleft⟩ := hrest a t us b hd
    rw [hleft] at hu
    exact hhead left u hu
  · intro us _ hs hstop
    cases us with
    | nil => exact fun u hu => by cases hu
    | cons u us =>
      have hsep := hs u rfl
      simp only [separates, Bool.or_eq_false_iff, beq_eq_false_iff_ne] at hsep
      rw [uncommented_cons hsep.2]
      simpa using hstop

end loops

section recovery
variable [Recovers ε] {statement : Rule ε Unit} {deep : Prop}

/-- Where a statement can begin is the same with the comments and without them, if the token before
is a line break both times or neither time. -/
private theorem resumption_uncommented {restarts : TokenKind → Bool} (hc : restarts .comment = false)
    {last last' : Option Token}
    (h : last'.any (·.kind == .newline) = last.any (·.kind == .newline)) (ts : List Token) :
    uncommented (resumption restarts last ts) = resumption restarts last' (uncommented ts) := by
  induction ts generalizing last last' with
  | nil => rfl
  | cons t ts ih =>
    cases hn : last.any (·.kind == .newline) with
    | true =>
      have hwhole : ∀ {l : Option Token} (us : List Token), l.any (·.kind == .newline) = true →
          resumption restarts l us = us := by
        intro l us hl
        cases us <;> simp [resumption, hl]
      rw [hwhole _ hn, hwhole _ (h.trans hn)]
    | false =>
      by_cases ht : t.kind = .comment
      · rw [uncommented_cons_comment ht, resumption, if_neg (by simp [hn, ht, hc])]
        exact ih (by rw [h, hn]; simp [ht])
      · rw [uncommented_cons ht, resumption, resumption, h]
        split
        · exact uncommented_cons ht ts
        · exact ih rfl

private theorem resumption_close (restarts : TokenKind → Bool) {u : Token} (hu : u.kind = .newline)
    (last : Option Token) (ts : List Token) :
    (resumption restarts last (u :: ts)).dropWhile separates = ts.dropWhile separates := by
  rw [resumption]
  split
  · exact dropWhile_close hu ts
  · rw [resumption_newline hu]

/-- Past the blank lines a block goes on at the same place with the comments and without them. -/
private theorem resumption_dropWhile {restarts : TokenKind → Bool} (hc : restarts .comment = false)
    {ts : List Token} (hts : s.Remains ts) :
    uncommented ((resumption restarts (s.previous? ts) ts).dropWhile separates) =
      (resumption restarts (s.uncommented.previous? (uncommented ts)) (uncommented ts)).dropWhile
        separates := by
  rcases hts.previous?_uncommented with hlast | ⟨t, -, ht, hbehind⟩
  · rw [uncommented_dropWhile_separates, hlast, resumption_uncommented hc rfl]
  · cases ts with
    | nil => rfl
    | cons u us =>
      have hu : u.kind = .newline := hbehind.head_of_comment ht u rfl
      rw [uncommented_cons (by simp [hu]), resumption_close _ hu, resumption_close _ hu,
        uncommented_dropWhile_separates]

variable (hc : Recovers.restarts ε .comment = false)
  (hE : ∀ d d', Diagnostic.SameLine d d' → E (Recovers.recovered d) (Recovers.recovered d'))
include hc hE

/-- A fault of a statement is found on the same line, and costs the same tokens but for comments. -/
private theorem AlikeFrom.round {ts : List Token} (hts : s.Remains ts) (hk : lineKind ts ≠ .newline)
    (htakes : Takes deep statement) (hstatement : AlikeFrom s E Eq ts statement statement) :
    AlikeFrom s E Eq ts (round statement) (round statement) := by
  obtain ⟨t, us, rfl, -, -, hless⟩ := exists_cons_of_lineKind hk rfl
  rw [AlikeFrom, hless] at hstatement ⊢
  have hleft := htakes.taken s t us
  have hleft' := (htakes.taken s.uncommented t (uncommented us)).length_le
  have hremains := hts.tail.after hleft
  rcases hs : statement s (t :: us) with ⟨es, o, rest⟩
  rcases hs' : statement s.uncommented (t :: uncommented us) with ⟨es', o', rest'⟩
  rw [hs, hs'] at hstatement
  rw [hs] at hleft hremains
  rw [hs'] at hleft'
  obtain ⟨hevents, houtcome, rfl, hsuffix⟩ := hstatement
  have hdrop : ∀ {vs : List Token}, vs <:+ rest → vs.dropWhile separates <:+ t :: us := fun hvs =>
    (List.dropWhile_suffix _).trans (hvs.trans hsuffix)
  cases houtcome with
  | done _ =>
    rw [round_done hs hleft.length_le, round_done hs' hleft']
    exact ⟨hevents, .done rfl, (uncommented_dropWhile_separates rest).symm,
      hdrop rest.suffix_refl⟩
  | failed m =>
    rw [round_of_guarded (guarded_fault hs) ((resumption_suffix _ _ _).trans hleft).length_le,
      round_of_guarded (guarded_fault hs') ((resumption_suffix _ _ _).length_le.trans hleft')]
    exact ⟨List.rel_append hevents (.cons (hE _ _ ⟨rfl, hremains.current_uncommented⟩) .nil),
      .done rfl, (resumption_dropWhile hc hremains).symm, hdrop (resumption_suffix _ _ _)⟩
  | tooDeep =>
    rw [round_of_tooDeep (guarded_of_tooDeep hs), round_of_tooDeep (guarded_of_tooDeep hs')]
    exact ⟨hevents, .tooDeep, rfl, hsuffix⟩

/-- A block writes alike events with the comments and without them if its statement does wherever it is
entered. -/
theorem AlikeFrom.block (htakes : Takes deep statement) (stop : Option TokenKind) {ts : List Token}
    (hts : s.Remains ts) (h : ∀ us, Entered statement stop s ts us → s.Remains us →
      lineKind us ≠ .newline → AlikeFrom s E Eq us statement statement) :
    AlikeFrom s E Eq ts (block statement stop) (block statement stop) := by
  refine .pastBlankLoop (fun _ => htakes.round) (fun _ t us _ hd => ?_) () hts
    fun _ us hus hremains hk => .round hc hE hremains hk htakes (h us hus hremains hk)
  obtain ⟨left, -, hrest⟩ := round_rest htakes hd
  exact ⟨left, hrest⟩

/-- A block writes alike events with the comments and without them if its statements do. -/
theorem Alike.block (htakes : Takes deep statement)
    (h : ∀ k, k ≠ .newline → AlikeAt s E Eq k statement statement) (stop : Option TokenKind) :
    Alike s E Eq (block statement stop) (block statement stop) := fun _ _ hts _ =>
  AlikeFrom.block hc hE htakes stop hts fun us _ hremains hk => h _ hk us hremains rfl

end recovery

end Rule
end Mermaid
