import Mermaid.Proofs.Grammar.Progress

/-! Rules run where the text ends before one of its tokens. A rule that leaves this token where it is
replies the same as if nothing came behind its own tokens; the property is closed under everything that
statements are put together from. -/
namespace Mermaid

/-- The stream `p` ends where the stream `s` has the token `t`, with `us` behind it. -/
structure Stream.Curtailed (s p : Stream) (t : Token) (us : List Token) : Prop where
  tokens : s.tokens = p.tokens ++ t :: us
  finish : p.finish = t.position

/-- What is left behind `t` does not have `t` in front. -/
theorem not_suffix_of_left {t : Token} {us left : List Token} : ¬ left ++ t :: us <:+ us := by
  intro h
  have hlength := h.length_le
  rw [List.length_append, List.length_cons] at hlength
  omega

namespace Stream.Curtailed
variable {s p : Stream} {t : Token} {us : List Token} (h : s.Curtailed p t us)
include h

theorem current_position (ts : List Token) :
    (p.current ts).position = (s.current (ts ++ t :: us)).position := by
  cases ts with
  | nil => exact h.finish
  | cons u ts => rfl

theorem previous?_eq (ts : List Token) : p.previous? ts = s.previous? (ts ++ t :: us) := by
  have hindex : s.index (ts ++ t :: us) = p.index ts := by
    simp only [index, h.tokens, List.length_append, List.length_cons]
    omega
  rw [previous?, previous?, hindex, h.tokens]
  split
  · rfl
  · rename_i n hn
    have hlt : n < p.tokens.length := by
      rw [index] at hn
      omega
    rw [List.getElem?_append_left hlt]

end Stream.Curtailed

namespace Rule
variable {ε α β : Type} {s p : Stream} {t : Token} {us : List Token}

/-- Replies the same where the text ends before `t`, if it leaves `t` where it is. -/
structure Curtails (s p : Stream) (t : Token) (us : List Token) (r : Rule ε α) : Prop
    extends Steady True r where
  reply : ∀ ts left, (r s (ts ++ t :: us)).rest = left ++ t :: us →
    r p ts = ⟨(r s (ts ++ t :: us)).events, (r s (ts ++ t :: us)).outcome, left⟩

/-- A function that reads the same where the text ends before `t`, if it leaves `t` where it is. -/
def CurtailsReads (t : Token) (us : List Token) (read : List Token → α × List Token) : Prop :=
  ∀ ts left, (read (ts ++ t :: us)).2 = left ++ t :: us → read ts = ((read (ts ++ t :: us)).1, left)

theorem CurtailsReads.span (stops : Token → Bool) : CurtailsReads t us (List.span stops) := by
  intro ts left hleft
  rw [List.span_eq_takeWhile_dropWhile] at hleft ⊢
  rw [List.span_eq_takeWhile_dropWhile]
  by_cases hts : ∀ u ∈ ts, stops u
  · rw [List.dropWhile_append_of_pos hts] at hleft
    cases ht : stops t with
    | true =>
      rw [List.dropWhile_cons_of_pos ht] at hleft
      have hsuffix : us.dropWhile stops <:+ us := List.dropWhile_suffix stops
      rw [show us.dropWhile stops = left ++ t :: us from hleft] at hsuffix
      exact absurd hsuffix not_suffix_of_left
    | false =>
      rw [List.dropWhile_cons_of_neg (by simp [ht])] at hleft
      obtain rfl : [] = left := @List.append_cancel_right _ [] _ _ hleft
      rw [List.takeWhile_append_of_pos hts, List.takeWhile_cons_of_neg (by simp [ht]),
        List.append_nil, List.takeWhile_eq_self_iff.mpr hts, List.dropWhile_eq_nil_iff.mpr hts]
  · have hne : ts.dropWhile stops ≠ [] := fun h => hts (List.dropWhile_eq_nil_iff.mp h)
    have hlength : (ts.takeWhile stops).length ≠ ts.length := by
      intro h
      have hsplit := congrArg List.length (List.takeWhile_append_dropWhile (p := stops) (l := ts))
      rw [List.length_append] at hsplit
      exact hne (List.eq_nil_of_length_eq_zero (by omega))
    rw [List.dropWhile_append, if_neg (by simpa using hne)] at hleft
    rw [List.takeWhile_append, if_neg hlength, List.append_cancel_right hleft]

namespace Curtails
variable {rule : Rule ε α} {next : α → Rule ε β}

theorem run (h : Curtails s p t us rule) {ts left : List Token} {es : List ε} {o : Outcome α}
    (hr : rule s (ts ++ t :: us) = ⟨es, o, left ++ t :: us⟩) : rule p ts = ⟨es, o, left⟩ := by
  have hsame := h.reply ts left (by rw [hr])
  rwa [hr] at hsame

/-- A rule that takes nothing and does not look at the tokens. -/
private theorem of_still {r : Rule ε α} {es : List ε} {o : Outcome α} (hsteady : Steady True r)
    (h : ∀ s ts, r s ts = ⟨es, o, ts⟩) : Curtails s p t us r where
  toSteady := hsteady
  reply ts left hleft := by
    rw [h] at hleft ⊢
    rw [h, List.append_cancel_right hleft]

theorem pure (a : α) : Curtails s p t us (pure a : Rule ε α) := of_still (.pure a) fun _ _ => rfl

theorem emit (e : ε) : Curtails s p t us (emit e) := of_still (.emit e) fun _ _ => rfl

theorem fail (m : Expectation) : Curtails s p t us (fail m : Rule ε α) := of_still (.fail m) fun _ _ => rfl

theorem tooDeep : Curtails s p t us (tooDeep : Rule ε α) := of_still (.tooDeep trivial) fun _ _ => rfl

theorem bind (h : Curtails s p t us rule) (hn : ∀ a, Curtails s p t us (next a)) :
    Curtails s p t us (rule >>= next) where
  toSteady := .bind h.toSteady fun a => (hn a).toSteady
  reply ts left := by
    have hrule := h.reply ts
    rw [bind_run, bind_run]
    generalize rule s (ts ++ t :: us) = r at hrule ⊢
    obtain ⟨es, o, rest⟩ := r
    cases o with
    | done a =>
      intro (hleft : (next a s rest).rest = left ++ t :: us)
      -- What the second rule leaves, the first one has left as well.
      obtain ⟨front, hfront⟩ := (hn a).rest s rest
      rw [hleft, ← List.append_assoc] at hfront
      subst hfront
      rw [hrule (front ++ left) rfl, Reply.follow_done, (hn a).reply _ left hleft]
      rfl
    | failed | tooDeep =>
      intro hleft
      rw [hrule left hleft]
      rfl

theorem take {read : List Token → α × List Token} (hreads : Reads read) (h : CurtailsReads t us read) :
    Curtails s p t us (take read : Rule ε α) where
  toSteady := .take hreads
  reply ts left hleft := by
    rw [take_run] at hleft ⊢
    rw [take_run, h ts left hleft]

theorem skipLine : Curtails s p t us (skipLine : Rule ε (List Token)) := take (.span _) (.span _)

theorem advance : Curtails s p t us (advance : Rule ε Token) where
  toSteady := .advance
  reply ts left hleft := by
    cases ts with
    | nil =>
      have hsuffix : left ++ t :: us <:+ us := hleft ▸ us.suffix_refl
      exact absurd hsuffix not_suffix_of_left
    | cons u ts =>
      obtain rfl : ts = left := List.append_cancel_right hleft
      rfl

theorem accept (kind : TokenKind) : Curtails s p t us (accept kind : Rule ε Bool) where
  toSteady := .accept kind
  reply ts left hleft := by
    by_cases hk : (ts ++ t :: us).head?.map (·.kind) = some kind
    · cases ts with
      | nil =>
        rw [List.nil_append, accept_cons (Option.some.inj hk)] at hleft
        have hsuffix : left ++ t :: us <:+ us := hleft ▸ us.suffix_refl
        exact absurd hsuffix not_suffix_of_left
      | cons u ts =>
        rw [List.cons_append, accept_cons (Option.some.inj hk)] at hleft ⊢
        rw [accept_cons (Option.some.inj hk), List.append_cancel_right hleft]
    · have hk' : ts.head?.map (·.kind) ≠ some kind := by
        cases ts with
        | nil => simp
        | cons u ts => exact hk
      rw [accept_of_ne hk] at hleft ⊢
      rw [accept_of_ne hk', List.append_cancel_right hleft]

theorem expect (kind : TokenKind) (m : Expectation) :
    Curtails s p t us (expect kind m : Rule ε Token) where
  toSteady := .expect kind m
  reply ts left hleft := by
    by_cases hk : (ts ++ t :: us).head?.map (·.kind) = some kind
    · cases ts with
      | nil =>
        rw [List.nil_append, expect_cons (Option.some.inj hk)] at hleft
        have hsuffix : left ++ t :: us <:+ us := hleft ▸ us.suffix_refl
        exact absurd hsuffix not_suffix_of_left
      | cons u ts =>
        rw [List.cons_append, expect_cons (Option.some.inj hk)] at hleft ⊢
        rw [expect_cons (Option.some.inj hk), List.append_cancel_right hleft]
    · have hk' : ts.head?.map (·.kind) ≠ some kind := by
        cases ts with
        | nil => simp
        | cons u ts => exact hk
      rw [expect_of_ne hk] at hleft ⊢
      rw [expect_of_ne hk', List.append_cancel_right hleft]

theorem unmet (hp : s.Curtailed p t us) (m : Expectation) :
    Curtails s p t us (unmet m : Rule ε Diagnostic) where
  toSteady := .unmet m
  reply ts left hleft := by
    obtain rfl : ts = left := List.append_cancel_right hleft
    rw [Rule.unmet, Expectation.unmetAt, hp.current_position]
    rfl

theorem skipBlankLines (ht : separates t = false) :
    Curtails s p t us (skipBlankLines : Rule ε Unit) where
  toSteady := .skipBlankLines
  reply ts left hleft := by
    have hstop : (t :: us).dropWhile separates = t :: us := dropWhile_separates (by simpa using ht)
    rw [skipBlankLines_run] at hleft ⊢
    have hdrop : (ts ++ t :: us).dropWhile separates = ts.dropWhile separates ++ t :: us := by
      rw [List.dropWhile_append]
      split
      · rename_i hnil
        rw [hstop, List.isEmpty_iff.mp hnil, List.nil_append]
      · rfl
    rw [hdrop] at hleft
    rw [skipBlankLines_run, List.append_cancel_right hleft]

/-- A rule that goes on with the kind of the next token. Where this is `t` it goes on as at the end of
the text, or takes `t`. -/
theorem nextKindBind {next : Option TokenKind → Rule ε β} (h : ∀ k, Curtails s p t us (next k))
    (hend : next (some t.kind) = next none ∨ ∀ ts, (next (some t.kind) s (t :: ts)).rest <:+ ts) :
    Curtails s p t us (nextKind >>= next) where
  toSteady := .bind .nextKind fun k => (h k).toSteady
  reply ts left := by
    simp only [bind_run, nextKind_run, Reply.follow_done, Reply.after_nil]
    intro hleft
    cases ts with
    | nil =>
      rcases hend with hend | hend
      · rw [List.nil_append, List.head?_cons, Option.map_some, hend] at hleft ⊢
        exact (h none).reply [] left hleft
      · have htaken := hend us
        exact absurd (hleft ▸ htaken) not_suffix_of_left
    | cons u ts => exact (h (some u.kind)).reply (u :: ts) left hleft

/-- A loop that stops before `t`. -/
theorem iterate {ready : Token → Bool} {step : α → Rule ε α} (ht : ready t = false)
    (htakes : ∀ a, Takes True (step a)) (h : ∀ a, Curtails s p t us (step a)) (a : α) :
    Curtails s p t us (iterate ready step a) where
  toSteady := .iterate (fun a => (h a).toSteady) a
  reply ts left := by
    induction hn : ts.length using Nat.strongRecOn generalizing ts a with
    | ind n ih =>
      intro hleft
      cases ts with
      | nil =>
        rw [List.nil_append, iterate_stop ht] at hleft ⊢
        rw [iterate_nil, @List.append_cancel_right _ [] _ _ hleft]
      | cons u ts =>
        cases hu : ready u with
        | false =>
          rw [List.cons_append, iterate_stop hu] at hleft ⊢
          rw [iterate_stop hu, ← @List.append_cancel_right _ (u :: ts) _ _ hleft]
        | true =>
          have hstep := (h a).reply (u :: ts)
          rw [List.cons_append, Takes.iterate_run htakes hu] at hleft ⊢
          rw [Takes.iterate_run htakes hu]
          have htaken := (htakes a).taken s u (ts ++ t :: us)
          rw [List.cons_append] at hstep
          rcases hs : step a s (u :: (ts ++ t :: us)) with ⟨es, o, rest⟩
          rw [hs] at hleft hstep htaken
          cases o with
          | done b =>
            have hloop : Steady True (Rule.iterate ready step b) :=
              .iterate (fun a => (h a).toSteady) b
            obtain ⟨front, hfront⟩ := hloop.rest s rest
            have hleft : (Rule.iterate ready step b s rest).rest = left ++ t :: us := hleft
            rw [hleft, ← List.append_assoc] at hfront
            subst hfront
            have hshorter : (front ++ left).length < n := by
              have hlength := htaken.length_le
              simp only [List.length_append, List.length_cons] at hlength
              rw [← hn, List.length_append, List.length_cons]
              omega
            rw [hstep (front ++ left) rfl, Reply.follow_done, Reply.follow_done,
              ih _ hshorter b _ rfl hleft]
            rfl
          | failed | tooDeep =>
            rw [hstep left hleft]
            rfl

section recovery
variable [Recovers ε]

/-- The next place where a statement can begin does not lie beyond a token that begins one. -/
theorem resumption_append {restarts : TokenKind → Bool} (ht : restarts t.kind) (last : Option Token)
    (ts : List Token) :
    resumption restarts last (ts ++ t :: us) = resumption restarts last ts ++ t :: us := by
  induction ts generalizing last with
  | nil =>
    simp [resumption, ht]
  | cons u ts ih =>
    rw [List.cons_append, resumption, resumption]
    split
    · rfl
    · exact ih _

/-- What a guard does behind a fault is the same where the text ends before `t`. -/
theorem resume (hp : s.Curtailed p t us) (ht : Recovers.restarts ε t.kind) {rest left : List Token}
    (hleft : resumption (Recovers.restarts ε) (s.previous? rest) rest = left ++ t :: us)
    (m : Expectation) : ∃ ts, rest = ts ++ t :: us ∧
      m.unmetAt (p.current ts) = m.unmetAt (s.current rest) ∧
      resumption (Recovers.restarts ε) (p.previous? ts) ts = left := by
  obtain ⟨front, hfront⟩ := resumption_suffix (Recovers.restarts ε) (s.previous? rest) rest
  rw [hleft, ← List.append_assoc] at hfront
  subst hfront
  rw [resumption_append ht] at hleft
  refine ⟨front ++ left, rfl, ?_, ?_⟩
  · rw [Expectation.unmetAt, Expectation.unmetAt, hp.current_position]
  · rw [hp.previous?_eq]
    exact List.append_cancel_right hleft

theorem guarded (hp : s.Curtailed p t us) (ht : Recovers.restarts ε t.kind)
    {statement : Rule ε Unit} (h : Curtails s p t us statement) :
    Curtails s p t us (guarded statement) where
  toSteady := .guarded h.toSteady
  reply ts left hleft := by
    rcases hs : statement s (ts ++ t :: us) with ⟨es, o, rest⟩
    cases o with
    | failed m =>
      rw [guarded_fault hs] at hleft ⊢
      obtain ⟨mid, rfl, hunmet, hresume⟩ := resume hp ht hleft m
      rw [guarded_fault (h.run hs), hunmet, hresume]
    | done | tooDeep =>
      have hrun : Rule.guarded statement s (ts ++ t :: us) = statement s (ts ++ t :: us) :=
        guarded_of_not_failed (by simp [hs])
      rw [hrun] at hleft ⊢
      have hsame := h.reply ts left hleft
      rw [guarded_of_not_failed (by simp [hsame, hs]), hsame]

end recovery
end Curtails
end Rule
end Mermaid
