import Mermaid.Proofs.Grammar.Progress
import Mermaid.Proofs.Grammar.Writing
import Mermaid.Proofs.Token.Order

/-! Where rules find faults, and how many. The diagnostics of a rule are made at places that it
comes by one after the other, and a statement makes fewer of them than it takes tokens. -/
namespace Mermaid

/-- Says which diagnostic an event keeps. -/
class Reporting (ε : Type) [Recovers ε] where
  diagnostic? : ε → Option Diagnostic
  recovered : ∀ d, diagnostic? (Recovers.recovered d) = some d

/-- The diagnostics are at tokens, in the order of the text, and not more than there are tokens. -/
structure Diagnostic.Located (ds : List Diagnostic) (ts : List Token) : Prop where
  placed : ∀ d ∈ ds, ∃ t ∈ ts, d.position = t.position
  ordered : ds.Pairwise (·.position ≤ ·.position)
  count : ds.length ≤ ts.length

/-- The diagnostics are made one after the other on the way from `ts` to `rest`, each at the token
that is current there. -/
inductive Trail (s : Stream) : List Token → List Diagnostic → List Token → Prop
  | nil {ts rest : List Token} (h : rest <:+ ts) : Trail s ts [] rest
  | cons {ts us rest : List Token} {d : Diagnostic} {ds : List Diagnostic} (h : us <:+ ts)
      (hd : d.position = (s.current us).position) (more : Trail s us ds rest) :
      Trail s ts (d :: ds) rest

namespace Trail
variable {s : Stream} {ts us rest : List Token} {ds es : List Diagnostic}

theorem before (h : Trail s us ds rest) (hus : us <:+ ts) : Trail s ts ds rest := by
  cases h with
  | nil h => exact .nil (h.trans hus)
  | cons h hd more => exact .cons (h.trans hus) hd more

theorem append (h : Trail s ts ds us) (h' : Trail s us es rest) : Trail s ts (ds ++ es) rest := by
  induction h with
  | nil h => exact h'.before h
  | cons h hd _ ih => exact .cons h hd (ih h')

/-- What is made on the way is made at tokens of the stream. -/
theorem located (h : Trail s ts ds rest) (hts : ts <:+ s.tokens) :
    ∀ d ∈ ds, ∃ t ∈ s.toList, d.position = t.position := by
  induction h with
  | nil => exact fun _ h => by cases h
  | cons h hd _ ih =>
    have hus := h.trans hts
    exact List.forall_mem_cons.mpr ⟨⟨_, Stream.current_mem hus, hd⟩, ih hus⟩

/-- What is made on the way stands in the order of the text. -/
theorem ordered (hs : s.Ordered) (h : Trail s ts ds rest) (hts : ts <:+ s.tokens) :
    ds.Pairwise (·.position ≤ ·.position) ∧ ∀ d ∈ ds, (s.current ts).position ≤ d.position := by
  induction h with
  | nil => simp
  | cons h hd _ ih =>
    obtain ⟨hordered, hlater⟩ := ih (h.trans hts)
    have hhere := Stream.current_mono hs hts h
    rw [← hd] at hlater hhere
    exact ⟨List.pairwise_cons.mpr ⟨hlater, hordered⟩,
      List.forall_mem_cons.mpr ⟨hhere, fun d hd => hhere.trans (hlater d hd)⟩⟩

end Trail

namespace Reply
variable {ε α β : Type} [Recovers ε] [Reporting ε] {s : Stream} {ts : List Token}

/-- The diagnostics that are kept. -/
def reports (r : Reply ε α) : List Diagnostic := r.events.filterMap Reporting.diagnostic?

/-- The diagnostics are made on the way from `ts` on, and there is room for them together with the
tokens that are left. -/
structure Reports (s : Stream) (ts : List Token) (room : Nat) (r : Reply ε α) : Prop where
  trail : Trail s ts r.reports r.rest
  count : r.reports.length + r.rest.length ≤ room

theorem Reports.follow {r : Reply ε α} {room credit : Nat} {next : α → List Token → Reply ε β}
    (h : r.Reports s ts room)
    (hn : ∀ a, (next a r.rest).Reports s r.rest (r.rest.length + credit)) :
    (r.follow next).Reports s ts (room + credit) := by
  have hcount := h.count
  rw [Reply.follow]
  cases r.outcome with
  | done a =>
    have hreports : ((next a r.rest).after r.events).reports = r.reports ++ (next a r.rest).reports :=
      List.filterMap_append
    have hcount' := (hn a).count
    refine ⟨hreports ▸ h.trail.append (hn a).trail, ?_⟩
    rw [hreports, List.length_append]
    change _ + (next a r.rest).rest.length ≤ _
    omega
  | failed | tooDeep => exact ⟨h.trail, hcount.trans (Nat.le_add_right room credit)⟩

/-- The diagnostics of a reading of all tokens, with room for one at the end of the text. -/
theorem Reports.located {r : Reply ε α} (h : r.Reports s s.tokens (s.tokens.length + 1))
    (hs : s.Ordered) : Diagnostic.Located r.reports s.toList where
  placed := h.trail.located (List.suffix_refl _)
  ordered := (h.trail.ordered hs (List.suffix_refl _)).1
  count := by
    rw [Stream.toList, List.length_append]
    exact (Nat.le_add_right _ _).trans h.count

end Reply

namespace Rule
variable {ε α β : Type} [Recovers ε] [Reporting ε]

/-- Makes its diagnostics on its way, and but for `credit` no more than it takes tokens. -/
def Reports (credit : Nat) (r : Rule ε α) : Prop :=
  ∀ s ts, (r s ts).Reports s ts (ts.length + credit)

/-- Takes the next token for nothing if it is of this kind: that leaves room for a diagnostic. -/
structure SparesKind (kind : TokenKind) (r : Rule ε α) : Prop where
  reports : Reports 0 r
  spared : ∀ s t ts, t.kind = kind → (r s (t :: ts)).Reports s (t :: ts) ts.length

/-- Takes the next token for nothing. -/
def Spares (r : Rule ε α) : Prop := ∀ kind, SparesKind kind r

section rules
variable {rule : Rule ε α} {next : α → Rule ε β} {credit : Nat}

theorem Reports.bind (h : Reports 0 rule) (hn : ∀ a, Reports credit (next a)) :
    Reports credit (rule >>= next) := fun s ts => (h s ts).follow fun a => hn a s _

theorem Reports.onOverflow (h : Reports credit rule) {e : ε} (he : Reporting.diagnostic? e = none) :
    Reports credit (onOverflow rule e) := by
  intro s ts
  have hreply := h s ts
  rcases hr : rule s ts with ⟨es, o, rest⟩
  rw [hr] at hreply
  cases o with
  | tooDeep =>
    have hreports : (⟨es ++ [e], .tooDeep, rest⟩ : Reply ε α).reports =
        (⟨es, .tooDeep, rest⟩ : Reply ε α).reports := by
      simp [Reply.reports, he]
    rw [onOverflow_of_tooDeep hr]
    exact ⟨hreports ▸ hreply.trail, hreports ▸ hreply.count⟩
  | done | failed =>
    rw [onOverflow_of_ne (by simp [hr]), hr]
    exact hreply

theorem Reports.bindLast (h : Reports credit rule) (hn : ∀ a, Reports 0 (next a)) :
    Reports credit (rule >>= next) := fun s ts => (h s ts).follow fun a => hn a s _

theorem Reports.weaken (h : Reports 0 rule) : Reports credit rule := fun s ts =>
  ⟨(h s ts).trail, (h s ts).count.trans (Nat.add_le_add_left credit.zero_le _)⟩

/-- A fault that costs nothing is paid for by the rule's credit. -/
theorem Reports.fault (m : Expectation) {kept : Diagnostic → ε}
    (h : ∀ d, Reporting.diagnostic? (kept d) = some d) :
    Reports 1 (do emit (kept (← unmet m)) : Rule ε Unit) := by
  intro s ts
  have hreports : (⟨[kept (m.unmetAt (s.current ts))], .done (), ts⟩ : Reply ε Unit).reports =
      [m.unmetAt (s.current ts)] := by
    simp [Reply.reports, h]
  refine ⟨?_, ?_⟩
  · exact hreports ▸ .cons ts.suffix_refl rfl (.nil ts.suffix_refl)
  · exact hreports ▸ (Nat.add_comm 1 ts.length).le

private theorem reply_of_plain {r : Rule ε α} {Q : α → Prop} {s : Stream} {ts : List Token} {room : Nat}
    (hp : Writes (fun e => Reporting.diagnostic? e = none) Q r) (hrest : (r s ts).rest <:+ ts)
    (hroom : (r s ts).rest.length ≤ room) : (r s ts).Reports s ts room := by
  have hnone : (r s ts).reports = [] := List.filterMap_eq_nil_iff.mpr (hp.events s ts)
  constructor
  · rw [hnone]
    exact .nil hrest
  · rwa [hnone, List.length_nil, Nat.zero_add]

/-- A rule that writes nothing about faults. -/
theorem Reports.plain {r : Rule ε α} {Q : α → Prop} (h : Steady True r)
    (hp : Writes (fun e => Reporting.diagnostic? e = none) Q r) : Reports 0 r :=
  fun s ts => reply_of_plain hp (h.rest s ts) (h.rest s ts).length_le

theorem SparesKind.plain {r : Rule ε α} {kind : TokenKind} {Q : α → Prop} (h : TakesKind True kind r)
    (hp : Writes (fun e => Reporting.diagnostic? e = none) Q r) : SparesKind kind r where
  reports := .plain h.toSteady hp
  spared s t ts ht := reply_of_plain hp (h.toSteady.rest s _) (h.taken s t ts ht).length_le

theorem SparesKind.bind {kind : TokenKind} (h : SparesKind kind rule) (hn : ∀ a, Reports 0 (next a)) :
    SparesKind kind (rule >>= next) where
  reports := h.reports.bind hn
  spared s t ts ht := (h.spared s t ts ht).follow fun a => hn a s _

private theorem reports_skipBlankLines : Reports 0 (skipBlankLines : Rule ε Unit) :=
  .plain .skipBlankLines .skipBlankLines

/-- A rule that passes over blank lines first, and then spares the token that it finds. -/
theorem Spares.pastBlank {next : Option TokenKind → Rule ε β} (hnone : Reports 0 (next none))
    (hsome : ∀ kind, SparesKind kind (next (some kind))) :
    Spares (do skipBlankLines; next (← nextKind)) := by
  intro kind
  refine ⟨reports_skipBlankLines.bind fun _ =>
    .bind (.plain .nextKind .nextKind) fun k => ?_, ?_⟩
  · cases k with
    | none => exact hnone
    | some kind => exact (hsome kind).reports
  · intro s t ts _
    simp only [bind_run, skipBlankLines_run, Reply.follow_done, nextKind_run, Reply.after_nil]
    have hdrop := List.dropWhile_suffix separates (l := t :: ts)
    cases hd : (t :: ts).dropWhile separates with
    | nil =>
      obtain ⟨htrail, hcount⟩ := hnone s []
      exact ⟨htrail.before List.nil_suffix, hcount.trans (Nat.zero_le _)⟩
    | cons u us =>
      obtain ⟨htrail, hcount⟩ := (hsome u.kind).spared s u us rfl
      rw [hd] at hdrop
      exact ⟨htrail.before hdrop, hcount.trans (Nat.le_of_succ_le_succ hdrop.length_le)⟩

end rules

section recovery
variable {statement : Rule ε Unit}

/-- A statement that fails has its diagnostic added, for which it has left the room. -/
private theorem guarded_reports (h : Spares statement) (s : Stream) (t : Token) (ts : List Token) :
    (guarded statement s (t :: ts)).Reports s (t :: ts) (t :: ts).length := by
  obtain ⟨htrail, hcount⟩ := (h t.kind).spared s t ts rfl
  cases ho : (statement s (t :: ts)).outcome with
  | failed m =>
    rw [guarded_of_failed ho]
    generalize (statement s (t :: ts)).rest = left at htrail hcount
    have hrest := resumption_suffix (Recovers.restarts ε) (s.previous? left) left
    have hreports : ((statement s (t :: ts)).events ++
        [Recovers.recovered (m.unmetAt (s.current left))]).filterMap Reporting.diagnostic? =
        (statement s (t :: ts)).reports ++ [m.unmetAt (s.current left)] := by
      simp [Reply.reports, Reporting.recovered]
    constructor
    · rw [Reply.reports, hreports]
      exact htrail.append (.cons left.suffix_refl rfl (.nil hrest))
    · -- The token that the statement takes for nothing leaves the room for one more diagnostic.
      have hlength := hrest.length_le
      rw [Reply.reports, hreports, List.length_append, List.length_singleton, List.length_cons]
      change _ + (resumption _ _ left).length ≤ _
      omega
  | done | tooDeep =>
    rw [guarded_of_not_failed (by simp [ho])]
    exact ⟨htrail, hcount.trans (Nat.le_succ _)⟩

private theorem round_reports (h : Spares statement) (s : Stream) (t : Token) (ts : List Token) :
    (round statement s (t :: ts)).Reports s (t :: ts) (t :: ts).length := by
  have hrest : Reports 0 (do skipBlankLines; progressPast (t :: ts).length : Rule ε Unit) :=
    reports_skipBlankLines.bind fun _ => .plain (.progressPast _) (.progressPast _)
  exact (guarded_reports h s t ts).follow fun _ => hrest s _

/-- A block makes the diagnostics of its rounds. -/
theorem Reports.block (h : Spares statement) (stop : Option TokenKind) :
    Reports 0 (block statement stop) := by
  refine reports_skipBlankLines.bind fun _ s ts => ?_
  change (iterate _ (fun _ => round statement) () s ts).Reports s ts _
  apply iterate_induction (P := fun _ ts (r : Reply ε Unit) => r.Reports s ts (ts.length + 0))
  · exact fun _ ts _ => ⟨.nil ts.suffix_refl, by simp [Reply.reports]⟩
  · exact fun _ t ts _ _ => round_reports h s t ts
  · intro _ t ts es b rest _ hs _ ih
    have hround := round_reports h s t ts
    rw [hs] at hround
    exact hround.follow fun _ => ih

/-- A document reports its faults: `kept` are the diagnostics in the diagram of a run of events,
`final` those in the diagram of the document, and `single` holds where a statement without
statements of its own is next. -/
structure FaultsReported (statement document : Rule ε Unit) (single : List Token → Prop)
    (kept : List ε → List Diagnostic) (final : List Diagnostic) (s : Stream) : Prop where
  /-- While the document is read, diagnostics are only ever added. -/
  grows : ∀ early late, early <+: late → late <+: (document s s.tokens).events →
    kept early <+: kept late ∧ kept late <+: final
  /-- A statement that fails has one diagnostic added to those before, at the token it fails at. -/
  failed : ∀ ts m, single ts → (statement s ts).outcome = .failed m → ∀ before,
    kept (before ++ (guarded statement s ts).events) =
      kept before ++ [m.unmetAt (s.current (statement s ts).rest)]
  /-- A statement that does not fail has none added. -/
  returned : ∀ ts, single ts → (∀ m, (statement s ts).outcome ≠ .failed m) → ∀ before,
    kept (before ++ (guarded statement s ts).events) = kept before
  /-- What is reported of a document that is read to its end stands at its tokens, in order. -/
  located : (document s s.tokens).outcome = .done () → Diagnostic.Located final s.toList

/-- A document reports its faults if its diagrams keep the diagnostics of their events. -/
theorem FaultsReported.of_reports {document : Rule ε Unit} {single : List Token → Prop}
    {kept : List ε → List Diagnostic} {final : List Diagnostic} {s : Stream}
    (hkept : ∀ events, kept events = events.filterMap Reporting.diagnostic?)
    (hfinal : kept (document s s.tokens).events <+: final)
    (hdone : (document s s.tokens).outcome = .done () → final = kept (document s s.tokens).events)
    (hsingle : ∀ ts, single ts → (statement s ts).reports = [])
    (hreports : Reports 1 document) (hs : s.Ordered) :
    FaultsReported statement document single kept final s where
  grows early late hearly hlate := by
    have hmono : ∀ {es fs : List ε}, es <+: fs → kept es <+: kept fs := by
      intro es fs h
      rw [hkept, hkept]
      exact h.filterMap _
    exact ⟨hmono hearly, (hmono hlate).trans hfinal⟩
  failed ts m hts hm before := by
    rw [hkept, hkept, List.filterMap_append, guarded_of_failed hm, List.filterMap_append,
      ← Reply.reports, hsingle ts hts]
    simp [Reporting.recovered]
  returned ts hts hm before := by
    rw [hkept, hkept, List.filterMap_append, guarded_of_not_failed hm, ← Reply.reports,
      hsingle ts hts, List.append_nil]
  located h := by
    rw [hdone h, hkept]
    exact (hreports s s.tokens).located hs

end recovery
end Rule
end Mermaid
