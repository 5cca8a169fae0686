import Mermaid.Proofs.Flowchart.Definition
import Mermaid.Proofs.Flowchart.Lines

/-! Bare links, which no arrow makes complete. Behind the first node of a statement a bare link is a
fault, and costs the rest of its line; behind a link it is passed over, and what follows it is read
as if it began a statement. -/
namespace Mermaid.Flowchart.Grammar
open Rule

/-- `k` links from `source` to `target`, one after the other, with the events that they write. -/
inductive Linked (s : Stream) : (k : Nat) → (source : String) → List Token → List Event →
    (target : String) → List Token → Prop
  | none {source : String} {ts : List Token} : Linked s 0 source ts [] source ts
  | link {k : Nat} {source next target : String} {t : Token} {ts us rest : List Token}
      {es fs : List Event} (ht : (arrow? t.kind).isSome)
      (h : Grammar.link source s (t :: ts) = ⟨es, .done next, us⟩)
      (more : Linked s k next us fs target rest) :
      Linked s (k + 1) source (t :: ts) (es ++ fs) target rest

/-- The tokens behind the next line break. -/
def behindLine (ts : List Token) : List Token := (ts.dropWhile (·.kind != .newline)).tail

/-- The tokens of the line, up to its break. -/
def lineOf (ts : List Token) : List Token := ts.takeWhile (·.kind != .newline)

variable {s : Stream}

theorem Linked.links_run {k : Nat} {source target : String} {ts ws : List Token} {fs : List Event}
    {bare : Token} (h : Linked s k source ts fs target (bare :: ws))
    (hbare : bare.kind = .solidLink) : links source s ts = ⟨fs, .done target, bare :: ws⟩ := by
  generalize hrest : bare :: ws = rest at h
  induction h with
  | none =>
    subst hrest
    exact iterate_stop (by rw [hbare]; rfl) _ ws
  | @link k source next target t ts us rest es fs ht h more ih =>
    have htakes : Takes True (Grammar.link source) := takes_link source
    have htaken := (htakes.taken s t ts).length_le
    rw [h] at htaken
    rw [links, iterate_cons ht h htaken, ← links, ih hrest, Reply.after_mk]

/-- Recovery behind a token of a line on which no statement restarts. -/
theorem resumption_behindLine {restarts : TokenKind → Bool}
    (hrestarts : restarts .newline = false) {last : Token} (hlast : last.kind ≠ .newline)
    {ts : List Token} (h : ∀ t ∈ lineOf ts, restarts t.kind = false) :
    resumption restarts (some last) ts = behindLine ts := by
  induction ts generalizing last with
  | nil => rfl
  | cons t ts ih =>
    by_cases ht : t.kind = .newline
    · rw [resumption_cons hlast (ht ▸ hrestarts), resumption_newline ht]
      simp [behindLine, ht]
    · have hline : lineOf (t :: ts) = t :: lineOf ts := by simp [lineOf, ht]
      have hbehind : behindLine (t :: ts) = behindLine ts := by simp [behindLine, ht]
      obtain ⟨hfirst, hmore⟩ := List.forall_mem_cons.mp (hline ▸ h)
      rw [hbehind, resumption_cons hlast hfirst, ih ht hmore]

/-- The tokens `id :: us` begin with a node and `k` links, which write events, in front of the link
`bare`, which no arrow makes complete. -/
structure BareLinkAt (s : Stream) (k : Nat) (id : Token) (us : List Token) (written : List Event)
    (bare : Token) (behind : List Token) : Prop where
  remaining : id :: us <:+ s.tokens
  identifier : id.kind = .identifier
  solidLink : bare.kind = .solidLink
  read : ∃ vs es fs source target, node id s us = ⟨es, .done source, vs⟩ ∧
    Linked s k source vs fs target (bare :: behind) ∧ written = es ++ fs

namespace BareLinkAt
variable {k depth : Nat} {id bare : Token} {us behind : List Token} {written : List Event}
  {stop : Option TokenKind}

theorem statement_run (h : BareLinkAt s k id us written bare behind) (depth : Nat) :
    statement depth s (id :: us) =
      ⟨written, if k = 0 then .failed .arrow else .done (), bare :: behind⟩ := by
  obtain ⟨vs, es, fs, source, target, hnode, hlinked, rfl⟩ := h.read
  obtain ⟨inner, hinner⟩ := exists_statementOver depth
  have hlinks := hlinked.links_run h.solidLink
  have hblank : separates id = false := by simp [separates, h.identifier]
  have hstatement : statement depth s (id :: us) = nodeOrEdge s (id :: us) := by
    simp only [hinner, statementOver_eq, bind_run, skipBlankLines_run, nextKind_run,
      List.dropWhile_cons, hblank, Bool.false_eq_true, if_false, List.head?_cons, Option.map_some,
      h.identifier, Reply.follow_done, Reply.after_nil]
    rfl
  rw [hstatement, nodeOrEdge]
  simp only [bind_run, advance_cons, Reply.follow_done, Reply.after_nil, hnode, nextKind_run]
  -- The rule looks for a bare link behind its first node only: there it fails, and behind a link the
  -- loop over the links stops at it.
  cases hlinked with
  | none => simp [h.solidLink, bind_run]
  | @link _ _ _ _ t _ _ _ _ _ ht =>
    have hne : t.kind ≠ .solidLink := by
      intro heq
      rw [heq] at ht
      cases ht
    simp [hne, bind_run, hlinks]

theorem length_le (h : BareLinkAt s k id us written bare behind) : behind.length < us.length := by
  have htaken := ((takes_statement 0).taken s id us).length_le
  rwa [h.statement_run] at htaken

/-- The events are about no fault. -/
theorem diagnostics_written (h : BareLinkAt s k id us written bare behind) :
    written.filterMap Event.diagnostic? = [] := by
  have hat : atSubgraph (id :: us) = false := by simp [atSubgraph, separates, h.identifier]
  have hplain := plain_statement 0 s hat
  rw [h.statement_run] at hplain
  exact List.filterMap_eq_nil_iff.mpr fun e he => (hplain e he).2.1

/-- The token before a bare link behind a node is on the same line. -/
private theorem exists_previous (h : BareLinkAt s 0 id us written bare behind) : ∃ last : Token,
    last.kind ≠ .newline ∧ s.previous? (bare :: behind) = some last := by
  obtain ⟨vs, es, fs, source, target, hnode, hlinked, -⟩ := h.read
  have hs := h.remaining
  cases hlinked with
  | none =>
    obtain ⟨-, taken, htaken, rfl⟩ := exists_definition hnode
    obtain ⟨last, hlast, hprevious⟩ := previous?_line (List.nil_suffix (l := id :: taken)) (by simp)
    have hline : ∀ t ∈ id :: taken, t.kind ≠ .newline :=
      List.forall_mem_cons.mpr ⟨by rw [h.identifier]; decide, htaken.inLine⟩
    exact ⟨last, hline last hlast, hprevious s _ hs⟩

/-- A bare link is a fault right behind the node that begins a statement: the one of its line, which
is passed over. -/
theorem block_first (h : BareLinkAt s 0 id us written bare behind)
    (hline : ∀ t ∈ lineOf behind, Recovers.restarts Event t.kind = false)
    (hstop : ∀ kind ∈ stop, kind = .endSubgraph) :
    block (statement depth) stop s (id :: us) =
      (block (statement depth) stop s (behindLine behind)).after
        (written ++ [.recovered (Expectation.arrow.unmetAt bare)]) := by
  have hrun := h.statement_run depth
  obtain ⟨last, hlast, hprevious⟩ := h.exists_previous
  have hbare : bare.kind ≠ .newline := by simp [h.solidLink]
  have hbehind : behindLine (bare :: behind) = behindLine behind := by simp [behindLine, hbare]
  have hresumption : resumption (Recovers.restarts Event) (some last) (bare :: behind) =
      behindLine behind := by
    have hfirst : lineOf (bare :: behind) = bare :: lineOf behind := by simp [lineOf, hbare]
    rw [← hbehind]
    refine resumption_behindLine rfl hlast ?_
    rw [hfirst, List.forall_mem_cons, h.solidLink]
    exact ⟨rfl, hline⟩
  have hlength : (behindLine behind).length ≤ us.length := by
    have hdrop := (List.dropWhile_suffix (l := behind) (·.kind != .newline)).length_le
    have hus := h.length_le
    rw [behindLine, List.length_tail]
    omega
  have hstop' : some id.kind ≠ stop := by
    rintro rfl
    have hkind := hstop _ rfl
    rw [h.identifier] at hkind
    cases hkind
  refine block_cons (by simp [separates, h.identifier]) hstop' ?_ hlength
  rw [guarded_of_failed (by rw [hrun]; rfl), hrun]
  simp only [hprevious, hresumption]
  rfl

/-- Behind a link it is none: the bare link is passed over, and a block goes on with what is behind
it. -/
theorem block_later (h : BareLinkAt s (k + 1) id us written bare behind)
    (hstop : ∀ kind ∈ stop, kind = .endSubgraph) :
    block (statement depth) stop s (id :: us) =
      (block (statement depth) stop s behind).after written := by
  have hnext : ∀ kind : TokenKind, kind ≠ .endSubgraph → some kind ≠ stop := by
    rintro kind hkind rfl
    exact hkind (hstop kind rfl)
  have hid : some id.kind ≠ stop := hnext _ (by simp [h.identifier])
  have hbare : some bare.kind ≠ stop := hnext _ (by simp [h.solidLink])
  have hrun : statement depth s (id :: us) = ⟨written, .done (), bare :: behind⟩ :=
    h.statement_run depth
  have hpassed : statement depth s (bare :: behind) = ⟨[], .done (), behind⟩ := by
    obtain ⟨inner, hinner⟩ := exists_statementOver depth
    simp [hinner, statementOver_eq, bind_run, skipBlankLines_run, separates, statementFrom,
      h.solidLink]
  rw [block_cons (by simp [separates, h.identifier]) hid (guarded_of_done hrun) h.length_le,
    block_cons (by simp [separates, h.solidLink]) hbare (guarded_of_done hpassed) (Nat.le_refl _),
    Reply.after_nil]

end BareLinkAt

/-- A bare link is reported right behind the node that begins a statement, and nowhere else. There
it is the one fault of its line, and the tokens behind it on the line are passed over. Behind `k`
links, for any `k` but zero, it is passed over alone and without a report, and the tokens behind it
are read as statements of their own. -/
theorem block_bareLink {s : Stream} {k : Nat} {id bare : Token} {us behind : List Token}
    {written : List Event} (h : BareLinkAt s k id us written bare behind) (depth : Nat)
    {stop : Option TokenKind} (hstop : ∀ kind ∈ stop, kind = .endSubgraph) :
    written.filterMap Event.diagnostic? = [] ∧
    (k = 0 → (∀ t ∈ lineOf behind, Recovers.restarts Event t.kind = false) →
      block (statement depth) stop s (id :: us) =
        (block (statement depth) stop s (behindLine behind)).after
          (written ++ [.recovered (Expectation.arrow.unmetAt bare)])) ∧
    (k ≠ 0 → block (statement depth) stop s (id :: us) =
      (block (statement depth) stop s behind).after written) := by
  refine ⟨h.diagnostics_written, ?_, ?_⟩
  · rintro rfl hline
    exact h.block_first hline hstop
  · intro hk
    obtain ⟨k, rfl⟩ := Nat.exists_eq_succ_of_ne_zero hk
    exact h.block_later hstop

/-- A bare link behind a link. -/
def bareLinkText : String := "flowchart TD\nA --> B -- text --> C\n"

theorem block_bareLinkText :
    let s := Stream.ofText bareLinkText
    let written : List Event :=
      [.mention "A" 2, .mention "B" 2, .link { source := "A", target := "B" }]
    ∃ id us bare behind, s.tokens.drop 3 = id :: us ∧ BareLinkAt s 1 id us written bare behind ∧
      block (statement 0) none s (id :: us) =
        (block (statement 0) none s behind).after written := by
  intro s written
  have hat : BareLinkAt s 1 ⟨.identifier, "A", ⟨2, 1⟩⟩ (s.tokens.drop 4) written
      ⟨.solidLink, "--", ⟨2, 9⟩⟩ (s.tokens.drop 7) := by
    have hlink : Grammar.link "A" s (⟨.solidArrow, "-->", ⟨2, 3⟩⟩ :: s.tokens.drop 5) =
        ⟨[.mention "B" 2, .link { source := "A", target := "B" }], .done "B",
          ⟨.solidLink, "--", ⟨2, 9⟩⟩ :: s.tokens.drop 7⟩ := by decide +kernel
    have hlinked := Linked.link (by decide) hlink .none
    exact {
      remaining := by decide +kernel
      identifier := rfl
      solidLink := rfl
      read := ⟨_, [.mention "A" 2], _, "A", "B", by decide +kernel, hlinked, rfl⟩ }
  refine ⟨_, _, _, _, by decide +kernel, hat, ?_⟩
  exact (block_bareLink hat 0 (by simp)).2.2 Nat.one_ne_zero

/-- The words behind such a bare link become a node and an edge, and no fault is found. -/
theorem parse_bareLinkText : parse bareLinkText =
    { nodes := ⟨[("A", .bare "A" 2), ("B", .bare "B" 2), ("text", .bare "text" 2),
        ("C", .bare "C" 2)]⟩
      edges := [{ source := "A", target := "B" }, { source := "text", target := "C" }] } := by
  decide +kernel

end Mermaid.Flowchart.Grammar
