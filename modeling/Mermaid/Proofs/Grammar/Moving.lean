import Mermaid.Proofs.Grammar.Steady
import Mermaid.Proofs.Token.Moving

/-! Rules run on a stream and on the stream with its tokens moved within their lines. A rule that reads
of its tokens their kinds, lexemes and lines takes the same tokens both times, and writes the same events
but for the places of faults; the property is closed under everything that grammars are put together
from. -/
namespace Mermaid

def Diagnostic.moved (column : Position → Int) (d : Diagnostic) : Diagnostic :=
  { d with position := d.position.moved column }

/-- Events with the diagnostics in them moved. -/
class Movable (ε : Type) where
  moved : (Position → Int) → ε → ε

variable {ε α β γ δ : Type}

def Outcome.map (f : α → β) : Outcome α → Outcome β
  | .done a => .done (f a)
  | .failed missing => .failed missing
  | .tooDeep => .tooDeep

/-- The reply with all that it has of places moved, where `f` moves its value. -/
def Reply.moved [Movable ε] (column : Position → Int) (f : α → β) (r : Reply ε α) : Reply ε β :=
  ⟨r.events.map (Movable.moved column), r.outcome.map f, r.rest.map (·.moved column)⟩

/-- Takes the same from tokens that are moved. -/
def Carries (column : Position → Int) (f : α → β) (read : List Token → α × List Token)
    (read' : List Token → β × List Token) : Prop :=
  ∀ ts, read' (ts.map (·.moved column)) = ((f (read ts).1), (read ts).2.map (·.moved column))

theorem Carries.span {column : Position → Int} {p : Token → Bool}
    (hp : ∀ t : Token, p (t.moved column) = p t) :
    Carries column (List.map (·.moved column)) (List.span p) (List.span p) := by
  intro ts
  have hcomp : p ∘ (·.moved column) = p := funext hp
  rw [List.span_eq_takeWhile_dropWhile, List.span_eq_takeWhile_dropWhile, List.takeWhile_map,
    List.dropWhile_map, hcomp]

namespace Reply
variable [Movable ε] {column : Position → Int} {f : α → β} {g : γ → δ}

theorem moved_after (es : List ε) (r : Reply ε α) :
    (r.after es).moved column f = (r.moved column f).after (es.map (Movable.moved column)) := by
  simp [after, moved]

theorem follow_moved {r : Reply ε α} {next : α → List Token → Reply ε γ}
    {next' : β → List Token → Reply ε δ}
    (hn : ∀ a, r.outcome = .done a →
      next' (f a) (r.rest.map (·.moved column)) = (next a r.rest).moved column g) :
    (r.moved column f).follow next' = (r.follow next).moved column g := by
  obtain ⟨events, outcome, rest⟩ := r
  cases outcome with
  | done a =>
    rw [follow_done, moved_after, ← hn a rfl]
    rfl
  | failed | tooDeep => rfl

end Reply

namespace Stream
variable {column : Position → Int} {s : Stream} {ts : List Token}

theorem current_moved (s : Stream) (ts : List Token) :
    (s.moved column).current (ts.map (·.moved column)) = (s.current ts).moved column := by
  cases ts <;> rfl

theorem previous?_moved (s : Stream) (ts : List Token) :
    (s.moved column).previous? (ts.map (·.moved column)) =
      (s.previous? ts).map (·.moved column) := by
  have hindex : (s.moved column).index (ts.map (·.moved column)) = s.index ts := by
    simp [index, moved]
  rw [previous?, previous?, hindex]
  cases s.index ts with
  | zero => rfl
  | succ n => exact List.getElem?_map

end Stream

namespace Rule
variable [Movable ε] {column : Position → Int} {s : Stream} {f : α → β} {g : γ → δ}

/-- The second rule replies to tokens of the stream that are moved as the first one does to the tokens,
and `f` moves the value. -/
structure Moves (s : Stream) (column : Position → Int) (f : α → β) (r : Rule ε α) (r' : Rule ε β) :
    Prop extends Steady True r where
  run : ∀ ts, ts <:+ s.tokens →
    r' (s.moved column) (ts.map (·.moved column)) = (r s ts).moved column f

namespace Moves
variable {rule : Rule ε α} {rule' : Rule ε β} {next : α → Rule ε γ} {next' : β → Rule ε δ}

theorem bind (h : Moves s column f rule rule') (hn : ∀ a, Moves s column g (next a) (next' (f a))) :
    Moves s column g (rule >>= next) (rule' >>= next') where
  toSteady := .bind h.toSteady fun a => (hn a).toSteady
  run ts hts := by
    rw [bind_run, bind_run, h.run ts hts]
    exact Reply.follow_moved fun a _ => (hn a).run _ ((h.rest s ts).trans hts)

/-- A rule with the same value both times. -/
theorem bindSame {rule : Rule ε α} {rule' : Rule ε α} {next : α → Rule ε γ} {next' : α → Rule ε δ}
    (h : Moves s column id rule rule') (hn : ∀ a, Moves s column g (next a) (next' a)) :
    Moves s column g (rule >>= next) (rule' >>= next') := bind h hn

theorem pure (a : α) : Moves s column f (pure a : Rule ε α) (pure (f a)) := ⟨.pure a, fun _ _ => rfl⟩

theorem value (a : α) : Moves s column id (Pure.pure a : Rule ε α) (Pure.pure a) := pure a

theorem emit {e e' : ε} (h : e' = Movable.moved column e) : Moves s column id (emit e) (emit e') :=
  ⟨.emit e, fun _ _ => h ▸ rfl⟩

theorem fail (m : Expectation) : Moves s column f (fail m : Rule ε α) (fail m) :=
  ⟨.fail m, fun _ _ => rfl⟩

theorem tooDeep : Moves s column f (tooDeep : Rule ε α) tooDeep := ⟨.tooDeep trivial, fun _ _ => rfl⟩

theorem onOverflow {e e' : ε} (h : Moves s column f rule rule') (he : e' = Movable.moved column e) :
    Moves s column f (onOverflow rule e) (onOverflow rule' e') where
  toSteady := .onOverflow h.toSteady e
  run ts hts := by
    have hrun := h.run ts hts
    rcases hr : rule s ts with ⟨es, o, rest⟩
    rw [hr] at hrun
    cases o with
    | tooDeep =>
      rw [onOverflow_of_tooDeep hr, onOverflow_of_tooDeep hrun, he]
      simp [Reply.moved, Outcome.map]
    | done | failed =>
      have hne : (rule s ts).outcome ≠ .tooDeep := by simp [hr]
      have hne' : (rule' (s.moved column) (ts.map (·.moved column))).outcome ≠ .tooDeep := by
        simp [hrun, Reply.moved, Outcome.map]
      rw [onOverflow_of_ne hne, onOverflow_of_ne hne', hr, hrun]

theorem take {read : List Token → α × List Token} {read' : List Token → β × List Token}
    (hr : Reads read) (h : Carries column f read read') :
    Moves s column f (take read : Rule ε α) (take read') :=
  ⟨.take hr, fun ts _ => by rw [take_run, take_run, h ts]; rfl⟩

theorem look {view : List Token → α} (h : ∀ ts, view (ts.map (·.moved column)) = view ts) :
    Moves s column id (look view : Rule ε α) (look view) :=
  ⟨.look view, fun ts _ => by rw [look_run, look_run, h ts]; rfl⟩

theorem length : Moves s column id (Rule.look List.length : Rule ε Nat) (Rule.look List.length) :=
  look fun _ => List.length_map _

theorem nextKind : Moves s column id (nextKind : Rule ε (Option TokenKind)) nextKind :=
  look fun ts => by cases ts <;> rfl

theorem advance : Moves s column (·.moved column) (advance : Rule ε Token) advance where
  toSteady := .advance
  run ts _ := by cases ts <;> rfl

theorem accept (kind : TokenKind) : Moves s column id (accept kind : Rule ε Bool) (accept kind) where
  toSteady := .accept kind
  run ts _ := by
    cases ts with
    | nil => rfl
    | cons t ts =>
      by_cases h : t.kind = kind
      · rw [accept_cons h, List.map_cons, accept_cons (show (t.moved column).kind = kind from h)]
        rfl
      · rw [accept_of_ne (by simpa using h), accept_of_ne (by simpa using h)]
        rfl

theorem expect (kind : TokenKind) (m : Expectation) :
    Moves s column (·.moved column) (expect kind m : Rule ε Token) (expect kind m) where
  toSteady := .expect kind m
  run ts _ := by
    cases ts with
    | nil => rfl
    | cons t ts =>
      by_cases h : t.kind = kind
      · rw [expect_cons h, List.map_cons, expect_cons (show (t.moved column).kind = kind from h)]
        rfl
      · rw [expect_of_ne (by simpa using h), expect_of_ne (by simpa using h)]
        rfl

theorem unmet (m : Expectation) :
    Moves s column (·.moved column) (unmet m : Rule ε Diagnostic) (unmet m) where
  toSteady := .unmet m
  run ts _ := by
    rw [Rule.unmet, Rule.unmet, Stream.current_moved]
    rfl

theorem skipBlankLines : Moves s column id (skipBlankLines : Rule ε Unit) skipBlankLines where
  toSteady := .skipBlankLines
  run ts _ := by
    rw [skipBlankLines_run, skipBlankLines_run, List.dropWhile_map]
    rfl

theorem skipLine :
    Moves s column (List.map (·.moved column)) (skipLine : Rule ε (List Token)) skipLine :=
  .take (.span _) (.span fun _ => rfl)

/-- A rule that goes on with the rest of the line, which is a part of the stream. -/
theorem lineBind {next : List Token → Rule ε γ} {next' : List Token → Rule ε δ}
    (hn : ∀ line, line <:+: s.tokens → (∀ t ∈ line, t.kind ≠ .newline) →
      Moves s column g (next line) (next' (line.map (·.moved column))))
    (hsteady : ∀ line, Steady True (next line)) :
    Moves s column g (Rule.skipLine >>= next) (Rule.skipLine >>= next') where
  toSteady := .bind .skipLine hsteady
  run ts hts := by
    have hline : Moves s column _ (Rule.skipLine : Rule ε _) Rule.skipLine := .skipLine
    rw [bind_run, bind_run, hline.run ts hts]
    refine Reply.follow_moved fun line hdone => ?_
    obtain rfl : (restOfLine ts).1 = line := by cases hdone; rfl
    rw [restOfLine, List.span_eq_takeWhile_dropWhile]
    refine (hn _ ((List.takeWhile_prefix _).isInfix.trans hts.isInfix) fun t ht => ?_).run _ ?_
    · simpa using List.mem_takeWhile_imp ht
    · exact (hline.rest s ts).trans hts

theorem iterate {ready : Token → Bool} (hready : ∀ t, ready (t.moved column) = ready t)
    {step : α → Rule ε α} (h : ∀ a, Moves s column id (step a) (step a)) (a : α) :
    Moves s column id (iterate ready step a) (iterate ready step a) where
  toSteady := .iterate (fun a => (h a).toSteady) a
  run ts hts := by
    revert hts
    apply iterate_induction (P := fun a ts (r : Reply ε α) => ts <:+ s.tokens →
      Rule.iterate ready step a (s.moved column) (ts.map (·.moved column)) = r.moved column id)
    · intro a ts hstop _
      refine iterate_of_head (fun u hu => ?_) a
      rw [List.head?_map] at hu
      obtain ⟨t, ht, rfl⟩ := Option.map_eq_some_iff.mp hu
      rw [hready, hstop t ht]
    · intro a t ts hr hlast hts
      have hrun := (h a).run (t :: ts) hts
      rw [List.map_cons] at hrun ⊢
      refine (iterate_last ((hready t).trans hr) fun b hb => ?_).trans hrun
      rw [hrun] at hb ⊢
      have hdone : (step a s (t :: ts)).outcome = .done b := by
        cases ho : (step a s (t :: ts)).outcome <;> simp_all [Reply.moved, Outcome.map]
      simpa [Reply.moved] using hlast b hdone
    · intro a t ts es b rest hr hs hl ih hts
      have hrun := (h a).run (t :: ts) hts
      have hrest := (h a).rest s (t :: ts)
      rw [hs] at hrun hrest
      rw [List.map_cons] at hrun ⊢
      rw [iterate_cons ((hready t).trans hr) hrun (by simpa using hl), Reply.moved_after]
      exact congrArg (Reply.after _) (ih (hrest.trans hts))

theorem progressPast (before : Nat) :
    Moves s column id (progressPast before : Rule ε Unit) (progressPast before) where
  toSteady := .progressPast before
  run ts _ := by
    rw [Rule.progressPast, Rule.progressPast, List.length_map, ← List.map_tail]
    split <;> rfl

end Moves

section recovery
variable [Recovers ε] {statement : Rule ε Unit}

private theorem resumption_moved (restarts : TokenKind → Bool) (last : Option Token) (ts : List Token) :
    resumption restarts (last.map (·.moved column)) (ts.map (·.moved column)) =
      (resumption restarts last ts).map (·.moved column) := by
  induction ts generalizing last with
  | nil => rfl
  | cons t ts ih =>
    have hlast : (last.map (·.moved column)).any (·.kind == .newline) = last.any (·.kind == .newline) := by
      cases last <;> rfl
    rw [List.map_cons, resumption, resumption, hlast, Token.kind_moved]
    split
    · rfl
    · exact ih (some t)

variable (hfault : ∀ d : Diagnostic,
  Movable.moved column (Recovers.recovered d : ε) = Recovers.recovered (d.moved column))
include hfault

namespace Moves

theorem guarded (h : Moves s column id statement statement) :
    Moves s column id (guarded statement) (guarded statement) where
  toSteady := .guarded h.toSteady
  run ts hts := by
    have hrun := h.run ts hts
    rcases hr : statement s ts with ⟨es, o, rest⟩
    rw [hr] at hrun
    cases o with
    | failed m =>
      rw [guarded_fault hr, guarded_fault hrun, Stream.current_moved, Stream.previous?_moved,
        resumption_moved]
      simp [Reply.moved, Outcome.map, hfault]
      rfl
    | done | tooDeep =>
      have hne : ∀ m, (statement s ts).outcome ≠ .failed m := by simp [hr]
      have hne' : ∀ m, (statement (s.moved column) (ts.map (·.moved column))).outcome ≠ .failed m := by
        simp [hrun, Reply.moved, Outcome.map]
      rw [guarded_of_not_failed hne, guarded_of_not_failed hne', hr, hrun]

theorem round (h : Moves s column id statement statement) :
    Moves s column id (round statement) (round statement) :=
  .bindSame length fun _ => .bindSame (.guarded hfault h) fun _ => .bindSame .skipBlankLines fun _ =>
    .progressPast _

/-- A block is read alike if its statements are. -/
theorem block (h : Moves s column id statement statement) (stop : Option TokenKind) :
    Moves s column id (block statement stop) (block statement stop) := by
  have hround : ∀ _ : Unit, Moves s column id (Rule.round statement) (Rule.round statement) :=
    fun _ => .round hfault h
  have hready : ∀ t : Token, (some (t.moved column).kind != stop) = (some t.kind != stop) :=
    fun _ => rfl
  exact .bindSame .skipBlankLines fun _ => .iterate hready hround ()

end Moves
end recovery
end Rule
end Mermaid
