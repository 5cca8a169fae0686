import Mermaid.Diagnostic
import Mermaid.Token.Stream

/-!
Rules of a grammar. A rule reads tokens and writes events, which build the diagram later on; what
it reads next never depends on the diagram. The remaining tokens are its place in the stream.
-/
namespace Mermaid

inductive Outcome (α : Type)
  | done (value : α)
  | failed (missing : Expectation)
  /-- A construct would be nested deeper than the rule allows. -/
  | tooDeep
  deriving DecidableEq, Repr

/-- What is said of a document that is not read to its end; `overflow` is the reason where it is nested too
deeply. -/
def Outcome.abandoned? {α : Type} (what : String) (overflow : Option String) :
    Outcome α → Option Diagnostic
  | done _ => none
  | failed missing => some (.abandoned what missing.message)
  | tooDeep => some (.abandoned what overflow)

/-- The events that a rule has written when it ends, its outcome, and the tokens it leaves. -/
structure Reply (ε α : Type) where
  events : List ε
  outcome : Outcome α
  rest : List Token
  deriving DecidableEq, Repr

def Rule (ε α : Type) := Stream → List Token → Reply ε α

variable {ε α β : Type}

/-- The reply with earlier events in front. -/
def Reply.after (events : List ε) (r : Reply ε α) : Reply ε α :=
  { r with events := events ++ r.events }

namespace Rule

/-- Reads nothing. -/
def value (a : α) : Rule ε α := fun _ ts => ⟨[], .done a, ts⟩

/-- Goes on with the rule that the value of the first one asks for. -/
def andThen (rule : Rule ε α) (next : α → Rule ε β) : Rule ε β := fun s ts =>
  let r := rule s ts
  match r.outcome with
  | .done a => (next a s r.rest).after r.events
  | .failed missing => ⟨r.events, .failed missing, r.rest⟩
  | .tooDeep => ⟨r.events, .tooDeep, r.rest⟩

instance : Monad (Rule ε) where
  pure := value
  bind := andThen

def emit (event : ε) : Rule ε Unit := fun _ ts => ⟨[event], .done (), ts⟩

def fail (missing : Expectation) : Rule ε α := fun _ ts => ⟨[], .failed missing, ts⟩

def tooDeep : Rule ε α := fun _ ts => ⟨[], .tooDeep, ts⟩

/-- Writes an event in the end if the rule overflows. -/
def onOverflow (rule : Rule ε α) (event : ε) : Rule ε α := fun s ts =>
  let r := rule s ts
  match r.outcome with
  | .tooDeep => { r with events := r.events ++ [event] }
  | _ => r

/-- Takes from the remaining tokens what a function of them takes. -/
def take (read : List Token → α × List Token) : Rule ε α :=
  fun _ ts => ⟨[], .done (read ts).1, (read ts).2⟩

/-- What a function says about the remaining tokens; takes none. -/
def look (view : List Token → α) : Rule ε α := fun _ ts => ⟨[], .done (view ts), ts⟩

/-- The kind of the next token, if there is one. -/
def nextKind : Rule ε (Option TokenKind) := look fun ts => ts.head?.map (·.kind)

/-- The current token; the one for the end of the text is read again and again. -/
def advance : Rule ε Token := fun s ts => ⟨[], .done (s.current ts), ts.tail⟩

/-- Takes a token of this kind if it comes next. -/
def accept (kind : TokenKind) : Rule ε Bool := fun _ ts =>
  match ts with
  | t :: rest => if t.kind = kind then ⟨[], .done true, rest⟩ else ⟨[], .done false, t :: rest⟩
  | [] => ⟨[], .done false, []⟩

def expect (kind : TokenKind) (missing : Expectation) : Rule ε Token := fun _ ts =>
  match ts with
  | t :: rest =>
    if t.kind = kind then ⟨[], .done t, rest⟩ else ⟨[], .failed missing, t :: rest⟩
  | [] => ⟨[], .failed missing, []⟩

/-- The diagnostic of an expectation that the current token does not meet. -/
def unmet (missing : Expectation) : Rule ε Diagnostic :=
  fun s ts => ⟨[], .done (missing.unmetAt (s.current ts)), ts⟩

/-- Takes line breaks and comments. -/
def skipBlankLines : Rule ε Unit := fun _ ts =>
  ⟨[], .done (), ts.dropWhile fun t => t.kind == .newline || t.kind == .comment⟩

def restOfLine (ts : List Token) : List Token × List Token := ts.span (·.kind != .newline)

/-- Takes what is left of the line. -/
def skipLine : Rule ε (List Token) := take restOfLine

/-- Repeats `step` as long as a token that is `ready` comes next and the last round took one. -/
def iterate (ready : Token → Bool) (step : α → Rule ε α) (a : α) : Rule ε α
  | _, [] => ⟨[], .done a, []⟩
  | s, t :: ts =>
    if ready t then
      let r := step a s (t :: ts)
      match r.outcome with
      | .done b =>
        if _h : r.rest.length < (t :: ts).length then
          (iterate ready step b s r.rest).after r.events
        else r
      | _ => r
    else ⟨[], .done a, t :: ts⟩
  termination_by _ ts => ts.length
  decreasing_by assumption

end Rule
end Mermaid
