import Mermaid.Grammar.Rule

/-!
Recovery from faulty statements. A fault costs its own line: the tokens up to the next line, or
up to a word that begins a statement, are passed over, and a diagnostic is kept.
-/
namespace Mermaid

/-- How a grammar recovers: the event that keeps a diagnostic, and the kinds of token at which
statements can begin in the midst of a line. -/
class Recovers (ε : Type) where
  recovered : Diagnostic → ε
  restarts : TokenKind → Bool

namespace Rule
variable {ε α : Type}

/-- The tokens from the next place on where a statement can begin, after the token `last`. -/
def resumption (restarts : TokenKind → Bool) (last : Option Token) : List Token → List Token
  | [] => []
  | t :: ts =>
    if last.any (·.kind == .newline) || restarts t.kind then t :: ts
    else resumption restarts (some t) ts

def synchronize [Recovers ε] : Rule ε Unit :=
  fun s ts => ⟨[], .done (), resumption (Recovers.restarts ε) (s.previous? ts) ts⟩

/-- Runs one statement; if it fails, keeps a diagnostic and goes on where the next can begin. -/
def guarded [Recovers ε] (statement : Rule ε Unit) : Rule ε Unit := fun s ts =>
  let r := statement s ts
  match r.outcome with
  | .failed missing =>
    let d := missing.unmetAt (s.current r.rest)
    (synchronize s r.rest).after (r.events ++ [Recovers.recovered d])
  | _ => r

/-- Takes a token if the remaining ones are as many as they were before. -/
def progressPast (before : Nat) : Rule ε Unit :=
  fun _ ts => ⟨[], .done (), if ts.length = before then ts.tail else ts⟩

/-- Runs guarded statements up to the end of the text or a token of the kind `stop`. -/
def block [Recovers ε] (statement : Rule ε Unit) (stop : Option TokenKind) : Rule ε Unit := do
  skipBlankLines
  iterate (fun t => some t.kind != stop) (fun _ => do
    let before ← look List.length
    guarded statement
    skipBlankLines
    progressPast before) ()

end Rule
end Mermaid
