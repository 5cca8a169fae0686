import Mermaid.Proofs.ClassDiagram.Progress
import Mermaid.Proofs.Flowchart.Overflow
import Mermaid.Proofs.Flowchart.Progress
import Mermaid.Proofs.Token.Kinds

/-! Every text is parsed safely, as a flowchart and as a class diagram. -/
namespace Mermaid
open Rule

namespace Flowchart.Grammar

theorem parsesSafely (depth : Nat) {s : Stream} (heof : ∀ t ∈ s.tokens, t.kind ≠ .eof) :
    ParsesSafely Operation (fun r => ∃ depth, r = statement depth) (document depth) s :=
  .of_block (fun _ _ h => h.steady) (fun _ ⟨depth, h⟩ => h ▸ takes_statement depth) ⟨depth, rfl⟩
    sure_header heof

/-- Whenever a link is read, the token that it takes for its arrow is one. -/
theorem arrow?_isSome {s : Stream} {source target : String} {ts us : List Token}
    (h : Rounds (fun t => (arrow? t.kind).isSome) link s source ts target us) :
    ∃ t vs arrow, us = t :: vs ∧ arrow? t.kind = some arrow := by
  obtain ⟨t, vs, rfl, ht⟩ := h.exists_ready
  obtain ⟨arrow, harrow⟩ := Option.isSome_iff_exists.mp ht
  exact ⟨t, vs, arrow, rfl, harrow⟩

end Flowchart.Grammar

namespace ClassDiagram.Grammar

theorem parsesSafely {s : Stream} (heof : ∀ t ∈ s.tokens, t.kind ≠ .eof) :
    ParsesSafely Operation (· = statement) document s :=
  have hoperation : ∀ α r, Operation α r → Steady False r := fun _ _ h => h.steady
  .of_block hoperation (fun _ h => h ▸ takes_statement) rfl sure_header heof

/-- A class diagram is always read to its end. -/
theorem document_outcome {s : Stream} (heof : ∀ t ∈ s.tokens, t.kind ≠ .eof) :
    (document s s.tokens).outcome = .done () := by
  have hdeep : (document s s.tokens).outcome ≠ .tooDeep :=
    fun h => Operation.document.steady.overflow s s.tokens h
  have hfailed := (parsesSafely heof).handled
  cases ho : (document s s.tokens).outcome with
  | done _ => rfl
  | failed m => exact absurd ho (hfailed m)
  | tooDeep => exact absurd ho hdeep

/-- Only a hyphen that begins no member has no visibility. -/
theorem visibility_eq_none (t : Token) (ts : List Token) :
    MemberLine.visibility (t :: ts) = none ↔ t.kind = .minus ∧ wordNext ts = false := by
  rw [MemberLine.visibility]
  split
  · simp_all
  · simp_all
  · simp_all
  · rename_i hk
    cases hw : wordNext ts <;> simp [hk]
  · simp_all

end ClassDiagram.Grammar

/-- Every text is parsed safely: the cursor stays on the tokens and never goes back, statements are
entered only where they begin and take what they begin with, and the end is reached unless
subgraphs are nested too deeply. Whether they are shows where the text is read without a limit, and they
are not if no more tokens can open one than there may be open. The tables that a grammar asks for a
token's entry have one: the arrow of a link, and the visibility of a marker; the other tables are asked
and answered at once. -/
theorem parses_safely (text : String) :
    let s := Stream.ofText text
    let unlimited := Flowchart.Grammar.document s.tokens.length s s.tokens
    (∀ depth, ParsesSafely Flowchart.Grammar.Operation
      (fun r => ∃ inner, r = Flowchart.Grammar.statement inner)
      (Flowchart.Grammar.document depth) s) ∧
    unlimited.outcome = .done () ∧
    (∀ depth,
      let r := Flowchart.Grammar.document depth s s.tokens
      (¬ Flowchart.Exceeds depth unlimited.events →
        r.outcome = .done () ∧ s.index r.rest + 1 = s.toList.length) ∧
      (Flowchart.Exceeds depth unlimited.events → r.outcome = .tooDeep) ∧
      (s.tokens.countP (·.kind == .subgraph) ≤ depth → ¬ Flowchart.Exceeds depth unlimited.events)) ∧
    (∀ source target ts us,
      Rounds (fun t => (Flowchart.arrow? t.kind).isSome) Flowchart.Grammar.link s source ts target us →
        ∃ t vs arrow, us = t :: vs ∧ Flowchart.arrow? t.kind = some arrow) ∧
    ParsesSafely ClassDiagram.Grammar.Operation (· = ClassDiagram.Grammar.statement)
      ClassDiagram.Grammar.document s ∧
    (∀ t ts, ClassDiagram.MemberLine.visibility (t :: ts) = none ↔
      t.kind = .minus ∧ ClassDiagram.wordNext ts = false) ∧
    let r := ClassDiagram.Grammar.document s s.tokens
    r.outcome = .done () ∧ s.index r.rest + 1 = s.toList.length := by
  intro s unlimited
  have heof : ∀ t ∈ s.tokens, t.kind ≠ .eof := Stream.kind_ne_eof text
  have hsafe := fun depth => Flowchart.Grammar.parsesSafely depth heof
  have hexceeds := fun depth => Flowchart.Grammar.exceeds_iff depth s
  have hclass := ClassDiagram.Grammar.parsesSafely heof
  have hclassDone := ClassDiagram.Grammar.document_outcome heof
  refine ⟨hsafe, Flowchart.Grammar.document_outcome (Flowchart.Grammar.document_unlimited s),
    fun depth => ⟨fun hwithin => ?_, (hexceeds depth).mp, fun hheads => ?_⟩,
    fun _ _ _ _ => Flowchart.Grammar.arrow?_isSome, hclass, ClassDiagram.Grammar.visibility_eq_none,
    hclassDone, hclass.finished hclassDone⟩
  · have hdone := Flowchart.Grammar.document_outcome (mt (hexceeds depth).mpr hwithin)
    exact ⟨hdone, (hsafe depth).finished hdone⟩
  · exact mt (hexceeds depth).mp (Flowchart.Grammar.outcome_ne_tooDeep_of_heads hheads)

end Mermaid
