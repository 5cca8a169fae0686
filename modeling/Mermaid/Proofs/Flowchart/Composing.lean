import Mermaid.Proofs.Flowchart.Writing
import Mermaid.Proofs.Grammar.Composing

/-! Laws about flowchart texts. A law that composes is obeyed by a whole text if it is by the statements
that name nodes, and by subgraphs where the statements in them obey it. -/
namespace Mermaid.Flowchart.Grammar
open Rule
variable {s : Stream} {idle : Event → Prop} {P : Bool → List Token → List Event → List Token → Prop}

theorem obeys_classAssignment (hP : Composes idle P)
    (hassign : ∀ ids className line, idle (.assign ids className line)) :
    ObeysAt s P .classWord classAssignment :=
  (hP.silent takes_classAssignment.toSteady (writes_classAssignment hassign)).at _

/-- A law that subgraphs themselves have no part in is obeyed by them where the statements in them obey it. -/
theorem obeys_subgraph (hP : Composes idle P) (henter : ∀ head, idle (.enter head)) (hleave : idle .leave)
    (habandon : idle .abandon) (hrecovered : ∀ d, idle (.recovered d)) {inner : Option (Rule Event Unit)}
    (h : ∀ statement ∈ inner, Steady True statement ∧ Obeys s P statement) :
    ObeysAt s P .subgraph (subgraph inner) := by
  refine hP.bindAt takes_subgraphHead.toSteady
    ((hP.silent takes_subgraphHead.toSteady writes_subgraphHead).at _) fun head => ?_
  cases inner with
  | none => exact hP.silent (.tooDeep trivial) .tooDeep
  | some statement =>
    obtain ⟨hsteady, hobeys⟩ := h statement rfl
    have hblock := hP.block hrecovered hsteady hobeys (some .endSubgraph)
    exact hP.bind (.emit _) (hP.silent (.emit _) (.emit (henter _))) fun _ =>
      hP.bind (.onOverflow (.block hsteady _) _) (hP.onOverflow hblock habandon) fun _ =>
        hP.silent (.bind (.emit _) fun _ => .bind (.expect _ _) fun _ => .pure _)
          (.bind (.emit hleave) fun _ _ => .bind (.expect _ _) fun _ _ => .silent fun _ _ => rfl)

variable (hP : Composes idle P) (hstyle : ∀ style, idle (.style style))
  (hassign : ObeysAt s P .classWord classAssignment) (hnode : ObeysAt s P .identifier nodeOrEdge)
include hP hstyle hassign hnode

theorem obeys_statementOver {inner : Option (Rule Event Unit)}
    (hsubgraph : ObeysAt s P .subgraph (subgraph inner)) : Obeys s P (statementOver inner) := by
  rw [statementOver_eq]
  refine hP.pastBlank (hP.silent (.pure _) (.silent fun _ _ => rfl)) fun k => ?_
  by_cases hk : k = .identifier
  · subst hk
    exact hnode
  · by_cases hk' : k = .subgraph
    · subst hk'
      exact hsubgraph
    · by_cases hk'' : k = .classWord
      · subst hk''
        exact hassign
      · have hidle : Writes idle (fun _ => True) (statementFrom inner (some k)) :=
          writes_statementFrom (by simpa using hk') (fun h => absurd (Option.some.inj h) hk) hstyle
            (fun h => absurd (Option.some.inj h) hk'') inner
        exact (hP.silent (takes_statementFrom fun h => absurd h hk').toSteady hidle).at k

variable
  (hsubgraph : ∀ inner, (∀ statement ∈ inner, Steady True statement ∧ Obeys s P statement) →
    ObeysAt s P .subgraph (subgraph inner))
include hsubgraph

theorem obeys_statement (depth : Nat) : Obeys s P (statement depth) := by
  induction depth with
  | zero => exact obeys_statementOver hP hstyle hassign hnode (hsubgraph none nofun)
  | succ depth ih =>
    refine obeys_statementOver hP hstyle hassign hnode (hsubgraph _ fun r hr => ?_)
    cases hr
    exact ⟨(takes_statement depth).toSteady, ih⟩

theorem obeys_block (hrecovered : ∀ d, idle (.recovered d)) (depth : Nat) (stop : Option TokenKind) :
    Obeys s P (block (statement depth) stop) :=
  hP.block hrecovered (takes_statement depth).toSteady
    (obeys_statement hP hstyle hassign hnode hsubgraph depth) stop

theorem obeys_document (hrecovered : ∀ d, idle (.recovered d)) (horient : ∀ d, idle (.orient d))
    (hfault : ∀ d, idle (.fault d)) (depth : Nat) : Obeys s P (document depth) :=
  hP.bind steady_header (hP.silent steady_header (writes_header horient fun _ => hfault _)) fun _ =>
    obeys_block hP hstyle hassign hnode hsubgraph hrecovered depth none

end Mermaid.Flowchart.Grammar
