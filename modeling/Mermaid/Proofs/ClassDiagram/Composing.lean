import Mermaid.Proofs.ClassDiagram.Progress
import Mermaid.Proofs.ClassDiagram.Writing
import Mermaid.Proofs.Grammar.Composing

/-! Laws about texts of class diagrams. A law that composes is obeyed by a whole text if it is by each of the
four statements, from its first token on. -/
namespace Mermaid.ClassDiagram.Grammar
open Rule
variable {s : Stream} {idle : Event → Prop} {P : Bool → List Token → List Event → List Token → Prop}
  (hP : Composes idle P) (htitle : ObeysAt s P .title title)
  (hdeclaration : ObeysAt s P .classWord declaration)
  (hstereotype : ObeysAt s P .openGuillemet stereotype)
  (hrelation : ObeysAt s P .identifier relationOrReference)
include hP htitle hdeclaration hstereotype hrelation

theorem obeys_statement : Obeys s P statement := by
  refine hP.pastBlank (hP.silent (.pure _) (.silent fun _ _ => rfl)) fun k => ?_
  split
  · contradiction
  · rename_i hk
    obtain rfl := Option.some.inj hk
    exact htitle
  · rename_i hk
    obtain rfl := Option.some.inj hk
    exact hdeclaration
  · rename_i hk
    obtain rfl := Option.some.inj hk
    exact hstereotype
  · rename_i hk
    obtain rfl := Option.some.inj hk
    exact hrelation
  · exact (hP.silent (.bind .advance fun _ => .pure _)
      (.bind .advance fun _ _ => .silent fun _ _ => rfl)).at _

theorem obeys_document (hfault : ∀ d, idle (.fault d)) (hrecovered : ∀ d, idle (.recovered d)) :
    Obeys s P document :=
  hP.bind steady_header (hP.silent steady_header (writes_header hfault)) fun _ =>
    hP.block hrecovered takes_statement.toSteady
      (obeys_statement hP htitle hdeclaration hstereotype hrelation) none

end Mermaid.ClassDiagram.Grammar
