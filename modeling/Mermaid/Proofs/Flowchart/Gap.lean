import Mermaid.Proofs.Flowchart.Depth
import Mermaid.Proofs.Flowchart.Meaning

/-! Flowcharts that are well-formed but for the first line of one subgraph, and what is drawn where that
line opens nothing: what should be in the subgraph is drawn around it, and the end that should close it
closes the subgraph around it, and so on outwards. -/
namespace Mermaid.Flowchart

namespace Block

def append : Block → Block → Block
  | nil, b => b
  | line s rest, b => line s (rest.append b)
  | subgraph h body rest, b => subgraph h body (rest.append b)

theorem lines_append (spacing : Spacing) (a b : Block) :
    (a.append b).lines spacing = a.lines spacing ++ b.lines spacing := by
  induction a with
  | nil => rfl
  | line s rest ih => rw [append, lines, ih, lines, List.cons_append]
  | subgraph h body rest _ ih => rw [append, lines, ih, lines]; simp

theorem size_append (a b : Block) : (a.append b).size = a.size + b.size := by
  induction a with
  | nil => exact (Nat.zero_add _).symm
  | line s rest ih => rw [append, size, ih, size, Nat.add_assoc]
  | subgraph h body rest _ ih => rw [append, size, ih, size]; omega

theorem draw_append (a b : Block) (n : Int) (sc : Scope) :
    (a.append b).draw n sc = b.draw (n + a.size) (a.draw n sc) := by
  induction a generalizing n sc with
  | nil => simp [append, draw, size]
  | line s rest ih =>
    have hline : n + 1 + (rest.size : Int) = n + ((1 + rest.size : Nat) : Int) := by omega
    rw [append, draw, ih, draw, size, hline]
  | subgraph h body rest _ ih =>
    have hline : n + h.size + body.size + 1 + (rest.size : Int) =
        n + ((h.size + (body.size + (1 + rest.size)) : Nat) : Int) := by omega
    rw [append, draw, ih, draw, size, hline]

end Block

section drawn

/-- What is drawn in a scope, without what is reported. -/
def Scope.drawn (sc : Scope) : Flowchart := { sc.chart with diagnostics := [] }

def Scope.report (sc : Scope) (d : Diagnostic) : Scope := { sc with chart := sc.chart.report d }

variable {sc sc' : Scope} (hsc : sc.drawn = sc'.drawn) (n : Int)
include hsc

private theorem drawn_node (t : NodeTerm) : (sc.node n t).drawn = (sc'.node n t).drawn := by
  obtain ⟨id, body⟩ := t
  cases body with
  | none => exact congrArg (·.ensureNode id.text n) hsc
  | some definition =>
    exact congrArg (·.defineNode id.text definition.2.text definition.1 n) hsc

private theorem drawn_targets (source : String) (targets : List (Link × NodeTerm)) :
    (drawTargets n source targets sc).drawn = (drawTargets n source targets sc').drawn := by
  induction targets generalizing source sc sc' with
  | nil => exact hsc
  | cons target targets ih =>
    obtain ⟨l, t⟩ := target
    exact ih (congrArg (·.addEdge (l.edge source t.id.text)) (drawn_node hsc n t)) _

private theorem drawn_statement (st : Statement) : (st.draw n sc).drawn = (st.draw n sc').drawn := by
  cases st with
  | chain source targets => exact drawn_targets (drawn_node hsc n source) n _ targets
  | styleClass name => exact congrArg (·.addStyle { name := name.text }) hsc
  | assign first more className =>
    have hfold : ∀ sc : Scope, ((Statement.assign first more className).draw n sc).drawn =
        (first :: more).foldl (fun c id => (c.ensureNode id.text n).styleNode id.text className.text)
          sc.drawn := fun sc =>
      (List.foldl_hom (fun c : Flowchart => { c with diagnostics := [] }) fun _ _ => rfl).symm
    rw [hfold, hfold, hsc]

/-- What a block draws does not depend on where it stands, nor on what was reported before. -/
theorem Block.drawn_draw (b : Block) : (b.draw n sc).drawn = (b.draw n sc').drawn := by
  induction b generalizing n sc sc' with
  | nil => exact hsc
  | line st rest ih => exact ih (drawn_statement hsc n st) _
  | subgraph h body rest ihb ihr =>
    have hchart : ({ chart := sc.chart } : Scope).drawn = ({ chart := sc'.chart } : Scope).drawn := hsc
    rw [draw, draw]
    refine ihr ?_ _
    exact ihb hchart _

end drawn

section depth

private theorem level_event (n : Int) (t : NodeTerm) : (t.event n).nests = false := by
  rw [NodeTerm.event]
  cases t.body <;> rfl

private theorem level_targets (n : Int) (source : String) (targets : List (Link × NodeTerm)) :
    ∀ e ∈ targetEvents n source targets, e.nests = false := by
  induction targets generalizing source with
  | nil => exact List.forall_mem_nil _
  | cons target targets ih =>
    obtain ⟨l, t⟩ := target
    rw [targetEvents, List.forall_mem_cons, List.forall_mem_cons]
    exact ⟨level_event n t, rfl, ih _⟩

theorem Statement.level_events (n : Int) (st : Statement) : ∀ e ∈ st.events n, e.nests = false := by
  cases st with
  | chain source targets =>
    exact List.forall_mem_cons.mpr ⟨level_event n source, level_targets n _ targets⟩
  | styleClass _ | assign _ _ _ => exact List.forall_mem_singleton.mpr rfl

/-- A block opens as many subgraphs at a time as are nested in it. -/
theorem Block.shallow_events (b : Block) (n : Int) {depth : Nat} (hb : b.height ≤ depth) :
    Shallow depth false (b.events n) := by
  induction b generalizing n depth with
  | nil => exact .of_level (List.forall_mem_nil _)
  | line st rest ih => exact .append (.of_level (st.level_events n)) (ih _ hb)
  | subgraph h body rest ihb ihr =>
    obtain ⟨hbody, hrest⟩ := Nat.max_le.mp hb
    exact (ihb _ (Nat.le_refl _)).nest_append hbody (ihr _ hrest)

end depth

/-- Statements among which one subgraph has its first line and its end left open. It stands among the
others, or in a subgraph among them, behind whose end `behind` follows. -/
inductive Gap
  | here (before : Block) (direction : Option DirectionWord) (body : Block)
  | inside (before : Block) (h : Heading) (inner : Gap) (behind : Block)

namespace Gap

/-- How many lines the head takes whose first line is left open. -/
def headSize (direction : Option DirectionWord) : Nat := 1 + if direction.isSome then 1 else 0

/-- How many lines there are, with the one that is left open. -/
def size : Gap → Nat
  | here before direction body => before.size + (headSize direction + body.size)
  | inside before h inner behind => before.size + (h.size + (inner.size + (1 + behind.size)))

/-- How many lines stand before the one that is left open. -/
def place : Gap → Nat
  | here before _ _ => before.size
  | inside before h inner _ => before.size + (h.size + inner.place)

/-- How deep subgraphs are nested that have their first lines. -/
def height : Gap → Nat
  | here before _ body => max before.height body.height
  | inside before _ inner behind => max before.height (max (inner.height + 1) behind.height)

/-- The lines, with the one that is left open. Each `end` closes what it should, but for the last one,
which would have to follow. -/
def lines (spacing : Spacing) (first : Line) : Gap → List Line
  | here before direction body =>
    before.lines spacing ++ first :: ((direction.map directionLine).toList ++ body.lines spacing)
  | inside before h inner behind =>
    before.lines spacing ++ (h.lines spacing ++ (inner.lines spacing first ++
      endLine :: behind.lines spacing))

theorem fits_lines (spacing : Spacing) {first : Line} (hfirst : first.Fits '\n') (g : Gap) :
    ∀ l ∈ g.lines spacing first, l.Fits '\n' := by
  induction g with
  | here before direction body =>
    have hdirection : ∀ l ∈ (direction.map directionLine).toList, l.Fits '\n' := by
      intro l hl
      obtain ⟨d, -, rfl⟩ := Option.map_eq_some_iff.mp (Option.mem_toList.mp hl)
      exact ⟨Piece.stops_space _, Piece.stops_newline rfl, trivial⟩
    rw [lines, List.forall_mem_append, List.forall_mem_cons, List.forall_mem_append]
    exact ⟨before.fits_lines spacing, hfirst, hdirection, body.fits_lines spacing⟩
  | inside before h inner behind ih =>
    rw [lines, List.forall_mem_append, List.forall_mem_append, List.forall_mem_append,
      List.forall_mem_cons]
    exact ⟨before.fits_lines spacing, h.fits_lines spacing, ih, ⟨Piece.stops_newline rfl, trivial⟩,
      behind.fits_lines spacing⟩

/-- The text of a flowchart with this line. -/
def text (spacing : Spacing) (d : DirectionWord) (first : Line) (behind : Block) (g : Gap) : String :=
  textOf (headerLine d :: (g.lines spacing first ++ endLine :: behind.lines spacing))

/-- The block with an id and a title where they are left open. -/
def fill (id : Name) (title : Option Title) (behind : Block) : Gap → Block
  | here before direction body => before.append (.subgraph ⟨id, title, direction⟩ body behind)
  | inside before h inner more => before.append (.subgraph h (inner.fill id title more) behind)

theorem size_fill (id : Name) (title : Option Title) (behind : Block) (g : Gap) :
    (g.fill id title behind).size = g.size + (1 + behind.size) := by
  induction g generalizing behind with
  | here before direction body =>
    have hsize : (⟨id, title, direction⟩ : Heading).size = headSize direction := rfl
    rw [fill, Block.size_append, Block.size, hsize, size]
    omega
  | inside before h inner more ih =>
    rw [fill, Block.size_append, Block.size, ih, size]
    omega

/-- Filled in, the lines are those of a block. -/
theorem lines_fill (spacing : Spacing) (id : Name) (title : Option Title) (behind : Block) (g : Gap) :
    (g.fill id title behind).lines spacing =
      g.lines spacing ((⟨id, title, none⟩ : Heading).line spacing) ++
        endLine :: behind.lines spacing := by
  induction g generalizing behind with
  | here before direction body =>
    rw [fill, Block.lines_append, Block.lines, lines, Heading.lines]
    simp [Heading.line]
  | inside before h inner more ih =>
    rw [fill, Block.lines_append, Block.lines, ih, lines]
    simp

section draw
variable (fault : Int → Diagnostic)

/-- Draws what is drawn where the line opens no subgraph and is reported. -/
def draw (n : Int) (sc : Scope) : Gap → Scope
  | here before direction body =>
    body.draw (n + before.size + headSize direction)
      ((before.draw n sc).report (fault (n + before.size)))
  | inside before h inner behind =>
    let outer := before.draw n sc
    let drawn := inner.draw (n + before.size + h.size) { chart := outer.chart }
    behind.draw (n + before.size + h.size + inner.size + 1) { outer with
      chart := drawn.chart
      children := outer.children ++ [h.subgraph drawn.members drawn.children] }

/-- The chart of a text with such a line: the last end closes nothing. -/
def chart (d : DirectionWord) (behind : Block) (g : Gap) : Flowchart :=
  let drawn := behind.draw (2 + g.size + 1)
    (g.draw fault 2 { chart := { Flowchart.empty with direction := d.direction } })
  { drawn.chart with subgraphs := drawn.children }

def events (n : Int) : Gap → List Event
  | here before direction body =>
    before.events n ++ .recovered (fault (n + before.size)) ::
      body.events (n + before.size + headSize direction)
  | inside before h inner behind =>
    before.events n ++ .enter (h.subgraph [] []) ::
      (inner.events (n + before.size + h.size) ++
        .leave :: behind.events (n + before.size + h.size + inner.size + 1))

/-- The events draw what is drawn. -/
theorem applyAll_events (g : Gap) (n : Int) (sc : Scope) (p : Place) :
    (sc.draft p).applyAll (g.events fault n) = (g.draw fault n sc).draft p := by
  induction g generalizing n sc p with
  | here before direction body =>
    have hreport : ∀ (sc : Scope) (d : Diagnostic),
        (sc.draft p).apply (.recovered d) = (sc.report d).draft p := by
      intro sc d
      cases p <;> rfl
    rw [events, Draft.applyAll_append, before.applyAll_events, Draft.applyAll_cons, hreport,
      body.applyAll_events]
    rfl
  | inside before h inner behind ih =>
    rw [events, Draft.applyAll_append, before.applyAll_events, Draft.applyAll_cons, apply_enter,
      Draft.applyAll_append, ih, Draft.applyAll_cons, apply_leave, behind.applyAll_events]
    rfl

theorem draw_diagnostics (g : Gap) (n : Int) (sc : Scope) :
    (g.draw fault n sc).chart.diagnostics = sc.chart.diagnostics ++ [fault (n + g.place)] := by
  induction g generalizing n sc with
  | here before direction body =>
    rw [draw, Block.draw_diagnostics, place, ← before.draw_diagnostics n sc]
    rfl
  | inside before h inner behind ih =>
    have hline : n + before.size + h.size + (inner.place : Int) =
        n + ((before.size + (h.size + inner.place) : Nat) : Int) := by omega
    rw [draw, Block.draw_diagnostics, ih, Block.draw_diagnostics, place, hline]

theorem shallow_events (g : Gap) (n : Int) {depth : Nat} (hg : g.height ≤ depth) :
    Shallow depth false (g.events fault n) := by
  induction g generalizing n depth with
  | here before direction body =>
    obtain ⟨hbefore, hbody⟩ := Nat.max_le.mp hg
    have hreport : Shallow depth false [.recovered (fault (n + before.size))] :=
      .of_level (List.forall_mem_singleton.mpr rfl)
    exact (before.shallow_events n hbefore).append (hreport.append (body.shallow_events _ hbody))
  | inside before h inner behind ih =>
    obtain ⟨hbefore, hnested⟩ := Nat.max_le.mp hg
    obtain ⟨hinner, hbehind⟩ := Nat.max_le.mp hnested
    refine (before.shallow_events n hbefore).append ?_
    exact (ih _ (Nat.le_refl _)).nest_append hinner (behind.shallow_events _ hbehind)

/-- The same is drawn as where the line is filled in, but for what is in the subgraphs. -/
theorem drawn_draw (id : Name) (title : Option Title) (g : Gap) (behind : Block) {n : Int}
    {sc sc' : Scope} (hsc : sc.drawn = sc'.drawn) :
    (behind.draw (n + g.size + 1) (g.draw fault n sc)).drawn =
      ((g.fill id title behind).draw n sc').drawn := by
  induction g generalizing behind n sc sc' with
  | here before direction body =>
    have hline : n + ((before.size + (headSize direction + body.size) : Nat) : Int) + 1 =
        n + before.size + headSize direction + body.size + 1 := by omega
    have hbefore : (before.draw n sc).drawn = (before.draw n sc').drawn := before.drawn_draw hsc n
    rw [size, hline, draw, fill, Block.draw_append, Block.draw]
    have hreport : ((before.draw n sc).report (fault (n + before.size))).drawn =
        ({ chart := (before.draw n sc').chart } : Scope).drawn := hbefore
    refine behind.drawn_draw ?_ _
    exact body.drawn_draw hreport (n + before.size + headSize direction)
  | inside before h inner more ih =>
    have hline : n + ((before.size + (h.size + (inner.size + (1 + more.size))) : Nat) : Int) + 1 =
        n + before.size + h.size + (inner.fill id title more).size + 1 := by
      rw [size_fill]
      omega
    have hbefore : (before.draw n sc).drawn = (before.draw n sc').drawn := before.drawn_draw hsc n
    rw [size, hline, draw, fill, Block.draw_append, Block.draw]
    have houter : ({ chart := (before.draw n sc).chart } : Scope).drawn =
        ({ chart := (before.draw n sc').chart } : Scope).drawn := hbefore
    refine behind.drawn_draw ?_ _
    refine Eq.trans ?_ (ih more houter)
    refine more.drawn_draw ?_ _
    rfl

end draw
end Gap
end Mermaid.Flowchart
