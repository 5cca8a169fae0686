import Mermaid.Proofs.Flowchart.Progress

/-! The definition of a node behind its id: the opening delimiter of a shape, and a text up to the
delimiter that closes it. It stands on one line, and nothing behind it has a part in it. -/
namespace Mermaid.Flowchart
open Rule

/-- The tokens that define the shape of a node; there are none where it is mentioned only. -/
inductive Definition : List Token → Prop
  | none : Definition []
  | shape {opening : Token} {inner : List Token} {shape : NodeShape} {closer : Closer} {text : String}
      (hs : shape? opening.kind = some (shape, closer))
      (hline : ∀ t ∈ inner, t.kind ≠ .newline)
      (hread : ∀ more, NodeText.read closer (inner ++ more) = ((text, true), more)) :
      Definition (opening :: inner)

/-- A text that is closed is read whatever stands behind it. -/
private theorem pieces_closed {c : Closer} (last : Option TokenKind) {ts : List Token}
    (h : (NodeText.pieces c last ts).2.1 = true) : ∃ inner, (∀ t ∈ inner, t.kind ≠ .newline) ∧
      inner ++ (NodeText.pieces c last ts).2.2 = ts ∧
      ∀ more, NodeText.pieces c last (inner ++ more) =
        ((NodeText.pieces c last ts).1, true, more) := by
  induction ts generalizing last with
  | nil => cases h
  | cons t ts ih =>
    cases NodeText.turn c last t with
    | lineEnd _ run =>
      rw [run] at h
      cases h
    | closer hline _ run | longer hline _ _ run =>
      rw [run]
      exact ⟨[t], List.forall_mem_singleton.mpr hline, rfl, run⟩
    | pipe _ hpipe run =>
      rw [run] at h ⊢
      obtain ⟨inner, hinner, hts, hread⟩ := ih last h
      refine ⟨t :: inner, List.forall_mem_cons.mpr ⟨by simp [hpipe], hinner⟩, congrArg (t :: ·) hts,
        fun more => ?_⟩
      rw [List.cons_append, run, hread]
    | word hline _ _ _ run =>
      rw [run] at h ⊢
      obtain ⟨inner, hinner, hts, hread⟩ := ih (some t.kind) h
      refine ⟨t :: inner, List.forall_mem_cons.mpr ⟨hline, hinner⟩, congrArg (t :: ·) hts, fun more => ?_⟩
      rw [List.cons_append, run, hread]

theorem Definition.inLine {taken : List Token} (h : Definition taken) :
    ∀ t ∈ taken, t.kind ≠ .newline := by
  cases h with
  | none => exact List.forall_mem_nil _
  | shape hs hline _ =>
    refine List.forall_mem_cons.mpr ⟨fun ht => ?_, hline⟩
    rw [ht] at hs
    cases hs

/-- What is read of a node behind its id: a mention, if no shape opens there; its definition, if the text
of the shape is closed; and nothing, if it is not. -/
inductive NodeReads (id : Token) (ts : List Token) : Reply Event String → Prop
  | mention (h : (ts.head?.map (·.kind)).bind shape? = none) :
      NodeReads id ts ⟨[.mention id.lexeme id.position.line], .done id.lexeme, ts⟩
  | define {opening : Token} {inner rest : List Token} {shape : NodeShape} {closer : Closer}
      {text : String} (hts : ts = opening :: (inner ++ rest)) (hs : shape? opening.kind = some (shape, closer))
      (hline : ∀ t ∈ inner, t.kind ≠ .newline)
      (hread : ∀ more, NodeText.read closer (inner ++ more) = ((text, true), more)) :
      NodeReads id ts ⟨[.define id.lexeme text shape id.position.line], .done id.lexeme, rest⟩
  | unclosed {opening : Token} {us : List Token} {shape : NodeShape} {closer : Closer}
      (hts : ts = opening :: us) (hs : shape? opening.kind = some (shape, closer))
      (hclosed : (NodeText.read closer us).1.2 = false) :
      NodeReads id ts ⟨[], .failed (.shapeEnd closer.text), (NodeText.read closer us).2⟩

theorem Grammar.node_reads (s : Stream) (id : Token) (ts : List Token) :
    NodeReads id ts (node id s ts) := by
  rw [node, bind_run, nextKind_run, Reply.follow_done, Reply.after_nil]
  cases hs : (ts.head?.map (·.kind)).bind shape? with
  | none => exact .mention hs
  | some p =>
    obtain ⟨shape, c⟩ := p
    cases ts with
    | nil => cases hs
    | cons t ts =>
      have hshape : shape? t.kind = some (shape, c) := hs
      simp only [bind_run, advance_cons, take_run, Reply.follow_done, Reply.after_nil]
      cases hclosed : (NodeText.read c ts).1.2 with
      | false => exact .unclosed rfl hshape hclosed
      | true =>
        obtain ⟨inner, hinner, hts, hread⟩ := pieces_closed none hclosed
        refine .define (congrArg (t :: ·) hts.symm) hshape hinner fun more => ?_
        rw [NodeText.read, hread]
        rfl

/-- A node that is read has its definition right behind its id. -/
theorem Grammar.exists_definition {s : Stream} {id : Token} {ts rest : List Token} {es : List Event}
    {name : String} (h : node id s ts = ⟨es, .done name, rest⟩) :
    name = id.lexeme ∧ ∃ taken, Definition taken ∧ taken ++ rest = ts := by
  have hreads := node_reads s id ts
  rw [h] at hreads
  cases hreads with
  | mention _ => exact ⟨rfl, [], .none, rfl⟩
  | define hts hs hline hread => exact ⟨rfl, _, .shape hs hline hread, hts.symm⟩

end Mermaid.Flowchart
