import Mathlib.Data.Prod.Lex
import Mathlib.Data.List.Pairwise
import Mathlib.Order.Lattice
import Mermaid.Proofs.Token.Tiling

/-! The order of places in a text. The tokens of a text stand in it one behind the other, and the
current token never stands before one that was current earlier. -/
namespace Mermaid

namespace Position

private theorem lex_injective :
    Function.Injective fun p : Position => toLex (p.line, p.column) := by
  rintro ⟨line, column⟩ ⟨line', column'⟩ h
  obtain ⟨rfl, rfl⟩ := Prod.mk.inj (toLex.injective h)
  rfl

/-- Line by line, and by columns on one line. -/
instance : LinearOrder Position := .lift' (fun p => toLex (p.line, p.column)) lex_injective

theorem lt_iff (p q : Position) : p < q ↔ p.line < q.line ∨ p.line = q.line ∧ p.column < q.column :=
  Prod.Lex.toLex_lt_toLex

end Position

namespace Mark

theorem position_lt_past (m : Mark) {s : Slice} (h : s.span ≠ []) :
    m.position < (m.past s).position := by
  have hpos := List.length_pos_of_ne_nil h
  rw [Position.lt_iff, past]
  split
  · exact .inl (Int.lt_succ m.line)
  · right
    refine ⟨rfl, ?_⟩
    change (m.offset - m.lineStart + 1 : Int) < (m.offset + s.span.length : Nat) - m.lineStart + 1
    omega

/-- The places of the tokens that the slices spell, and the place behind them. -/
def positions (m : Mark) (slices : List Slice) : List Position :=
  (m.tokens slices).map (·.position) ++ [(slices.foldl past m).position]

theorem pairwise_positions (m : Mark) {slices : List Slice} (h : ∀ s ∈ slices, s.span ≠ []) :
    (m.positions slices).Pairwise (· < ·) ∧ ∀ p ∈ m.positions slices, m.position ≤ p := by
  induction slices generalizing m with
  | nil => simp [positions, tokens]
  | cons s slices ih =>
    rw [List.forall_mem_cons] at h
    obtain ⟨hordered, hlater⟩ := ih (m.past s) h.2
    have hpast := m.position_lt_past h.1
    have hcons : m.positions (s :: slices) =
        (m.token? s).toList.map (·.position) ++ (m.past s).positions slices := by
      simp [positions, tokens]
    rw [hcons, token?]
    cases s.token? with
    | none => exact ⟨hordered, fun p hp => hpast.le.trans (hlater p hp)⟩
    | some said =>
      refine ⟨List.pairwise_cons.mpr ⟨fun p hp => hpast.trans_le (hlater p hp), hordered⟩, ?_⟩
      exact List.forall_mem_cons.mpr ⟨le_refl _, fun p hp => hpast.le.trans (hlater p hp)⟩

end Mark

namespace Stream
variable {s : Stream} {ts us : List Token}

/-- The tokens stand one behind the other, and the end behind all of them. -/
def Ordered (s : Stream) : Prop := (s.toList.map (·.position)).Pairwise (· < ·)

private theorem span_ne_nil_ofText (text : List Char) : ∀ s ∈ Slice.ofText text, s.span ≠ [] := by
  intro s hs
  obtain ⟨_, htile⟩ := Slice.exists_tile_of_mem (Slice.tiles_ofText text).2 hs
  exact htile.span_ne_nil

theorem ordered_ofText (text : String) : (ofText text).Ordered := by
  have hpositions := (Mark.start.pairwise_positions (span_ne_nil_ofText text.toList)).1
  rw [Mark.positions] at hpositions
  rwa [Ordered, toList, List.map_append]

/-- The lines are counted from 1. -/
theorem one_le_line {text : String} {t : Token} (h : t ∈ (ofText text).tokens) : 1 ≤ t.position.line := by
  have hstart : Mark.start.position ≤ t.position :=
    (Mark.start.pairwise_positions (span_ne_nil_ofText text.toList)).2 _
      (List.mem_append_left _ (List.mem_map_of_mem h))
  rcases hstart.lt_or_eq with hlt | heq
  · rcases (Position.lt_iff _ _).mp hlt with hline | hline
    · exact hline.le
    · exact hline.1.le
  · exact (congrArg Position.line heq).le

theorem current_mem (h : ts <:+ s.tokens) : s.current ts ∈ s.toList := by
  cases ts with
  | nil => simp [current, toList]
  | cons t ts =>
    have ht : t ∈ s.tokens := h.subset List.mem_cons_self
    simp [current, toList, ht]

/-- What remains begins with the current token, and the rest of it stands behind. -/
private theorem current_le (hs : s.Ordered) (h : ts <:+ s.tokens) :
    ∀ t ∈ ts ++ [s.endToken], (s.current ts).position ≤ t.position := by
  have hremain : (ts ++ [s.endToken]).map (·.position) <:+ s.toList.map (·.position) := by
    obtain ⟨taken, htaken⟩ := h
    exact ⟨taken.map (·.position), by simp [toList, ← htaken]⟩
  have hordered := hs.sublist hremain.sublist
  cases ts with
  | nil => simp [current]
  | cons t ts =>
    rw [List.cons_append, List.map_cons, List.pairwise_cons] at hordered
    rw [List.cons_append, List.forall_mem_cons]
    exact ⟨le_refl _, fun u hu => (hordered.1 _ (List.mem_map_of_mem hu)).le⟩

/-- The current token moves on with the cursor. -/
theorem current_mono (hs : s.Ordered) (h : ts <:+ s.tokens) (hus : us <:+ ts) :
    (s.current ts).position ≤ (s.current us).position := by
  apply current_le hs h
  cases us with
  | nil => simp [current]
  | cons u us =>
    have hu : u ∈ ts := hus.subset List.mem_cons_self
    simp [current, hu]

end Stream
end Mermaid
