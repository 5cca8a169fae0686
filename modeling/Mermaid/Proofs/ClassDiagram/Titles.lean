import Mermaid.Proofs.ClassDiagram.Composing
import Mermaid.Proofs.Text.Graphic
import Mermaid.Proofs.Token.Breaks

/-! The title of a class diagram is made of words that stand in one line of its text, so nothing in it breaks
lines. -/
namespace Mermaid.ClassDiagram
open Rule Text

/-- The title is words of the text, and none of them is a line break. -/
def Worded (tokens : List Token) (title : String) : Prop :=
  ∃ words ⊆ tokens, (∀ t ∈ words, t.kind ≠ .newline) ∧ title = joinWords (words.map (·.lexeme))

theorem Worded.unbroken {text title : String} (h : Worded (Stream.ofText text).tokens title) :
    Unbroken title.toList := by
  obtain ⟨words, hwords, hkinds, rfl⟩ := h
  intro d hd
  by_contra hbreak
  have hword : ∀ w ∈ words.map (·.lexeme), Lacks d w := by
    refine List.forall_mem_map.mpr fun t ht hmem => hbreak ?_
    exact Stream.unbroken_lexeme (hwords ht) (hkinds t ht) d hmem
  have hspace : Lacks d " " := fun hmem => hbreak (List.mem_singleton.mp hmem ▸ by decide)
  rw [joinWords, stripped, String.toList_ofList] at hd
  exact lacks_intercalate hspace hword (mem_of_mem_strip hd)

theorem title_apply (d : ClassDiagram) (e : Event) : (d.apply e).title = e.title?.or d.title := by
  cases e with
  | title _ => rfl
  | mention _ _ | declare _ _ | stereotype _ _ | member _ _ | relate _ | fault _ | recovered _ => rfl

/-- The title of a diagram is one that an event gave it. -/
theorem title_applyAll_eq_some {d : ClassDiagram} {events : List Event} {text : String}
    (h : (d.applyAll events).title = some text) : d.title = some text ∨ ∃ e ∈ events, e.title? = some text := by
  induction events generalizing d with
  | nil => exact .inl h
  | cons e events ih =>
    rcases ih h with hd | ⟨e', he', htext⟩
    · rw [title_apply, Option.or_eq_some_iff] at hd
      rcases hd with he | ⟨-, hd⟩
      · exact .inr ⟨e, List.mem_cons_self, he⟩
      · exact .inl hd
    · exact .inr ⟨e', List.mem_cons_of_mem e he', htext⟩

namespace Grammar
variable {s : Stream} {t : Token} {ts : List Token}

theorem title_events (s : Stream) (t : Token) (ts : List Token) : (title s (t :: ts)).events =
    [.title (joinWords (((ts.takeWhile (·.kind != .newline)).filter (·.kind != .comment)).map (·.lexeme)))] := by
  simp only [title, restText, skipLine, restOfLine, bind_run, advance_cons, take_run, Reply.follow_done,
    Reply.after_nil, List.span_eq_takeWhile_dropWhile]
  rfl

/-- A title is given in words of its own line. -/
theorem worded_title (hts : t :: ts <:+ s.tokens) :
    ∀ e ∈ (title s (t :: ts)).events, ∀ text ∈ e.title?, Worded s.tokens text := by
  rw [title_events]
  refine List.forall_mem_singleton.mpr fun text htext => ?_
  obtain rfl := Option.mem_some_iff.mp htext
  refine ⟨_, fun u hu => ?_, fun u hu => ?_, rfl⟩
  · have hline := (List.takeWhile_sublist _).subset (List.mem_of_mem_filter hu)
    exact hts.subset (List.mem_cons_of_mem t hline)
  · simpa using List.mem_takeWhile_imp (List.mem_of_mem_filter hu)

theorem worded_document :
    Obeys s (fun _ _ es _ => ∀ e ∈ es, ∀ text ∈ e.title?, Worded s.tokens text) document := by
  have hlaw := composes_forall fun e : Event => ∀ text ∈ e.title?, Worded s.tokens text
  have hsilent : ∀ e : Event, e.title? = none → ∀ text ∈ e.title?, Worded s.tokens text :=
    fun e he text htext => by
      rw [he] at htext
      cases htext
  exact obeys_document hlaw (fun _ _ hts _ => worded_title hts)
    ((hlaw.silent takes_declaration.toSteady (writes_declaration fun e he _ _ => hsilent e he)).at _)
    ((hlaw.silent takes_stereotype.toSteady (writes_stereotype fun e he _ _ => hsilent e he)).at _)
    ((hlaw.silent takes_relationOrReference.toSteady
      (writes_relationOrReference (fun e he _ _ => hsilent e he) fun _ => hsilent _ rfl)).at _)
    (fun _ => hsilent _ rfl) fun _ => hsilent _ rfl

end Grammar

/-- The title of the diagram of a text is words of the text. -/
theorem worded_parse {text title : String} (h : (parse text).title = some title) :
    Worded (Stream.ofText text).tokens title := by
  have hwords := Grammar.worded_document (Stream.ofText text).tokens (List.suffix_refl _)
  have htitle : (empty.applyAll (Grammar.document (.ofText text) (Stream.ofText text).tokens).events).title =
      some title := by
    rw [parse, ofStream, ofReply] at h
    split at h <;> exact h
  rcases title_applyAll_eq_some htitle with hnone | ⟨e, he, htext⟩
  · cases hnone
  · exact hwords e he title htext

end Mermaid.ClassDiagram
