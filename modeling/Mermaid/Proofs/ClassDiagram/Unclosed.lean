import Mermaid.Proofs.ClassDiagram.Body
import Mermaid.Proofs.ClassDiagram.Reporting

/-! Classes whose closing brace is missing. The body of such a class ends before the next declaration, or
with the text: there the brace is reported, and nothing is passed over. -/
namespace Mermaid.ClassDiagram
open Rule Grammar

/-- A class declared with the lines of its body. The line of its closing brace may have been left empty. -/
structure Declared where
  name : Name
  lines : List String
  inside : ∀ l ∈ lines, Inside l
  closed : Bool := true

namespace Declared

def head (d : Declared) : String := classHead d.name

def last (d : Declared) : String := if d.closed then "\x7d" else ""

/-- The lines on which the class is written. -/
def text (d : Declared) : List String := d.head :: (d.lines ++ [d.last])

def size (d : Declared) : Nat := d.lines.length + 2

theorem length_text (d : Declared) : d.text.length = d.size := by simp [text, size]

/-- The class with its closing brace. -/
def close (d : Declared) : Declared := { d with closed := true }

/-- The text of a class diagram that declares these classes. -/
def source (ds : List Declared) : String :=
  "classDiagram\n" ++ String.join ((ds.flatMap text).map (· ++ "\n"))

/-- The token that begins line `n`, if the classes are declared from there on. -/
def first (n : Nat) : List Declared → Token
  | [] => ⟨.eof, "", ⟨n, 1⟩⟩
  | _ :: _ => ⟨.classWord, "class", ⟨n, 1⟩⟩

/-- The tokens before which closing braces are missed, if the classes are declared from line `n` on. -/
def missedAt (n : Nat) : List Declared → List Token
  | [] => []
  | d :: ds => (if d.closed then [] else [first (n + d.size) ds]) ++ missedAt (n + d.size) ds

/-- What a class on the lines from `n` on writes, whether its brace is missing or not. -/
def events (n : Nat) (d : Declared) : List Event :=
  .declare d.name.text n :: bodyEvents d.name.text (n + 1) d.lines

/-- The fault of a class that the classes `ds` follow from line `n` on. -/
def fault (n : Nat) (ds : List Declared) (d : Declared) : List Event :=
  if d.closed then [] else [.recovered (Expectation.classEnd.unmetAt (first n ds))]

def eventsOf (n : Nat) : List Declared → List Event
  | [] => []
  | d :: ds => d.events n ++ d.fault (n + d.size) ds ++ eventsOf (n + d.size) ds

section tokens
variable (d : Declared) (n : Nat)

private theorem unbroken_last : Unbroken d.last.toList := by
  rw [last]
  split <;> decide

/-- No line of a class has a break in it. -/
private theorem unbroken_text : ∀ l ∈ d.text, Unbroken l.toList := by
  rw [text, List.forall_mem_cons, List.forall_mem_append, List.forall_mem_singleton]
  exact ⟨unbroken_classHead d.name, fun l hl => (d.inside l hl).1, d.unbroken_last⟩

private theorem tokens_last : ∃ brace close, brace.kind = .closeCurly ∧ close.kind = .newline ∧
    (Stream.ofTextFrom n (d.last ++ "\n")).tokens = if d.closed then [brace, close] else [close] := by
  rw [last]
  cases d.closed with
  | true => exact ⟨_, _, rfl, rfl, rfl⟩
  | false => exact ⟨⟨.closeCurly, "\x7d", ⟨n, 1⟩⟩, _, rfl, rfl, rfl⟩

end tokens

section run
variable {s : Stream} {ds : List Declared} {n : Nat}

/-- The tokens of the lines of classes, the first of them on line `n`. -/
private def tokens (n : Nat) (ds : List Declared) : List Token := Stream.lineTokens n (ds.flatMap text)

private theorem tokens_cons (d : Declared) (ds : List Declared) (n : Nat) : tokens n (d :: ds) =
    (Stream.ofTextFrom n (d.head ++ "\n")).tokens ++ (Stream.lineTokens (n + 1) d.lines ++
      ((Stream.ofTextFrom (n + 1 + d.lines.length : Nat) (d.last ++ "\n")).tokens ++
        tokens (n + d.size) ds)) := by
  rw [tokens, List.flatMap_cons, Stream.lineTokens_append, length_text, text, Stream.lineTokens,
    Stream.lineTokens_append, Stream.lineTokens, Stream.lineTokens]
  simp only [List.append_assoc, List.append_nil, tokens]

private theorem tokens_first (d : Declared) (ds : List Declared) (n : Nat) : ∃ t us,
    tokens n (d :: ds) = ⟨.classWord, "class", ⟨n, 1⟩⟩ :: t :: (us ++ tokens (n + d.size) ds) := by
  obtain ⟨us, last, hhead, hrow, -⟩ := tokens_classHead d.name n
  obtain ⟨_, _, hcons, -, -, hus⟩ := hrow.exists_cons
  obtain ⟨t, us, rfl, -⟩ := hus.exists_cons
  obtain rfl := (List.cons.inj hcons).2
  exact ⟨t, us ++ [last] ++ Stream.lineTokens (n + 1) d.lines ++
    (Stream.ofTextFrom (n + 1 + d.lines.length : Nat) (d.last ++ "\n")).tokens, by
      simp [tokens_cons, head, hhead]⟩

/-- The token `first` is the one at which the classes begin, if the stream ends where they end. -/
private def EndsAt (s : Stream) (n : Nat) (ds : List Declared) : Prop :=
  s.finish = ⟨(n + (ds.flatMap text).length : Nat), 1⟩

private theorem current_tokens (h : EndsAt s n ds) : s.current (tokens n ds) = first n ds := by
  cases ds with
  | nil =>
    have hfinish : s.finish = ⟨n, 1⟩ := h
    simp [tokens, Stream.current, Stream.lineTokens, Stream.endToken, hfinish, first]
  | cons d ds =>
    obtain ⟨t, us, htokens⟩ := tokens_first d ds n
    rw [htokens]
    rfl

/-- A body that reaches the next class, or the end of the text, ends there. -/
private theorem endsBody_tokens (ds : List Declared) (n : Nat) :
    ∀ t ∈ (tokens n ds).head?, t.kind = .classWord := by
  cases ds with
  | nil => simp [tokens, Stream.lineTokens]
  | cons d ds =>
    obtain ⟨t, us, htokens⟩ := tokens_first d ds n
    simp [htokens]

/-- Recovery goes on at once where the text ends or a class is declared. -/
private theorem resumption_tokens (last : Option Token) (ds : List Declared) (n : Nat) :
    resumption (Recovers.restarts Event) last (tokens n ds) = tokens n ds := by
  cases hts : tokens n ds with
  | nil => rfl
  | cons t ts =>
    have ht := endsBody_tokens ds n t (by rw [hts]; rfl)
    simp [resumption, Recovers.restarts, ht]

/-- A class is read up to the line break behind its brace, or up to where its brace is missed. -/
private theorem declaration_run (d : Declared) (ds : List Declared) (n : Nat) (s : Stream) : ∃ close,
    close.kind = .newline ∧ declaration s (tokens n (d :: ds)) =
      if d.closed then ⟨d.events n, .done (), close :: tokens (n + d.size) ds⟩
      else ⟨d.events n, .failed .classEnd, tokens (n + d.size) ds⟩ := by
  obtain ⟨us, lineEnd, hhead, hrow, hlineEnd⟩ := tokens_classHead d.name n
  obtain ⟨brace, close, hbrace, hclose, hlast⟩ := d.tokens_last (n + 1 + d.lines.length)
  refine ⟨close, hclose, ?_⟩
  rw [tokens_cons, head, hhead, ← List.cons_append, List.append_assoc, opened_run hrow, List.singleton_append,
    body_separates (by simp [separates, hlineEnd]), body_lines d.inside, hlast]
  cases d.closed with
  | true =>
    have hstop : body d.name.text s (brace :: close :: tokens (n + d.size) ds) = ⟨[], .done (), _⟩ :=
      body_stop (by simp [endsBody, hbrace])
    simp [hstop, expect_cons hbrace, events]
  | false =>
    have hmore := endsBody_tokens ds (n + d.size)
    have hne : (tokens (n + d.size) ds).head?.map (·.kind) ≠ some .closeCurly := by
      intro h
      obtain ⟨t, ht, hk⟩ := Option.map_eq_some_iff.mp h
      exact absurd (hk.symm.trans (hmore t ht)) (by decide)
    have hstop : body d.name.text s (close :: tokens (n + d.size) ds) = ⟨[], .done (), _⟩ :=
      (body_separates (by simp [separates, hclose]) _).trans
        (body_stop fun t ht => by simp [endsBody, hmore t ht])
    simp [hstop, expect_of_ne hne, events]

/-- A class is read to its end, and its fault costs no token. -/
private theorem guarded_run (d : Declared) (h : EndsAt s (n + d.size) ds) : ∃ t us left,
    tokens n (d :: ds) = t :: us ∧ separates t = false ∧ left.length ≤ us.length ∧
    left.dropWhile separates = tokens (n + d.size) ds ∧
    guarded statement s (t :: us) = ⟨d.events n ++ d.fault (n + d.size) ds, .done (), left⟩ := by
  obtain ⟨close, hclose, hrun⟩ := declaration_run d ds n s
  have hblank : (tokens (n + d.size) ds).dropWhile separates = tokens (n + d.size) ds :=
    dropWhile_separates fun t ht => by simp [separates, endsBody_tokens ds _ t ht]
  obtain ⟨t, us, htokens, ht, hlength⟩ : ∃ t us, tokens n (d :: ds) = t :: us ∧ t.kind = .classWord ∧
      (tokens (n + d.size) ds).length < us.length := by
    obtain ⟨t, us, htokens⟩ := tokens_first d ds n
    refine ⟨_, _, htokens, rfl, ?_⟩
    rw [List.length_cons, List.length_append]
    omega
  rw [htokens, ← statement_class ht] at hrun
  rw [fault]
  cases hclosed : d.closed with
  | true =>
    rw [hclosed, if_pos rfl] at hrun
    exact ⟨t, us, close :: tokens (n + d.size) ds, htokens, by simp [separates, ht], hlength,
      by rw [dropWhile_close hclose, hblank], by rw [guarded_of_done hrun, if_pos rfl, List.append_nil]⟩
  | false =>
    rw [hclosed, if_neg Bool.false_ne_true] at hrun
    exact ⟨t, us, _, htokens, by simp [separates, ht], hlength.le, hblank,
      by rw [guarded_fault hrun, current_tokens h, resumption_tokens, if_neg Bool.false_ne_true]; rfl⟩

private theorem block_tokens (h : EndsAt s n ds) :
    block statement none s (tokens n ds) = ⟨eventsOf n ds, .done (), []⟩ := by
  induction ds generalizing n with
  | nil => exact block_of_head (by simp [tokens, Stream.lineTokens]) (by simp [tokens, Stream.lineTokens])
  | cons d ds ih =>
    have hnext : EndsAt s (n + d.size) ds := by
      rw [EndsAt, h, List.flatMap_cons, List.length_append, length_text, Nat.add_assoc]
    obtain ⟨t, us, left, htokens, ht, hlength, hleft, hrun⟩ := guarded_run d hnext
    rw [htokens, block_cons ht (by simp) hrun hlength, ← block_dropWhile, hleft, ih hnext]
    rfl

/-- The text is read class by class, to its end. -/
private theorem document_source (ds : List Declared) :
    let s := Stream.ofText (source ds)
    document s s.tokens = ⟨eventsOf 2 ds, .done (), []⟩ ∧ EndsAt s 2 ds ∧
      tokens 2 ds <:+ s.tokens := by
  intro s
  have hunbroken : ∀ l ∈ ds.flatMap text, Unbroken l.toList := by
    intro l hl
    obtain ⟨d, -, hl⟩ := List.mem_flatMap.mp hl
    exact d.unbroken_text l hl
  have hends : EndsAt s 2 ds := by
    have hlines : ∀ l ∈ "classDiagram" :: ds.flatMap text, Unbroken l.toList :=
      List.forall_mem_cons.mpr ⟨by decide, hunbroken⟩
    have hfinish := Stream.finish_lines hlines 1
    rw [List.map_cons, String.join_cons, List.length_cons] at hfinish
    refine hfinish.trans ?_
    simp only [Position.mk.injEq, and_true]
    omega
  obtain ⟨hsuffix, hdocument⟩ := document_below hunbroken
  exact ⟨hdocument.trans (block_tokens hends), hends, hsuffix⟩

end run

section diagrams

private theorem diagnostic?_events (n : Nat) (d : Declared) :
    (d.events n).filterMap Event.diagnostic? = [] := by
  have hbody : ∀ n, ∀ e ∈ bodyEvents d.name.text n d.lines, e.diagnostic? = none := by
    induction d.lines with
    | nil => simp [bodyEvents]
    | cons l lines ih =>
      intro n e he
      rcases List.mem_append.mp he with he | he
      · have hwrites : Writes (fun e => e.diagnostic? = none) (fun _ => True) (body d.name.text) :=
          writes_body (fun _ _ => rfl) (fun _ _ => rfl) _
        exact hwrites.events _ _ e he
      · exact ih (n + 1) e he
  rw [List.filterMap_eq_nil_iff]
  exact List.forall_mem_cons.mpr ⟨rfl, hbody (n + 1)⟩

/-- The faults do nothing to a diagram but add their diagnostics. -/
private theorem applyAll_eventsOf (g : ClassDiagram) (ds : List Declared) (n : Nat) :
    g.applyAll (eventsOf n ds) = { g.applyAll (eventsOf n (ds.map close)) with
      diagnostics := g.diagnostics ++ (missedAt n ds).map Expectation.classEnd.unmetAt } := by
  induction ds generalizing g n with
  | nil => simp [eventsOf, missedAt, applyAll]
  | cons d ds ih =>
    let drawn := g.applyAll (d.events n)
    let fault := (if d.closed then [] else [first (n + d.size) ds]).map Expectation.classEnd.unmetAt
    have hdrawn : drawn.diagnostics = g.diagnostics := by
      rw [diagnostics_applyAll, diagnostic?_events, List.append_nil]
    have hfault : drawn.applyAll (d.fault (n + d.size) ds) =
        { drawn with diagnostics := g.diagnostics ++ fault } := by
      simp only [Declared.fault, fault]
      split
      · simp [applyAll, ← hdrawn]
      · simp [applyAll, apply, report, hdrawn]
    have hclosed : eventsOf n ((d :: ds).map close) =
        d.events n ++ eventsOf (n + d.size) (ds.map close) := by
      simp [eventsOf, Declared.fault, close, events, size]
    rw [eventsOf, applyAll_append, applyAll_append, hfault, ih, applyAll_withDiagnostics, hclosed,
      applyAll_append, missedAt, List.map_append, ← List.append_assoc]

/-- A diagram of such classes is what they write. -/
theorem parse_eq_applyAll (ds : List Declared) : parse (source ds) = empty.applyAll (eventsOf 2 ds) := by
  obtain ⟨hdocument, -⟩ := document_source ds
  rw [parse, ofStream, hdocument, ofReply_of_done rfl]

private theorem parse_source (ds : List Declared) : parse (source ds) = { parse (source (ds.map close)) with
    diagnostics := (missedAt 2 ds).map Expectation.classEnd.unmetAt } := by
  rw [parse_eq_applyAll, parse_eq_applyAll, applyAll_eventsOf]
  rfl

end diagrams

/-- The tokens before which braces are missed are behind the first of their lines. -/
private theorem missedAt_sublist (ds : List Declared) (n : Nat) (final : Token)
    (h : final = first (n + (ds.flatMap text).length) []) :
    List.Sublist (missedAt n ds) (tokens n ds ++ [final]).tail := by
  induction ds generalizing n with
  | nil => exact List.nil_sublist _
  | cons d ds ih =>
    have hfinal : final = first (n + d.size + (ds.flatMap text).length) [] := by
      rw [h, List.flatMap_cons, List.length_append, length_text, Nat.add_assoc]
    have hnext : tokens (n + d.size) ds ++ [final] =
        first (n + d.size) ds :: (tokens (n + d.size) ds ++ [final]).tail := by
      cases ds with
      | nil => simpa [tokens, Stream.lineTokens] using hfinal
      | cons e ds =>
        obtain ⟨t, us, htokens⟩ := tokens_first e ds (n + d.size)
        rw [htokens]
        rfl
    have hmissed : List.Sublist (missedAt n (d :: ds)) (tokens (n + d.size) ds ++ [final]) := by
      rw [hnext, missedAt]
      split
      · exact (ih _ hfinal).cons _
      · exact (ih _ hfinal).cons_cons _
    obtain ⟨t, us, htokens⟩ := tokens_first d ds n
    rw [htokens, List.cons_append, List.tail_cons, ← List.cons_append, List.append_assoc]
    exact hmissed.trans (List.sublist_append_right _ _)

/-- A missing brace costs one error and nothing else: the diagram is that of the same text with all the
braces, but for a diagnostic at the word that declares the next class, or at the end of the text, for
each brace that is missing. -/
theorem missing_braces (ds : List Declared) :
    parse (source ds) = { parse (source (ds.map close)) with
      diagnostics := (missedAt 2 ds).map Expectation.classEnd.unmetAt } ∧
    (parse (source (ds.map close))).diagnostics = [] ∧
    List.Sublist (missedAt 2 ds) (scan (source ds)) := by
  have hclose : ∀ n, missedAt n (ds.map close) = [] := by
    induction ds with
    | nil => exact fun _ => rfl
    | cons d ds ih => exact fun n => ih _
  refine ⟨parse_source ds, ?_, ?_⟩
  · rw [parse_source, hclose]
    rfl
  · obtain ⟨-, hends, us, htokens⟩ := document_source ds
    have hscan : scan (source ds) = us ++ (tokens 2 ds ++ [first (2 + (ds.flatMap text).length) []]) := by
      rw [scan, Stream.toList, ← htokens, List.append_assoc, Stream.endToken, hends]
      rfl
    rw [hscan]
    exact (missedAt_sublist ds 2 _ rfl).trans
      ((List.tail_sublist _).trans (List.sublist_append_right _ _))

example : parse "classDiagram\nclass A \x7b\n+String name\n\nclass B \x7b\n+run()\n\n" =
    let unclosed : Position → Diagnostic := (⟨"Expected '\x7d'", ·⟩)
    { parse "classDiagram\nclass A \x7b\n+String name\n\x7d\nclass B \x7b\n+run()\n\x7d\n" with
      diagnostics := [unclosed ⟨5, 1⟩, unclosed ⟨8, 1⟩] } := by
  decide +kernel

/-- A class with well-formed lines. -/
def written (spacing : Spacing) (name : Name) (body : List BodyLine) (closed : Bool) : Declared where
  name := name
  lines := body.map fun line => String.ofList (line.text.line spacing false).chars
  inside l hl := by
    obtain ⟨line, -, rfl⟩ := List.mem_map.mp hl
    exact line.inside spacing
  closed := closed

/-- Such classes are written as the statements that define them. -/
theorem source_written (spacing : Spacing) (cs : List (Name × List BodyLine)) :
    source (cs.map fun (name, body) => written spacing name body true) =
      render spacing (cs.map fun (name, body) => .define name body) := by
  have hlines : ∀ (name : Name) (body : List BodyLine), (written spacing name body true).text =
      ((Statement.define name body).lines spacing).map fun l => String.ofList l.chars := by
    intro name body
    have hhead : (written spacing name body true).head =
        String.ofList (declareLine name ++ [⟨true, .sign .openCurly⟩] : Line).chars :=
      String.toList_injective ((toList_classHead _).trans String.toList_ofList.symm)
    rw [text, hhead, Statement.lines, List.map_cons, List.map_append, List.map_map]
    rfl
  apply String.toList_injective
  simp only [source, render, textOf, String.toList_append, String.toList_join, String.toList_ofList,
    List.flatMap_map, List.flatMap_cons, List.flatMap_assoc, hlines]
  rfl

end Declared
end Mermaid.ClassDiagram
