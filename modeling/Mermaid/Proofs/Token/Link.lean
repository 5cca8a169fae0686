import Mermaid.Proofs.Token.Leading

/-! The spellings of links. A pattern denotes a set of texts, its matches where nothing in the
text behind can tell otherwise; a link spelled in full and followed by a space is read as such. -/
namespace Mermaid
open Lexicon

namespace Pattern

/-- The texts that a pattern describes, whatever stands behind them. -/
def Spells : Pattern → List Char → Prop
  | text chars, g => g = chars
  | run c least, g => ∃ n, g = List.replicate (n + least) c
  | ahead _, g | notAhead _, g => g = []
  | seq p q, g => ∃ a b, p.Spells a ∧ q.Spells b ∧ g = a ++ b
  | either p q, g => p.Spells g ∨ q.Spells g

theorem spells_orElse (p q : Pattern) (g : List Char) :
    (p <|> q).Spells g ↔ p.Spells g ∨ q.Spells g := Iff.rfl

theorem length?_append (p q : Pattern) (s : List Char) :
    (p ++ q).length? s = (p.length? s).bind fun n => (q.length? (s.drop n)).map (n + ·) := by
  change (seq p q).length? s = _
  rw [length?]
  cases p.length? s with
  | none => rfl
  | some n => cases hq : q.length? (s.drop n) <;> simp [bind, hq]

theorem length?_orElse (p q : Pattern) (s : List Char) :
    (p <|> q).length? s = (p.length? s).or (q.length? s) := rfl

/-- Whether a match of the pattern can begin with this character. -/
def starts (c : Char) : Pattern → Bool
  | text chars => chars.head?.all (· == c)
  | run d least => least == 0 || d == c
  | ahead _ | notAhead _ => true
  | seq p _ => p.starts c
  | either p q => p.starts c || q.starts c

theorem starts_append (c : Char) (p q : Pattern) : (p ++ q).starts c = p.starts c := rfl

theorem length?_of_not_starts {c : Char} {p : Pattern} (h : p.starts c = false) (s : List Char) :
    p.length? (c :: s) = none := by
  induction p with
  | text chars => cases chars <;> simp_all [starts, length?]
  | run d least =>
    have hd : (c == d) = false := by
      simp only [starts, Bool.or_eq_false_iff, beq_eq_false_iff_ne] at h ⊢
      exact h.2.symm
    simp_all [starts, length?]
  | ahead | notAhead => simp [starts] at h
  | seq p q ihp => rw [length?, ihp h]; rfl
  | either p q ihp ihq =>
    simp only [starts, Bool.or_eq_false_iff] at h
    rw [length?, ihp h.1, ihq h.2, Option.or_none]

end Pattern

namespace Lexicon
open Pattern

/-- Only the links that can begin with the first character count. -/
theorem link?_cons (c : Char) (s : List Char) : link? (c :: s) =
    (links.filter (·.1.starts c)).findSome? fun (p, kind) => (p.length? (c :: s)).map (·, kind) := by
  rw [link?]
  induction links with
  | nil => rfl
  | cons e l ih =>
    cases he : e.1.starts c with
    | false => simp [he, length?_of_not_starts he, ih]
    | true => simp only [List.findSome?_cons, List.filter_cons, he, if_true, ih]

/-- What the links of one first character make of a text that begins with it. -/
private def among (table : List (Pattern × TokenKind)) (s : List Char) : Option (Nat × TokenKind) :=
  table.findSome? fun (p, kind) => (p.length? s).map (·, kind)

private theorem link?_less (s : List Char) : link? ('<' :: s) = among (links.take 4) ('<' :: s) :=
  link?_cons '<' s

private theorem link?_dot (s : List Char) :
    link? ('.' :: s) = among ((links.drop 4).take 3) ('.' :: s) := link?_cons '.' s

private theorem link?_asterisk (s : List Char) :
    link? ('*' :: s) = among ((links.drop 7).take 1) ('*' :: s) := link?_cons '*' s

private theorem link?_o (s : List Char) :
    link? ('o' :: s) = among ((links.drop 8).take 1) ('o' :: s) := link?_cons 'o' s

private theorem link?_hyphen (s : List Char) :
    link? ('-' :: s) = among ((links.drop 9).take 12) ('-' :: s) := link?_cons '-' s

private theorem link?_equals (s : List Char) :
    link? ('=' :: s) = among ((links.drop 21).take 2) ('=' :: s) := link?_cons '=' s

private theorem link?_tilde (s : List Char) :
    link? ('~' :: s) = among ((links.drop 23).take 1) ('~' :: s) := link?_cons '~' s

/-- Whether a text begins with two characters that a link can begin with. -/
def opensLink : List Char → Bool
  | a :: b :: _ => a ∈ ['<', '.', '*', 'o', '-', '=', '~'] && b ∈ ['|', '.', '-', '=', '~']
  | _ => false

private theorem filter_starts {a : Char} (ha : a ∉ ['<', '.', '*', 'o', '-', '=', '~']) :
    links.filter (·.1.starts a) = [] := by
  simp only [List.mem_cons, List.not_mem_nil, or_false, not_or] at ha
  obtain ⟨h1, h2, h3, h4, h5, h6, h7⟩ := ha
  rw [List.filter_eq_nil_iff]
  simp [links, dashes, dots, dotted, letter, diamond, starts_append, starts, Ne.symm h1,
    Ne.symm h2, Ne.symm h3, Ne.symm h4, Ne.symm h5, Ne.symm h6, Ne.symm h7]

/-- A word character begins a link only as the letter `o` before two hyphens. -/
theorem link?_of_isWord {c : Char} (hc : Text.isWord c) {s : List Char}
    (hs : ∀ r, s ≠ '-' :: '-' :: r) : link? (c :: s) = none := by
  by_cases ho : c = 'o'
  · subst ho
    have hrun : (run '-' 2).length? s = none := by
      rcases s with _ | ⟨a, _ | ⟨b, s⟩⟩
      · rfl
      · by_cases ha : a = '-' <;> simp [length?, ha]
      · by_cases ha : a = '-'
        · have hb : b ≠ '-' := fun hb => hs s (by rw [ha, hb])
          simp [length?, ha, hb]
        · simp [length?, ha]
    have ht : (text ['o']).length? ('o' :: s) = some 1 := rfl
    simp [link?_o, among, links, diamond, dashes, length?_append, ht, hrun]
  · have ha : c ∉ ['<', '.', '*', 'o', '-', '=', '~'] := by
      simp only [List.mem_cons, List.not_mem_nil, or_false, not_or]
      refine ⟨?_, ?_, ?_, ho, ?_, ?_, ?_⟩
      all_goals
        rintro rfl
        exact absurd hc (by decide)
    rw [link?_cons, filter_starts ha]
    rfl

theorem link?_none {s : List Char} (h : opensLink s = false) : link? s = none := by
  match s with
  | [] => rfl
  | a :: s =>
    by_cases ha : a ∈ ['<', '.', '*', 'o', '-', '=', '~']
    · have hb : ∀ b ∈ s.head?, b ≠ '|' ∧ b ≠ '.' ∧ b ≠ '-' ∧ b ≠ '=' ∧ b ≠ '~' := by
        cases s <;> simp_all [opensLink]
      simp only [List.mem_cons, List.not_mem_nil, or_false] at ha
      rcases ha with rfl | rfl | rfl | rfl | rfl | rfl | rfl
      all_goals
        rcases s with _ | ⟨b, s⟩
        · simp [link?_less, link?_dot, link?_asterisk, link?_o, link?_hyphen, link?_equals,
            link?_tilde, among, links, dashes, dots, dotted, letter, diamond, length?,
            length?_append, length?_orElse]
        · obtain ⟨h1, h2, h3, h4, h5⟩ := hb b rfl
          simp [link?_less, link?_dot, link?_asterisk, link?_o, link?_hyphen, link?_equals,
            link?_tilde, among, links, dashes, dots, dotted, letter, diamond, length?,
            length?_append, length?_orElse, h2, h3, h4, h5, h1.symm, h3.symm]
    · rw [link?_cons, filter_starts ha]
      rfl

/-- Whether a link is read back as it is spelled, where a space follows it. -/
private def ReadsBack (e : Pattern × TokenKind) : Prop :=
  ∀ g, e.1.Spells g → ∀ rest, link? (g ++ ' ' :: rest) = some (g.length, e.2)

/-- The pattern takes exactly `a` where `s` follows. -/
private def Takes (p : Pattern) (a s : List Char) : Prop := p.length? (a ++ s) = some a.length

private theorem takes_text (a s : List Char) : Takes (text a) a s := by
  simp [Takes, length?]

private theorem takes_run {c d : Char} (h : (d == c) = false) {k n : Nat} (hk : k ≤ n)
    (s : List Char) : Takes (run c k) (List.replicate n c) (d :: s) := by
  have ht : (List.replicate n c ++ d :: s).takeWhile (· == c) = List.replicate n c := by
    rw [List.takeWhile_append_of_pos (by simp), List.takeWhile_cons, h]
    simp
  simp [Takes, length?, ht, hk]

private theorem takes_append {p q : Pattern} {a b s : List Char} (hp : Takes p a (b ++ s))
    (hq : Takes q b s) : Takes (p ++ q) (a ++ b) s := by
  rw [Takes, length?_append, List.append_assoc, hp, Option.bind_some, List.drop_left, hq,
    Option.map_some, List.length_append]

section among
variable {p : Pattern} {s : List Char}

private theorem among_append (l m : List (Pattern × TokenKind)) (s : List Char) :
    among (l ++ m) s = (among l s).or (among m s) := List.findSome?_append

private theorem among_cons {n : Nat} (h : p.length? s = some n) (kind : TokenKind)
    (l : List (Pattern × TokenKind)) : among ((p, kind) :: l) s = some (n, kind) := by
  simp only [among, List.findSome?_cons, h, Option.map_some]

private theorem among_cons_none (h : p.length? s = none) (kind : TokenKind)
    (l : List (Pattern × TokenKind)) : among ((p, kind) :: l) s = among l s := by
  simp only [among, List.findSome?_cons, h, Option.map_none]

/-- Links that begin alike differ in their heads. -/
private theorem among_map {a : List Char} (h : Takes p a s)
    (heads : List (Pattern × TokenKind)) :
    among (heads.map fun (q, kind) => (p ++ q, kind)) (a ++ s) =
      (among heads s).map fun (n, kind) => (a.length + n, kind) := by
  rw [among, among, List.findSome?_map, List.map_findSome?]
  congr 1
  funext ⟨q, kind⟩
  have hp : p.length? (a ++ s) = some a.length := h
  simp [length?_append, hp, Function.comp_def]

private theorem among_map_none (h : p.length? s = none) (heads : List (Pattern × TokenKind)) :
    among (heads.map fun (q, kind) => (p ++ q, kind)) s = none := by
  rw [among, List.findSome?_map, List.findSome?_eq_none_iff]
  intro e _
  simp [length?_append, h]

end among

/-- Heads that can stand behind a run of `c` and are told apart where a space follows them. -/
private def Distinct (c : Char) (heads : List (Pattern × TokenKind)) : Prop :=
  ∀ e ∈ heads, ∀ g, e.1.Spells g → ∀ rest, ∃ d s, g ++ ' ' :: rest = d :: s ∧
    (d == c) = false ∧ among heads (d :: s) = some (g.length, e.2)

private theorem spells_letter (s : String) (g : List Char) :
    (letter s).Spells g ↔ g = s.toList := by
  constructor
  · rintro ⟨a, b, rfl, rfl, rfl⟩
    exact List.append_nil _
  · rintro rfl
    exact ⟨_, [], rfl, rfl, (List.append_nil _).symm⟩

/-- The heads of a solid link; without one it is a line. -/
private def solidHeads : List (Pattern × TokenKind) := [
  ("|>", .inheritance), ("*", .composition), (">", .solidArrow), (letter "x", .solidCross),
  (letter "o", .solidCircle), (")", .solidOpen)]

private theorem solidHeads_distinct : Distinct '-' solidHeads := by
  simp only [Distinct, solidHeads, List.forall_mem_cons, spells_letter, Spells, forall_eq]
  exact ⟨fun _ => ⟨_, _, rfl, rfl, rfl⟩, fun _ => ⟨_, _, rfl, rfl, rfl⟩,
    fun _ => ⟨_, _, rfl, rfl, rfl⟩, fun _ => ⟨_, _, rfl, rfl, rfl⟩, fun _ => ⟨_, _, rfl, rfl, rfl⟩,
    fun _ => ⟨_, _, rfl, rfl, rfl⟩, by simp⟩

private def dottedHeads : List (Pattern × TokenKind) :=
  [(">", .dottedArrow), (letter "x", .dottedCross), (")", .dottedOpen)]

private theorem dottedHeads_distinct : Distinct '-' dottedHeads := by
  simp only [Distinct, dottedHeads, List.forall_mem_cons, spells_letter, Spells, forall_eq]
  exact ⟨fun _ => ⟨_, _, rfl, rfl, rfl⟩, fun _ => ⟨_, _, rfl, rfl, rfl⟩,
    fun _ => ⟨_, _, rfl, rfl, rfl⟩, by simp⟩

private def dotHeads : List (Pattern × TokenKind) := [("|>", .realization), (">", .dependency)]

private theorem dotHeads_distinct : Distinct '.' dotHeads := by
  simp only [Distinct, dotHeads, List.forall_mem_cons, Spells, forall_eq]
  exact ⟨fun _ => ⟨_, _, rfl, rfl, rfl⟩, fun _ => ⟨_, _, rfl, rfl, rfl⟩, by simp⟩

/-- The right end of a link that begins with `<`. -/
private def backHeads : List (Pattern × TokenKind) :=
  [(">" <|> "*" <|> letter "o" <|> nothing, .solidLink)]

private theorem backHeads_distinct : Distinct '-' backHeads := by
  simp only [Distinct, backHeads, List.forall_mem_cons, spells_letter, spells_orElse, nothing,
    Spells, or_imp, forall_and, forall_eq]
  exact ⟨⟨fun _ => ⟨_, _, rfl, rfl, rfl⟩, fun _ => ⟨_, _, rfl, rfl, rfl⟩,
    fun _ => ⟨_, _, rfl, rfl, rfl⟩, fun _ => ⟨_, _, rfl, rfl, rfl⟩⟩, by simp⟩

/-- The right end of a link that begins with a diamond. -/
private def diamondHeads (kind : TokenKind) : List (Pattern × TokenKind) :=
  let operand := ahead fun c => Text.isBlank c || Text.isWord c || c == '"'
  [(("*" <|> letter "o") ++ operand <|> operand, kind)]

private theorem diamondHeads_distinct (kind : TokenKind) : Distinct '-' (diamondHeads kind) := by
  intro e he g hg rest
  obtain rfl := List.mem_singleton.mp he
  rcases hg with ⟨_, _, rfl | ⟨_, _, rfl, rfl, rfl⟩, rfl, rfl⟩ | rfl
  · exact ⟨'*', _, rfl, rfl, rfl⟩
  · exact ⟨'o', _, rfl, rfl, rfl⟩
  · exact ⟨' ', _, rfl, rfl, rfl⟩

private theorem among_heads {p : Pattern} {c : Char} {a : List Char}
    {heads : List (Pattern × TokenKind)} (hp : ∀ d s, (d == c) = false → Takes p a (d :: s))
    (hd : Distinct c heads) {e : Pattern × TokenKind} (he : e ∈ heads) {g : List Char}
    (hg : e.1.Spells g) (rest : List Char) :
    among (heads.map fun (q, kind) => (p ++ q, kind)) ((a ++ g) ++ ' ' :: rest) =
      some ((a ++ g).length, e.2) := by
  obtain ⟨d, s, hs, hne, hamong⟩ := hd e he g hg rest
  rw [List.append_assoc, hs, among_map (hp d s hne), hamong, Option.map_some, List.length_append]

private theorem takes_dashes (n : Nat) (d : Char) (s : List Char) (h : (d == '-') = false) :
    Takes dashes (List.replicate (n + 2) '-') (d :: s) := takes_run h (Nat.le_add_left 2 n) s

private theorem takes_dots (n : Nat) (d : Char) (s : List Char) (h : (d == '.') = false) :
    Takes dots (List.replicate (n + 2) '.') (d :: s) := takes_run h (Nat.le_add_left 2 n) s

private theorem takes_dotted (n : Nat) (s : List Char) :
    Takes dotted (['-'] ++ List.replicate (n + 1) '.' ++ ['-']) s :=
  takes_append (takes_append (takes_text _ _) (takes_run rfl (Nat.le_add_left 1 n) s))
    (takes_text _ _)

section table

private theorem hyphenLinks_eq : (links.drop 9).take 12 =
    dottedHeads.map (fun (q, kind) => (dotted ++ q, kind)) ++ ((dotted, .dottedLine) ::
      (solidHeads.map (fun (q, kind) => (dashes ++ q, kind)) ++
        [(run '-' 3, .solidLine), ("--", .solidLink)])) := rfl

private theorem readsBack_solid : ∀ e ∈ solidHeads, ReadsBack (dashes ++ e.1, e.2) := by
  rintro e he g ⟨a, b, ⟨n, rfl⟩, hb, rfl⟩ rest
  have hline : link? ((List.replicate (n + 2) '-' ++ b) ++ ' ' :: rest) =
    among ((links.drop 9).take 12) ((List.replicate (n + 2) '-' ++ b) ++ ' ' :: rest) :=
      link?_hyphen _
  have hdotted : dotted.length? ((List.replicate (n + 2) '-' ++ b) ++ ' ' :: rest) = none := rfl
  rw [hline, hyphenLinks_eq, among_append, among_map_none hdotted, Option.none_or,
    among_cons_none hdotted, among_append, among_heads (takes_dashes n) solidHeads_distinct he hb]
  rfl

private theorem readsBack_dotted : ∀ e ∈ dottedHeads, ReadsBack (dotted ++ e.1, e.2) := by
  rintro e he g ⟨_, b, ⟨_, _, ⟨_, _, rfl, ⟨n, rfl⟩, rfl⟩, rfl, rfl⟩, hb, rfl⟩ rest
  have hline := link?_hyphen (List.replicate (n + 1) '.' ++ ['-'] ++ b ++ ' ' :: rest)
  rw [hyphenLinks_eq, among_append] at hline
  refine hline.trans ?_
  have h := among_heads (fun d s _ => takes_dotted n (d :: s)) dottedHeads_distinct he hb rest
  exact (congrArg (Option.or · _) h).trans rfl

private theorem readsBack_dottedLine : ReadsBack (dotted, .dottedLine) := by
  rintro g ⟨_, _, ⟨_, _, rfl, ⟨n, rfl⟩, rfl⟩, rfl, rfl⟩ rest
  have hline := link?_hyphen (List.replicate (n + 1) '.' ++ ['-'] ++ ' ' :: rest)
  have hheads := among_map (takes_dotted n (' ' :: rest)) dottedHeads
  have hnone : among dottedHeads (' ' :: rest) = none := rfl
  rw [hnone, Option.map_none] at hheads
  rw [hyphenLinks_eq, among_append] at hline
  refine hline.trans ((congrArg (Option.or · _) hheads).trans ?_)
  rw [Option.none_or]
  exact among_cons (takes_dotted n (' ' :: rest)) _ _

private theorem readsBack_solidLine : ReadsBack (run '-' 3, .solidLine) := by
  rintro g ⟨n, rfl⟩ rest
  have hline : link? (List.replicate (n + 3) '-' ++ ' ' :: rest) =
      among ((links.drop 9).take 12) (List.replicate (n + 3) '-' ++ ' ' :: rest) := link?_hyphen _
  have hdotted : dotted.length? (List.replicate (n + 3) '-' ++ ' ' :: rest) = none := rfl
  have hheads := among_map (takes_dashes (n + 1) ' ' rest rfl) solidHeads
  have hnone : among solidHeads (' ' :: rest) = none := rfl
  rw [hnone, Option.map_none] at hheads
  rw [hline, hyphenLinks_eq, among_append, among_map_none hdotted, Option.none_or,
    among_cons_none hdotted, among_append, hheads, Option.none_or]
  exact among_cons (takes_run rfl (Nat.le_add_left 3 n) rest) _ _

private theorem readsBack_solidLink : ReadsBack ("--", .solidLink) := by
  rintro g rfl rest
  rfl

private theorem dotLinks_eq : (links.drop 4).take 3 =
    dotHeads.map (fun (q, kind) => (dots ++ q, kind)) ++ [(dots, .dashedLink)] := rfl

private theorem readsBack_dots : ∀ e ∈ dotHeads, ReadsBack (dots ++ e.1, e.2) := by
  rintro e he g ⟨a, b, ⟨n, rfl⟩, hb, rfl⟩ rest
  have hline : link? ((List.replicate (n + 2) '.' ++ b) ++ ' ' :: rest) =
    among ((links.drop 4).take 3) ((List.replicate (n + 2) '.' ++ b) ++ ' ' :: rest) := link?_dot _
  rw [hline, dotLinks_eq, among_append, among_heads (takes_dots n) dotHeads_distinct he hb]
  rfl

private theorem readsBack_dashedLink : ReadsBack (dots, .dashedLink) := by
  rintro g ⟨n, rfl⟩ rest
  have hline : link? (List.replicate (n + 2) '.' ++ ' ' :: rest) =
      among ((links.drop 4).take 3) (List.replicate (n + 2) '.' ++ ' ' :: rest) := link?_dot _
  have hheads := among_map (takes_dots n ' ' rest rfl) dotHeads
  have hnone : among dotHeads (' ' :: rest) = none := rfl
  rw [hnone, Option.map_none] at hheads
  rw [hline, dotLinks_eq, among_append, hheads, Option.none_or]
  exact among_cons (takes_dots n ' ' rest rfl) _ _

private theorem lessLinks_eq : links.take 4 = (text ['<', '|'] ++ dashes, .inheritance) ::
    (text ['<', '|'] ++ dots, .realization) :: (text ['<'] ++ dots, .dependency) ::
    backHeads.map (fun (q, kind) => (text ['<'] ++ dashes ++ q, kind)) := rfl

private theorem readsBack_less : ∀ e ∈ links.take 4, ReadsBack e := by
  rw [lessLinks_eq]
  simp only [List.forall_mem_cons]
  refine ⟨?_, ?_, ?_, ?_⟩
  · rintro g ⟨_, _, rfl, ⟨n, rfl⟩, rfl⟩ rest
    exact (link?_less _).trans (among_cons
      (takes_append (takes_text _ _) (takes_dashes n ' ' rest rfl)) _ _)
  · rintro g ⟨_, _, rfl, ⟨n, rfl⟩, rfl⟩ rest
    refine (link?_less _).trans ((among_cons_none rfl _ _).trans ?_)
    exact among_cons (takes_append (takes_text _ _) (takes_dots n ' ' rest rfl)) _ _
  · rintro g ⟨_, _, rfl, ⟨n, rfl⟩, rfl⟩ rest
    refine (link?_less _).trans ((among_cons_none rfl _ _).trans ((among_cons_none rfl _ _).trans ?_))
    exact among_cons (takes_append (takes_text _ _) (takes_dots n ' ' rest rfl)) _ _
  · intro e he
    obtain ⟨h, hh, rfl⟩ := List.mem_map.mp he
    rintro g ⟨_, b, ⟨_, _, rfl, ⟨n, rfl⟩, rfl⟩, hb, rfl⟩ rest
    have hline := link?_less ((List.replicate (n + 2) '-' ++ b) ++ ' ' :: rest)
    rw [lessLinks_eq, among_cons_none rfl, among_cons_none rfl, among_cons_none rfl] at hline
    exact hline.trans (among_heads (fun d s hd =>
      takes_append (takes_text ['<'] _) (takes_dashes n d s hd)) backHeads_distinct hh hb rest)

private theorem diamondLinks_eq : (links.drop 7).take 2 =
    (diamondHeads .composition).map (fun (q, kind) => (text ['*'] ++ dashes ++ q, kind)) ++
      (diamondHeads .aggregation).map (fun (q, kind) => (text ['o'] ++ dashes ++ q, kind)) := rfl

private theorem readsBack_diamond : ∀ e ∈ (links.drop 7).take 2, ReadsBack e := by
  rw [diamondLinks_eq, List.forall_mem_append]
  constructor
  · intro e he
    obtain ⟨h, hh, rfl⟩ := List.mem_map.mp he
    rintro g ⟨_, b, ⟨_, _, rfl, ⟨n, rfl⟩, rfl⟩, hb, rfl⟩ rest
    exact (link?_asterisk _).trans (among_heads (fun d s hd =>
      takes_append (takes_text ['*'] _) (takes_dashes n d s hd)) (diamondHeads_distinct _) hh hb
        rest)
  · intro e he
    obtain ⟨h, hh, rfl⟩ := List.mem_map.mp he
    rintro g ⟨_, b, ⟨_, _, rfl, ⟨n, rfl⟩, rfl⟩, hb, rfl⟩ rest
    exact (link?_o _).trans (among_heads (fun d s hd =>
      takes_append (takes_text ['o'] _) (takes_dashes n d s hd)) (diamondHeads_distinct _) hh hb
        rest)

private theorem thickLinks_eq : (links.drop 21).take 2 =
    [(text ['>'], TokenKind.thickArrow)].map (fun (q, kind) => (run '=' 2 ++ q, kind)) ++
      [(run '=' 3, .thickLine)] := rfl

private theorem readsBack_thick : ∀ e ∈ (links.drop 21).take 2, ReadsBack e := by
  rw [thickLinks_eq, List.forall_mem_append, List.map_singleton, List.forall_mem_singleton,
    List.forall_mem_singleton]
  constructor
  · rintro g ⟨_, _, ⟨n, rfl⟩, rfl, rfl⟩ rest
    have htakes : Takes (run '=' 2 ++ text ['>']) (List.replicate (n + 2) '=' ++ ['>'])
        (' ' :: rest) :=
      takes_append (b := ['>']) (takes_run rfl (Nat.le_add_left 2 n) _) (takes_text _ _)
    exact (link?_equals _).trans (among_cons htakes .thickArrow _)
  · rintro g ⟨n, rfl⟩ rest
    have hline : link? (List.replicate (n + 3) '=' ++ ' ' :: rest) =
        among ((links.drop 21).take 2) (List.replicate (n + 3) '=' ++ ' ' :: rest) := link?_equals _
    have hheads := among_map (takes_run (k := 2) (n := n + 3) (c := '=') (d := ' ') rfl (by omega)
      rest) [(text ['>'], TokenKind.thickArrow)]
    have hnone : among [(text ['>'], TokenKind.thickArrow)] (' ' :: rest) = none := rfl
    rw [hnone, Option.map_none] at hheads
    rw [hline, thickLinks_eq, among_append, hheads, Option.none_or]
    exact among_cons (takes_run rfl (Nat.le_add_left 3 n) rest) _ _

private theorem readsBack_invisible : ReadsBack (run '~' 3, .invisibleLink) := by
  rintro g ⟨n, rfl⟩ rest
  exact (link?_tilde _).trans (among_cons (takes_run rfl (Nat.le_add_left 3 n) rest) _ _)

end table

private theorem links_eq : links = links.take 4 ++ ((links.drop 4).take 3 ++ ((links.drop 7).take 2 ++
    ((links.drop 9).take 12 ++ ((links.drop 21).take 2 ++ [(run '~' 3, .invisibleLink)])))) := rfl

/-- A link that a pattern of the table spells, followed by a space, is read by that pattern. -/
theorem link?_of_spells (rest : List Char) : ∀ e ∈ links, ∀ g, e.1.Spells g →
    link? (g ++ ' ' :: rest) = some (g.length, e.2) := by
  have hdot : ∀ e ∈ (links.drop 4).take 3, ReadsBack e := by
    rw [dotLinks_eq, List.forall_mem_append, List.forall_mem_map, List.forall_mem_singleton]
    exact ⟨readsBack_dots, readsBack_dashedLink⟩
  have hhyphen : ∀ e ∈ (links.drop 9).take 12, ReadsBack e := by
    rw [hyphenLinks_eq, List.forall_mem_append, List.forall_mem_map, List.forall_mem_cons,
      List.forall_mem_append, List.forall_mem_map, List.forall_mem_cons, List.forall_mem_singleton]
    exact ⟨readsBack_dotted, readsBack_dottedLine, readsBack_solid, readsBack_solidLine,
      readsBack_solidLink⟩
  have hall : ∀ e ∈ links, ReadsBack e := by
    rw [links_eq]
    simp only [List.forall_mem_append, List.forall_mem_singleton]
    exact ⟨readsBack_less, hdot, readsBack_diamond, hhyphen, readsBack_thick, readsBack_invisible⟩
  exact fun e he g hg => hall e he g hg rest

end Lexicon
end Mermaid
