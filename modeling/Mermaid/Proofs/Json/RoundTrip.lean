import Mathlib.Data.List.Forall2
import Mathlib.Data.List.TakeWhile
import Mermaid.Json.Printer
import Mermaid.Proofs.Json.Reader

/-! What is printed as JSON is read back to the value that was printed. -/
namespace Mermaid.Json
open Text

variable {rest : List Char}

private theorem hexValue?_digitChar : ∀ d < 16, hexValue? (Nat.digitChar d) = some d := by decide

theorem readUnit_hexDigits {n : Nat} (hn : n < 0x10000) (rest : List Char) :
    readUnit (hexDigits 4 n ++ rest) = some (n, rest) := by
  have hdigit (m : Nat) : hexValue? (Nat.digitChar (m % 16)) = some (m % 16) :=
    hexValue?_digitChar _ (Nat.mod_lt _ (by decide))
  simp only [hexDigits, List.nil_append, List.cons_append, readUnit, List.mapM_cons, List.mapM_nil,
    hdigit, Option.bind_eq_bind, Option.bind_some, Option.pure_def, List.foldl_cons, List.foldl_nil,
    Option.some.injEq, Prod.mk.injEq, and_true]
  omega

/-- No character is half of a surrogate pair. -/
private theorem toNat_apart (c : Char) : c.toNat < 0xd800 ∨ 0xe000 ≤ c.toNat := by
  rcases c.valid with hlow | ⟨hhigh, _⟩
  · exact .inl hlow
  · exact .inr hhigh

private theorem toNat_lt (c : Char) : c.toNat < 0x110000 := by
  rcases c.valid with hlow | ⟨_, hhigh⟩
  · exact Nat.lt_trans hlow (by decide)
  · exact hhigh

theorem readCodePoint_unit {c : Char} (h : c.toNat < 0x10000) (rest : List Char) :
    readCodePoint (hexDigits 4 c.toNat ++ rest) = some (c, rest) := by
  rw [readCodePoint, readUnit_hexDigits h]
  simp [toNat_apart c]

theorem readCodePoint_pair (high low : Nat) (hhigh : 0xd800 ≤ high ∧ high < 0xdc00)
    (hlow : 0xdc00 ≤ low ∧ low < 0xe000) (rest : List Char) :
    readCodePoint (hexDigits 4 high ++ (unit low ++ rest)) =
      some (Char.ofNat (0x10000 + (high - 0xd800) * 0x400 + (low - 0xdc00)), rest) := by
  have hsurrogate : ¬ (high < 0xd800 ∨ 0xe000 ≤ high) := by omega
  rw [readCodePoint, readUnit_hexDigits (by omega)]
  simp only [Option.bind_eq_bind, Option.bind_some, if_neg hsurrogate, unit, List.cons_append,
    readUnit_hexDigits (show low < 0x10000 by omega)]
  rw [if_pos ⟨hhigh.2, hlow⟩]
  rfl

theorem readChar_escape (c : Char) (rest : List Char) :
    readChar (escape c ++ rest) = some (c, rest) := by
  unfold escape
  split
  iterate 7 rfl
  rename_i hquote hbackslash _ _ _ _ _
  dsimp only
  split
  · rename_i hprintable
    rw [Bool.and_eq_true, decide_eq_true_eq, decide_eq_true_eq] at hprintable
    have hplain : ¬ (c = '"' ∨ c = '\\' ∨ c < ' ') := by
      rintro (hc | hc | hc)
      · exact hquote hc
      · exact hbackslash hc
      · exact absurd (show c.toNat < 0x20 from hc) (by omega)
    rw [List.singleton_append, readChar, if_neg hplain]
    · exact fun s hs => absurd hs hbackslash
    · exact fun d s hs => absurd hs hbackslash
  split
  · rename_i hplane
    exact readCodePoint_unit hplane rest
  · rename_i hplane
    have hlimit := toNat_lt c
    have hvalue : 0x10000 + (0xd800 + (c.toNat - 0x10000) / 0x400 - 0xd800) * 0x400 +
        (0xdc00 + (c.toNat - 0x10000) % 0x400 - 0xdc00) = c.toNat := by omega
    have hpair := readCodePoint_pair (0xd800 + (c.toNat - 0x10000) / 0x400)
      (0xdc00 + (c.toNat - 0x10000) % 0x400) (by omega) (by omega) rest
    rw [hvalue, Char.ofNat_toNat] at hpair
    rw [List.append_assoc]
    exact hpair

theorem escape_head (c : Char) : ∃ d s, escape c = d :: s ∧ d ≠ '"' := by
  unfold escape
  split
  iterate 7 exact ⟨'\\', _, rfl, by decide⟩
  rename_i hquote _ _ _ _ _ _
  dsimp only
  split
  · exact ⟨c, [], rfl, hquote⟩
  split
  · exact ⟨'\\', _, rfl, by decide⟩
  · exact ⟨'\\', _, rfl, by decide⟩

theorem readChars_escape {cs : List Char} {bound : Nat} (hbound : cs.length < bound)
    (rest : List Char) : readChars bound (cs.flatMap escape ++ '"' :: rest) = some (cs, rest) := by
  induction cs generalizing bound with
  | nil =>
    obtain ⟨bound, rfl⟩ := Nat.exists_eq_add_of_lt hbound
    rfl
  | cons c cs ih =>
    obtain ⟨bound, rfl⟩ := Nat.exists_eq_succ_of_ne_zero (Nat.ne_zero_of_lt hbound)
    obtain ⟨d, s, hescape, hd⟩ := escape_head c
    have hchar := readChar_escape c (cs.flatMap escape ++ '"' :: rest)
    have hhead : ((c :: cs).flatMap escape ++ '"' :: rest).head? ≠ some '"' := by
      simpa [hescape] using hd
    rw [readChars, if_neg hhead, List.flatMap_cons, List.append_assoc, hchar]
    simp only [Option.bind_eq_bind, Option.bind_some, ih (Nat.lt_of_succ_lt_succ hbound),
      Option.pure_def]

theorem length_le_escape (cs : List Char) : cs.length ≤ (cs.flatMap escape).length := by
  induction cs with
  | nil => exact le_refl _
  | cons c cs ih =>
    obtain ⟨d, s, hescape, _⟩ := escape_head c
    rw [List.flatMap_cons, hescape, List.length_append, List.length_cons, List.length_cons]
    omega

theorem readString_string (s : String) (rest : List Char) :
    readString (string s ++ rest) = some (s, rest) := by
  have hlength := length_le_escape s.toList
  rw [string, List.append_assoc, List.cons_append, List.singleton_append, readString,
    readChars_escape (by rw [List.length_append, List.length_cons]; omega), Option.map_some]
  simp

/-- A numeral ends before what follows. -/
def EndsNumeral (rest : List Char) : Prop := rest.head?.all (!isNumeral ·)

private theorem toDigits_zero_head {n : Nat} (h : (Nat.toDigits 10 n).head? = some '0') : n = 0 := by
  induction n using Nat.strongRecOn with
  | ind n ih =>
    by_cases hn : n < 10
    · rw [Nat.toDigits_of_lt_base hn] at h
      have hdigits : ∀ m < 10, Nat.digitChar m = '0' → m = 0 := by decide
      exact hdigits n hn (by simpa using h)
    · rw [Nat.toDigits_of_base_le (by decide) (by omega),
        List.head?_append_of_ne_nil _ Nat.toDigits_ne_nil] at h
      have := ih (n / 10) (by omega) h
      omega

theorem readNat_toDigits (n : Nat) (h : EndsNumeral rest) :
    readNat (Nat.toDigits 10 n ++ rest) = some (n, rest) := by
  have hdigits : ∀ c ∈ Nat.toDigits 10 n, c.isDigit := fun c hc =>
    Nat.isDigit_of_mem_toDigits (by decide) (by decide) hc
  have hrest : rest.takeWhile Char.isDigit = [] ∧ rest.dropWhile Char.isDigit = rest ∧
      ¬ rest.head?.any isNumeral := by
    cases rest with
    | nil => simp
    | cons c rest =>
      have hc : isNumeral c = false := by simpa [EndsNumeral] using h
      have hdigit : c.isDigit = false := by
        simp only [isNumeral, Bool.or_eq_false_iff] at hc
        exact hc.1.1.1
      simp [hc, hdigit]
  have hzero : ¬ ((Nat.toDigits 10 n).head? = some '0' ∧ Nat.toDigits 10 n ≠ ['0']) := by
    rintro ⟨hhead, hne⟩
    obtain rfl := toDigits_zero_head hhead
    exact hne (Nat.toDigits_zero 10)
  simp only [readNat, List.takeWhile_append_of_pos hdigits, List.dropWhile_append_of_pos hdigits,
    hrest.1, hrest.2.1, List.append_nil]
  rw [if_neg]
  · rw [Nat.ofDigitChars_ten_toDigits]
  · rintro (hnil | hhead | hmore)
    · exact Nat.toDigits_ne_nil hnil
    · exact hzero hhead
    · exact hrest.2.2 hmore

/-- A numeral is digits, or digits behind a minus sign. -/
theorem toList_toString (n : Int) :
    (∃ m : Nat, n = m ∧ (toString n).toList = Nat.toDigits 10 m) ∨
      ∃ m : Nat, n = -m ∧ (toString n).toList = '-' :: Nat.toDigits 10 m := by
  cases n with
  | ofNat m => exact .inl ⟨m, rfl, Nat.toList_repr⟩
  | negSucc m =>
    refine .inr ⟨m + 1, rfl, ?_⟩
    change ("-" ++ (m + 1).repr).toList = _
    rw [String.toList_append, Nat.toList_repr]
    rfl

private theorem toDigits_head (m : Nat) : ∃ c s, Nat.toDigits 10 m = c :: s ∧ c.isDigit := by
  obtain ⟨c, s, hcs⟩ := List.exists_cons_of_ne_nil (Nat.toDigits_ne_nil (n := m) (b := 10))
  refine ⟨c, s, hcs, Nat.isDigit_of_mem_toDigits (b := 10) (n := m) (by decide) (by decide) ?_⟩
  rw [hcs]
  exact List.mem_cons_self

/-- A numeral begins with a digit or a minus sign. -/
theorem toString_head (n : Int) : ∃ c s, (toString n).toList = c :: s ∧ (c.isDigit ∨ c = '-') := by
  rcases toList_toString n with ⟨m, -, htext⟩ | ⟨m, -, htext⟩
  · obtain ⟨c, s, hcs, hc⟩ := toDigits_head m
    exact ⟨c, s, htext.trans hcs, .inl hc⟩
  · exact ⟨'-', _, htext, .inr rfl⟩

theorem readInt_toString (n : Int) (h : EndsNumeral rest) :
    readInt ((toString n).toList ++ rest) = some (n, rest) := by
  rcases toList_toString n with ⟨m, rfl, htext⟩ | ⟨m, rfl, htext⟩
  · have hminus : ∀ s, Nat.toDigits 10 m ++ rest ≠ '-' :: s := by
      obtain ⟨c, s, hcs, hc⟩ := toDigits_head m
      rintro t ht
      rw [hcs] at ht
      obtain ⟨rfl, -⟩ := List.cons.inj ht
      exact absurd hc (by decide)
    rw [htext, readInt, readNat_toDigits m h]
    · rfl
    · exact hminus
  · rw [htext, List.cons_append, readInt, readNat_toDigits m h]
    rfl

section sequences
variable {α : Type} {stop : Char} {item : List Char → Option (α × List Char)}

/-- Neither white space nor a closing bracket, as the first character of a value. -/
def Opens (line : List Char) : Prop :=
  line.head?.any fun c => !isSpace c && c != ']' && c != '\x7d'

theorem Opens.append {line : List Char} (h : Opens line) (s : List Char) :
    (line ++ s).head?.any (!isSpace ·) ∧
      ∀ stop, stop = ']' ∨ stop = '\x7d' → (line ++ s).head? ≠ some stop := by
  cases line with
  | nil => cases h
  | cons c line =>
    simp only [Opens, List.head?_cons, Option.any_some, Bool.and_eq_true, bne_iff_ne] at h
    obtain ⟨⟨hspace, hsquare⟩, hcurly⟩ := h
    refine ⟨hspace, ?_⟩
    rintro stop (rfl | rfl) hhead
    · exact hsquare (Option.some.inj hhead)
    · exact hcurly (Option.some.inj hhead)

/-- What is read from a line, whatever ends a numeral behind it. -/
def ReadsAs (item : List Char → Option (α × List Char)) (line : List Char) (a : α) : Prop :=
  Opens line ∧ ∀ rest, EndsNumeral rest → item (line ++ rest) = some (a, rest)

theorem skipSpaces_of_head {s : List Char} (h : s.head?.any (!isSpace ·)) : skipSpaces s = s := by
  cases s with
  | nil => rfl
  | cons c s => exact List.dropWhile_cons_of_neg (by simpa using h)

theorem skipSpaces_newline (level : Nat) {s : List Char} (h : s.head?.any (!isSpace ·)) :
    skipSpaces (newline level ++ s) = s := by
  have hspaces : ∀ c ∈ newline level, isSpace c := by
    intro c hc
    rcases List.mem_cons.mp hc with rfl | hc
    · rfl
    · rw [(List.mem_replicate.mp hc).2]
      rfl
  rw [skipSpaces, List.dropWhile_append_of_pos hspaces]
  exact skipSpaces_of_head h

/-- What stands behind the first line between two brackets. -/
def behindLine (stop : Char) (level : Nat) (more : List (List Char)) : List Char :=
  more.flatMap (fun l => ',' :: newline (level + 1) ++ l) ++ (newline level ++ [stop])

theorem enclose_cons (start : Char) (level : Nat) (line : List Char) (more : List (List Char)) :
    enclose start stop level (line :: more) =
      start :: (newline (level + 1) ++ (line ++ behindLine stop level more)) := by
  simp only [enclose, behindLine, List.append_assoc, List.cons_append]

theorem endsNumeral_behindLine (level : Nat) (more : List (List Char)) :
    EndsNumeral (behindLine stop level more ++ rest) := by
  cases more <;> rfl

theorem readItems_lines {line : List Char} {more : List (List Char)} {a : α} {as : List α}
    (level : Nat) (hstop : stop = ']' ∨ stop = '\x7d') (hline : ReadsAs item line a)
    (hmore : List.Forall₂ (ReadsAs item) more as) {bound : Nat} (hbound : more.length < bound)
    (rest : List Char) :
    readItems stop item bound (newline (level + 1) ++ (line ++ (behindLine stop level more ++ rest))) =
      some (a :: as, rest) := by
  have hclose : (stop :: rest).head?.any (!isSpace ·) ∧ ',' ≠ stop := by
    rcases hstop with rfl | rfl <;> simp [isSpace]
  induction hmore generalizing line a bound with
  | nil =>
    obtain ⟨bound, rfl⟩ := Nat.exists_eq_succ_of_ne_zero (Nat.ne_zero_of_lt hbound)
    rw [readItems, skipSpaces_newline _ (hline.1.append _).1, hline.2 _ (endsNumeral_behindLine level [])]
    simp only [Option.bind_eq_bind, Option.bind_some, behindLine, List.flatMap_nil, List.nil_append,
      List.append_assoc, List.singleton_append, skipSpaces_newline level hclose.1, if_true,
      Option.pure_def]
  | @cons next b more as hnext hmore ih =>
    obtain ⟨bound, rfl⟩ := Nat.exists_eq_succ_of_ne_zero (Nat.ne_zero_of_lt hbound)
    have hcomma : behindLine stop level (next :: more) ++ rest =
        ',' :: (newline (level + 1) ++ (next ++ (behindLine stop level more ++ rest))) := by
      simp only [behindLine, List.flatMap_cons, List.append_assoc, List.cons_append]
    have hskip (s : List Char) : skipSpaces (',' :: s) = ',' :: s := rfl
    rw [readItems, skipSpaces_newline _ (hline.1.append _).1,
      hline.2 _ (endsNumeral_behindLine level _), hcomma]
    simp only [Option.bind_eq_bind, Option.bind_some, hskip, if_neg hclose.2, if_true,
      ih hnext (Nat.lt_of_succ_lt_succ hbound), Option.pure_def]

theorem length_newline (level : Nat) : (newline level).length = 2 * level + 1 := by
  rw [newline, List.length_cons, List.length_replicate]

theorem length_le_flatMap (level : Nat) (more : List (List Char)) :
    more.length ≤ (more.flatMap fun l => ',' :: newline (level + 1) ++ l).length := by
  induction more with
  | nil => exact le_refl _
  | cons l more ih =>
    rw [List.flatMap_cons, List.length_append, List.cons_append, List.length_cons, List.length_cons]
    omega

theorem readEnclosed_enclose (start : Char) {lines : List (List Char)} {as : List α} (level : Nat)
    (hstop : stop = ']' ∨ stop = '\x7d') (h : List.Forall₂ (ReadsAs item) lines as)
    (rest : List Char) : ∃ s, enclose start stop level lines ++ rest = start :: s ∧
      readEnclosed stop item s = some (as, rest) := by
  cases h with
  | nil =>
    refine ⟨stop :: rest, rfl, ?_⟩
    rcases hstop with rfl | rfl <;> rfl
  | @cons line a more as hline hmore =>
    refine ⟨newline (level + 1) ++ (line ++ (behindLine stop level more ++ rest)), ?_, ?_⟩
    · rw [enclose_cons, List.cons_append, List.append_assoc, List.append_assoc]
    · obtain ⟨hspace, hhead⟩ := hline.1.append (behindLine stop level more ++ rest)
      have hbound : more.length <
          (newline (level + 1) ++ (line ++ (behindLine stop level more ++ rest))).length := by
        have := length_le_flatMap level more
        simp only [behindLine, List.length_append, length_newline, List.length_singleton]
        omega
      rw [readEnclosed, skipSpaces_newline _ hspace, if_neg (hhead stop hstop)]
      exact readItems_lines level hstop hline hmore hbound rest

theorem length_lt_enclose {start : Char} {lines : List (List Char)} {line : List Char} (level : Nat)
    (h : line ∈ lines) : line.length < (enclose start stop level lines).length := by
  obtain ⟨first, more, rfl⟩ := List.exists_cons_of_ne_nil (List.ne_nil_of_mem h)
  rw [enclose_cons, behindLine, List.length_cons, List.length_append, List.length_append,
    List.length_append]
  rcases List.mem_cons.mp h with rfl | h
  · omega
  · obtain ⟨before, behind, rfl⟩ := List.append_of_mem h
    rw [List.flatMap_append, List.flatMap_cons, List.length_append, List.length_append,
      List.length_append]
    omega

end sequences

mutual
/-- No name comes up twice in one object. -/
def Distinct : Json → Prop
  | arr items => DistinctAll items
  | obj fields => (fields.map (·.1)).Nodup ∧ DistinctFields fields
  | _ => True

def DistinctAll : List Json → Prop
  | [] => True
  | v :: items => v.Distinct ∧ DistinctAll items

def DistinctFields : List (String × Json) → Prop
  | [] => True
  | (_, v) :: fields => v.Distinct ∧ DistinctFields fields
end

theorem distinctAll_iff {items : List Json} : DistinctAll items ↔ ∀ v ∈ items, v.Distinct := by
  induction items with
  | nil => simp [DistinctAll]
  | cons v items ih => rw [DistinctAll, ih, List.forall_mem_cons]

theorem distinctFields_iff {fields : List (String × Json)} :
    DistinctFields fields ↔ ∀ field ∈ fields, field.2.Distinct := by
  induction fields with
  | nil => simp [DistinctFields]
  | cons field fields ih => rw [DistinctFields, ih, List.forall_mem_cons]

/-- A printed field is read back where its value is. -/
theorem readsAs_field {value : List Char → Option (Json × List Char)} {line : List Char} {v : Json}
    (h : ReadsAs value line v) (key : String) :
    ReadsAs (readField value) (string key ++ ':' :: ' ' :: line) (key, v) := by
  refine ⟨rfl, fun rest hrest => ?_⟩
  have hcolon : skipSpaces (':' :: ' ' :: (line ++ rest)) = ':' :: ' ' :: (line ++ rest) := rfl
  have hvalue : skipSpaces (' ' :: (line ++ rest)) = line ++ rest :=
    skipSpaces_of_head (h.1.append rest).1
  rw [List.append_assoc, List.cons_append, List.cons_append, readField, readString_string]
  simp only [Option.bind_eq_bind, Option.bind_some, hcolon, hvalue, h.2 rest hrest, Option.pure_def]

private theorem isDigit_mem {c : Char} (h : c.isDigit) : c ∈ "0123456789".toList := by
  have hdigits : ∀ n < 58, 48 ≤ n → Char.ofNat n ∈ "0123456789".toList := by decide
  have hrange : 48 ≤ c.toNat ∧ c.toNat ≤ 57 := by
    simp only [Char.isDigit, ge_iff_le, Bool.and_eq_true, decide_eq_true_eq] at h
    exact h
  have hc := hdigits c.toNat (by omega) hrange.1
  rwa [Char.ofNat_toNat] at hc

/-- What begins as numerals do is a numeral. -/
private theorem readValue_numeral {c : Char} (hc : c.isDigit ∨ c = '-') (bound : Nat) (s : List Char) :
    Opens (c :: s) ∧
      readValue (bound + 1) (c :: s) = (readInt (c :: s)).map fun (n, s) => (int n, s) := by
  have hmem : c ∈ '-' :: "0123456789".toList := by
    rcases hc with hc | rfl
    · exact List.mem_cons_of_mem _ (isDigit_mem hc)
    · exact List.mem_cons_self
  have hall : ∀ c ∈ '-' :: "0123456789".toList, Opens (c :: s) ∧
      readValue (bound + 1) (c :: s) = (readInt (c :: s)).map fun (n, s) => (int n, s) := by
    have htext : "0123456789".toList = ['0', '1', '2', '3', '4', '5', '6', '7', '8', '9'] := by decide
    simp only [htext, List.forall_mem_cons]
    refine ⟨?_, ?_, ?_, ?_, ?_, ?_, ?_, ?_, ?_, ?_, ?_, List.forall_mem_nil _⟩ <;> exact ⟨rfl, rfl⟩
  exact hall c hmem

theorem opens_enclose {start stop : Char} (hstart : start = '[' ∨ start = '\x7b') (level : Nat)
    (lines : List (List Char)) : Opens (enclose start stop level lines) := by
  rcases hstart with rfl | rfl <;> cases lines <;> rfl

private theorem exists_bound {v : Json} {level bound : Nat} (h : (print level v).length ≤ bound) :
    ∃ more, bound = more + 1 := by
  have hpos : 0 < (print level v).length := by
    cases v with
    | null => exact Nat.succ_pos _
    | bool b => cases b <;> exact Nat.succ_pos _
    | int n =>
      obtain ⟨c, s, hcs, _⟩ := toString_head n
      rw [print, hcs]
      exact Nat.succ_pos _
    | str s => exact Nat.succ_pos _
    | arr items =>
      rw [print]
      cases printItems (level + 1) items <;> exact Nat.succ_pos _
    | obj fields =>
      rw [print]
      cases printFields (level + 1) fields <;> exact Nat.succ_pos _
  exact Nat.exists_eq_add_of_lt (hpos.trans_le h) |>.imp fun more hmore => by omega

mutual
theorem print_reads : (v : Json) → v.Distinct → (level bound : Nat) →
    (print level v).length ≤ bound → ReadsAs (readValue bound) (print level v) v
  | null, _, level, bound, hbound => by
    obtain ⟨bound, rfl⟩ := exists_bound hbound
    exact ⟨rfl, fun _ _ => rfl⟩
  | bool true, _, level, bound, hbound => by
    obtain ⟨bound, rfl⟩ := exists_bound hbound
    exact ⟨rfl, fun _ _ => rfl⟩
  | bool false, _, level, bound, hbound => by
    obtain ⟨bound, rfl⟩ := exists_bound hbound
    exact ⟨rfl, fun _ _ => rfl⟩
  | int n, _, level, bound, hbound => by
    obtain ⟨bound, rfl⟩ := exists_bound hbound
    obtain ⟨c, s, hcs, hc⟩ := toString_head n
    have htext : print level (int n) = (toString n).toList := rfl
    refine ⟨?_, fun rest hrest => ?_⟩
    · rw [htext, hcs]
      exact (readValue_numeral hc 0 s).1
    · have hread := readInt_toString n hrest
      rw [hcs, List.cons_append] at hread
      rw [htext, hcs, List.cons_append, (readValue_numeral hc bound _).2, hread]
      rfl
  | str s, _, level, bound, hbound => by
    obtain ⟨bound, rfl⟩ := exists_bound hbound
    refine ⟨rfl, fun rest _ => ?_⟩
    have hread : readValue (bound + 1) (string s ++ rest) =
        (readString (string s ++ rest)).map fun (t, s) => (str t, s) := rfl
    rw [print, hread, readString_string]
    rfl
  | arr items, h, level, bound, hbound => by
    obtain ⟨bound, rfl⟩ := exists_bound hbound
    have hitems := printItems_reads items h (level + 1) bound fun line hline =>
      Nat.le_of_lt_succ ((length_lt_enclose level hline).trans_le hbound)
    refine ⟨opens_enclose (.inl rfl) level _, fun rest _ => ?_⟩
    obtain ⟨s, hs, hread⟩ := readEnclosed_enclose '[' level (.inl rfl) hitems rest
    rw [print, hs, readValue, hread]
    rfl
  | obj fields, h, level, bound, hbound => by
    obtain ⟨bound, rfl⟩ := exists_bound hbound
    have hfields := printFields_reads fields h.2 (level + 1) bound fun line hline =>
      Nat.le_of_lt_succ ((length_lt_enclose level hline).trans_le hbound)
    refine ⟨opens_enclose (.inr rfl) level _, fun rest _ => ?_⟩
    obtain ⟨s, hs, hread⟩ := readEnclosed_enclose '\x7b' level (.inr rfl) hfields rest
    rw [print, hs, readValue, hread]
    simp [h.1]

theorem printItems_reads : (items : List Json) → DistinctAll items → (level bound : Nat) →
    (∀ line ∈ printItems level items, line.length ≤ bound) →
    List.Forall₂ (ReadsAs (readValue bound)) (printItems level items) items
  | [], _, _, _, _ => .nil
  | v :: items, h, level, bound, hbound => by
    obtain ⟨hv, hmore⟩ := List.forall_mem_cons.mp hbound
    exact .cons (print_reads v h.1 level bound hv) (printItems_reads items h.2 level bound hmore)

theorem printFields_reads : (fields : List (String × Json)) → DistinctFields fields →
    (level bound : Nat) → (∀ line ∈ printFields level fields, line.length ≤ bound) →
    List.Forall₂ (ReadsAs (readField (readValue bound))) (printFields level fields) fields
  | [], _, _, _, _ => .nil
  | (key, v) :: fields, h, level, bound, hbound => by
    obtain ⟨hv, hmore⟩ := List.forall_mem_cons.mp hbound
    rw [List.length_append, List.length_cons, List.length_cons] at hv
    exact .cons (readsAs_field (print_reads v h.1 level bound (by omega)) key)
      (printFields_reads fields h.2 level bound hmore)
end

/-- A text of one value and a line feed is read as the value. -/
theorem read?_render {v : Json} (h : v.Distinct) : read? (v.render ++ "\n") = some v := by
  have htext : (v.render ++ "\n").toList = print 0 v ++ ['\n'] := by
    rw [String.toList_append, render, String.toList_ofList]
    rfl
  have hlength : (print 0 v).length ≤ (v.render ++ "\n").length := by
    rw [← String.length_toList, htext, List.length_append]
    exact Nat.le_add_right _ _
  obtain ⟨hopens, hreads⟩ := print_reads v h 0 _ hlength
  rw [read?, htext, skipSpaces_of_head (hopens.append _).1, hreads ['\n'] rfl]
  rfl

end Mermaid.Json
