import Mermaid.Proofs.Token.Tiling

/-! Ways that patterns go through a text. Of two patterns that match the same text, the one whose ways
outrun those of the other takes more of it. -/
namespace Mermaid.Pattern

/-- One character, or as many of one character as there are, and no fewer than `least`. -/
inductive Step
  | char (c : Char)
  | run (c : Char) (least : Nat)

/-- The ways in which a pattern can match, without what it looks ahead for. -/
def routes : Pattern → List (List Step)
  | text chars => [chars.map .char]
  | run c least => [[.run c least]]
  | ahead _ | notAhead _ => [[]]
  | seq p q => p.routes.flatMap fun r => q.routes.map (r ++ ·)
  | either p q => p.routes ++ q.routes

namespace Step

/-- How many characters `c` the text begins with. -/
def runOf (c : Char) (s : List Char) : Nat := (s.takeWhile (· == c)).length

theorem runOf_cons (c : Char) (s : List Char) : runOf c (c :: s) = runOf c s + 1 := by simp [runOf]

theorem runOf_cons_of_ne {c d : Char} (h : d ≠ c) (s : List Char) : runOf c (d :: s) = 0 := by
  simp [runOf, h]

/-- How many characters the steps take from the head of the text. -/
def length? : List Step → List Char → Option Nat
  | [], _ => some 0
  | char _ :: _, [] => none
  | char c :: r, d :: s => if d = c then (length? r s).map (1 + ·) else none
  | run c least :: r, s =>
    if least ≤ runOf c s then (length? r (s.drop (runOf c s))).map (runOf c s + ·) else none

/-- How many characters the steps take at least. -/
def least : List Step → Nat
  | [] => 0
  | char _ :: r => 1 + least r
  | run _ n :: r => n + least r

/-- What is left of a run of `c` and of the steps beside it, behind the single characters `c` that these
begin with. -/
def race (c : Char) (n : Nat) : List Step → Nat × List Step
  | char d :: r => if d = c then race c (n - 1) r else (n, char d :: r)
  | r => (n, r)

/-- Whether the steps take more of every text than the others do, where both match; they are followed
side by side up to a character at which no text can go both ways, or to the end of the others. -/
def outrun : List Step → List Step → Bool
  | [], _ => false
  | char _ :: _, [] => true
  | char c :: p, char d :: q => c != d || outrun p q
  | char c :: p, run d n :: q => if c = d then outrun p (run d (n - 1) :: q) else 0 < n
  | run c n :: p, q =>
    match race c n q with
    | (n, []) => 0 < n + least p
    | (n, char _ :: _) => 0 < n
    | (n, run d n' :: q) => if c = d then outrun p q else 0 < n && 0 < n'

theorem least_le {r : List Step} {s : List Char} {a : Nat} (h : length? r s = some a) : least r ≤ a := by
  fun_induction length? r s generalizing a with
  | case1 => exact Nat.zero_le a
  | case2 => cases h
  | case3 c r s ih =>
    obtain ⟨b, hb, rfl⟩ := Option.map_eq_some_iff.mp h
    exact Nat.add_le_add_left (ih hb) 1
  | case4 => cases h
  | case5 c n r s hn ih =>
    obtain ⟨b, hb, rfl⟩ := Option.map_eq_some_iff.mp h
    exact Nat.add_le_add hn (ih hb)
  | case6 => cases h

/-- A run goes over its character with what is left of it. -/
theorem length?_run_cons (c : Char) (n : Nat) (r : List Step) (s : List Char) :
    length? (run c n :: r) (c :: s) = (length? (run c (n - 1) :: r) s).map (1 + ·) := by
  simp only [length?, runOf_cons, List.drop_succ_cons, Nat.sub_le_iff_le_add]
  split
  · simp [Function.comp_def, Nat.add_comm, Nat.add_left_comm]
  · rfl

theorem exists_of_char {c : Char} {r : List Step} {s : List Char} {a : Nat}
    (h : length? (char c :: r) s = some a) : ∃ t b, s = c :: t ∧ length? r t = some b ∧ a = 1 + b := by
  cases s with
  | nil => cases h
  | cons d t =>
    simp only [length?, Option.ite_none_right_eq_some] at h
    obtain ⟨rfl, h⟩ := h
    obtain ⟨b, hb, rfl⟩ := Option.map_eq_some_iff.mp h
    exact ⟨t, b, rfl, hb, rfl⟩

theorem exists_of_run {c : Char} {n : Nat} {r : List Step} {s : List Char} {a : Nat}
    (h : length? (run c n :: r) s = some a) :
    n ≤ runOf c s ∧ ∃ b, length? r (s.drop (runOf c s)) = some b ∧ a = runOf c s + b := by
  simp only [length?, Option.ite_none_right_eq_some] at h
  obtain ⟨b, hb, rfl⟩ := Option.map_eq_some_iff.mp h.2
  exact ⟨h.1, b, hb, rfl⟩

/-- A run that is not empty begins the text with its character. -/
theorem head?_of_run {c : Char} {n : Nat} {r : List Step} {s : List Char} {a : Nat}
    (h : length? (run c n :: r) s = some a) (hn : 0 < n) : s.head? = some c := by
  have hcount := (exists_of_run h).1
  cases s with
  | nil => exact absurd (hn.trans_le hcount) (by simp [runOf])
  | cons d s =>
    by_contra hd
    rw [runOf_cons_of_ne (by simpa using hd)] at hcount
    omega

/-- Behind the characters that a run and the steps beside it have in common, both go on. -/
theorem race_spec {c : Char} {n : Nat} {p q : List Step} {s : List Char} {a b : Nat}
    (hp : length? (run c n :: p) s = some a) (hq : length? q s = some b) : ∃ t k a' b',
      length? (run c (race c n q).1 :: p) t = some a' ∧ length? (race c n q).2 t = some b' ∧
        a = k + a' ∧ b = k + b' := by
  induction q generalizing n s a b with
  | nil => exact ⟨s, 0, a, b, hp, hq, by simp⟩
  | cons step q ih =>
    cases step with
    | run d m => exact ⟨s, 0, a, b, hp, hq, by simp⟩
    | char d =>
      rw [race]
      split
      · rename_i hd
        obtain ⟨t, b', rfl, hq', rfl⟩ := exists_of_char hq
        subst hd
        rw [length?_run_cons] at hp
        obtain ⟨a', ha', rfl⟩ := Option.map_eq_some_iff.mp hp
        obtain ⟨u, k, x, y, hx, hy, rfl, rfl⟩ := ih ha' hq'
        exact ⟨u, 1 + k, x, y, hx, hy, by omega, by omega⟩
      · exact ⟨s, 0, a, b, hp, hq, by simp⟩

theorem race_char {c d : Char} {n m : Nat} {p q : List Step} (h : race c n q = (m, char d :: p)) : d ≠ c := by
  fun_induction race c n q with
  | case1 n q ih => exact ih h
  | case2 n e q he =>
    obtain ⟨-, hq⟩ := Prod.mk.inj h
    obtain ⟨rfl, -⟩ : e = d ∧ q = p := by simpa using hq
    exact he
  | case3 n q hq =>
    obtain ⟨-, rfl⟩ := Prod.mk.inj h
    exact absurd rfl (hq d p)

/-- Steps that outrun others take more of a text that both can go through. -/
theorem lt_of_outrun {p q : List Step} (h : outrun p q) {s : List Char} {a b : Nat}
    (hp : length? p s = some a) (hq : length? q s = some b) : b < a := by
  fun_induction outrun p q generalizing s a b with
  | case1 => cases h
  | case2 c p =>
    obtain ⟨t, a', rfl, -, rfl⟩ := exists_of_char hp
    obtain rfl := Option.some.inj hq
    omega
  | case3 c p d q ih =>
    obtain ⟨t, a', rfl, hp', rfl⟩ := exists_of_char hp
    obtain ⟨t', b', heq, hq', rfl⟩ := exists_of_char hq
    obtain ⟨rfl, rfl⟩ := List.cons.inj heq
    have hless := ih (by simpa using h) hp' hq'
    omega
  | case4 p d n q ih =>
    obtain ⟨t, a', rfl, hp', rfl⟩ := exists_of_char hp
    rw [length?_run_cons] at hq
    obtain ⟨b', hq', rfl⟩ := Option.map_eq_some_iff.mp hq
    have hless := ih h hp' hq'
    omega
  | case5 c p d n q hne =>
    obtain ⟨t, a', rfl, -, -⟩ := exists_of_char hp
    exact absurd (Option.some.inj (head?_of_run hq (by simpa using h))) hne
  | case6 c n p q m hrace =>
    obtain ⟨t, k, a', b', hp', hq', rfl, rfl⟩ := race_spec hp hq
    rw [hrace] at hp' hq'
    obtain rfl := Option.some.inj hq'
    have hleast := least_le hp'
    simp only [least, decide_eq_true_eq] at hleast h
    omega
  | case7 c n p q m d r hrace =>
    obtain ⟨t, k, a', b', hp', hq', rfl, rfl⟩ := race_spec hp hq
    rw [hrace] at hp' hq'
    obtain ⟨u, -, rfl, -⟩ := exists_of_char hq'
    have hd := head?_of_run hp' (by simpa using h)
    exact absurd (Option.some.inj hd) (race_char hrace)
  | case8 n p q m d m' r hrace ih =>
    obtain ⟨t, k, a', b', hp', hq', rfl, rfl⟩ := race_spec hp hq
    rw [hrace] at hp' hq'
    obtain ⟨-, x, hx, rfl⟩ := exists_of_run hp'
    obtain ⟨-, y, hy, rfl⟩ := exists_of_run hq'
    have hless := ih h hx hy
    omega
  | case9 c n p q m d m' r hrace hne =>
    obtain ⟨t, k, a', b', hp', hq', rfl, rfl⟩ := race_spec hp hq
    rw [hrace] at hp' hq'
    simp only [Bool.and_eq_true, decide_eq_true_eq] at h
    have hd := (head?_of_run hp' h.1).symm.trans (head?_of_run hq' h.2)
    exact absurd (Option.some.inj hd) hne

/-- Steps go on where others end. -/
theorem length?_append {r r' : List Step} {s : List Char} {n m : Nat} (hr : length? r s = some n)
    (hr' : length? r' (s.drop n) = some m) : length? (r ++ r') s = some (n + m) := by
  fun_induction length? r s generalizing n with
  | case1 s =>
    obtain rfl := Option.some.inj hr
    simpa using hr'
  | case2 => cases hr
  | case3 c r s ih =>
    obtain ⟨k, hk, rfl⟩ := Option.map_eq_some_iff.mp hr
    rw [Nat.add_comm 1, List.drop_succ_cons] at hr'
    rw [List.cons_append, length?, if_pos rfl, ih hk hr', Option.map_some, Nat.add_assoc]
  | case4 => cases hr
  | case5 c least r s hleast ih =>
    obtain ⟨k, hk, rfl⟩ := Option.map_eq_some_iff.mp hr
    rw [← List.drop_drop] at hr'
    rw [List.cons_append, length?, if_pos hleast, ih hk hr', Option.map_some, Nat.add_assoc]
  | case6 => cases hr

theorem length?_char (chars rest : List Char) :
    length? (chars.map char) (chars ++ rest) = some chars.length := by
  induction chars with
  | nil => simp [length?]
  | cons c chars ih =>
    rw [List.map_cons, List.cons_append, length?, if_pos rfl, ih, Option.map_some, List.length_cons,
      Nat.add_comm]

end Step

/-- A match goes one of the ways of its pattern. -/
theorem exists_route {p : Pattern} {s : List Char} {n : Nat} (h : p.length? s = some n) :
    ∃ r ∈ p.routes, Step.length? r s = some n := by
  induction p generalizing s n with
  | text chars =>
    simp only [length?, Option.ite_none_right_eq_some, Option.some.injEq] at h
    obtain ⟨hstart, rfl⟩ := h
    obtain ⟨rest, rfl⟩ := List.isPrefixOf_iff_prefix.mp hstart
    exact ⟨_, List.mem_singleton_self _, Step.length?_char chars rest⟩
  | run c least =>
    simp only [length?, Option.ite_none_right_eq_some, Option.some.injEq] at h
    obtain ⟨hleast, rfl⟩ := h
    exact ⟨_, List.mem_singleton_self _, if_pos hleast⟩
  | ahead inClass =>
    simp only [length?, Option.ite_none_right_eq_some] at h
    exact ⟨[], List.mem_singleton_self _, h.2⟩
  | notAhead inClass =>
    simp only [length?, Option.ite_none_left_eq_some] at h
    exact ⟨[], List.mem_singleton_self _, h.2⟩
  | seq p q ihp ihq =>
    have hseq : (p.length? s).bind (fun n => (q.length? (s.drop n)).map (n + ·)) = some n :=
      (length?_append p q s).symm.trans h
    obtain ⟨k, hk, hq⟩ := Option.bind_eq_some_iff.mp hseq
    obtain ⟨m, hm, rfl⟩ := Option.map_eq_some_iff.mp hq
    obtain ⟨r, hr, hrs⟩ := ihp hk
    obtain ⟨r', hr', hrs'⟩ := ihq hm
    exact ⟨r ++ r', List.mem_flatMap.mpr ⟨r, hr, List.mem_map_of_mem hr'⟩, Step.length?_append hrs hrs'⟩
  | either p q ihp ihq =>
    rw [length?, Option.or_eq_some_iff] at h
    rcases h with h | ⟨-, h⟩
    · obtain ⟨r, hr, hrs⟩ := ihp h
      exact ⟨r, List.mem_append_left _ hr, hrs⟩
    · obtain ⟨r, hr, hrs⟩ := ihq h
      exact ⟨r, List.mem_append_right _ hr, hrs⟩

/-- Whether all ways of a pattern outrun all ways of another. -/
def outruns (p q : Pattern) : Bool := p.routes.all fun r => q.routes.all (Step.outrun r)

theorem lt_of_outruns {p q : Pattern} (h : p.outruns q) {s : List Char} {n m : Nat}
    (hp : p.length? s = some n) (hq : q.length? s = some m) : m < n := by
  obtain ⟨r, hr, hrs⟩ := exists_route hp
  obtain ⟨r', hr', hrs'⟩ := exists_route hq
  exact Step.lt_of_outrun (List.all_eq_true.mp (List.all_eq_true.mp h r hr) r' hr') hrs hrs'

end Mermaid.Pattern
