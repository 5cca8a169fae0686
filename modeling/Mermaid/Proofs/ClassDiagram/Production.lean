import Mermaid.Proofs.ClassDiagram.Body
import Mermaid.Proofs.Registry

/-! What reading one member of a class takes and adds, wherever the reader stands. The body of a class
rests on it: where nothing is taken nothing is added, and one token is passed over there. -/
namespace Mermaid.ClassDiagram
open Rule

/-- Where a member ends: at the end of the text or of the line, before a closing brace, and before the
marker of another member, which a hyphen is before a word. -/
inductive MemberEnd : List Token → Prop
  | text : MemberEnd []
  | line {t : Token} {ts : List Token} (h : t.kind = .newline) : MemberEnd (t :: ts)
  | brace {t : Token} {ts : List Token} (h : t.kind = .closeCurly) : MemberEnd (t :: ts)
  | marker {t : Token} {ts : List Token} (h : t.kind ∈ [TokenKind.plus, .hash, .tilde]) :
      MemberEnd (t :: ts)
  | hyphen {t u : Token} {ts : List Token} (h : t.kind = .minus) (hu : u.isWord) : MemberEnd (t :: u :: ts)

namespace MemberLine

theorem memberEnd_of_ends {ts : List Token} (h : ends ts) : MemberEnd ts := by
  cases ts with
  | nil => exact .text
  | cons t ts =>
    rw [ends] at h
    split at h
    · next hk => exact .line hk
    · next hk => exact .brace hk
    · next hk => exact .marker (by simp [hk])
    · next hk => exact .marker (by simp [hk])
    · next hk => exact .marker (by simp [hk])
    · next hk =>
      cases ts with
      | nil => cases h
      | cons u us => exact .hyphen hk h
    · cases h

theorem ends_rest (ts : List Token) : ends (rest ts).2 := by
  induction ts with
  | nil => rfl
  | cons t ts ih =>
    rw [rest]
    split
    · assumption
    · exact ih

/-- What a reader of members can find in the tokens `ts`, and which tokens it leaves. -/
inductive Finds (ts : List Token) : MemberLine → List Token → Prop
  | nothing {left : List Token} (h : left <:+ ts) : Finds ts .nothing left
  | stereotype {t : Token} {more left : List Token} {text : String} (hts : t :: more = ts)
      (h : left <:+ more) : Finds ts (.stereotype text) left
  | member {name : Token} {front behind left : List Token} {m : Member} (hts : front ++ name :: behind = ts)
      (hword : name.isWord) (hname : m.name = name.lexeme) (h : left <:+ behind) (hend : MemberEnd left) :
      Finds ts (.member m) left

theorem finds_read (ts : List Token) : Finds ts (read ts).1 (read ts).2 := by
  cases ts with
  | nil => exact .nothing List.nil_suffix
  | cons t more =>
    rw [read]
    split
    · exact .stereotype rfl (reads_stereotypeText more)
    cases hv : visibility (t :: more) with
    | none => exact .nothing (List.suffix_refl _)
    | some p =>
      obtain ⟨v, left⟩ := p
      have htype := (reads_leadingType left).trans (visibility_suffix hv)
      simp only
      cases hl : leadingType left with
      | mk type left =>
        rw [hl] at htype
        cases left with
        | nil => exact .nothing List.nil_suffix
        | cons name behind =>
          simp only
          split
          · next hword =>
            obtain ⟨front, hfront⟩ := htype
            exact .member hfront hword rfl (reads_named v type name behind)
              (memberEnd_of_ends (ends_rest _))
          · exact .nothing htype

/-- No tokens are taken only where nothing is found. -/
theorem Finds.eq_nothing {ts : List Token} {said : MemberLine} (h : Finds ts said ts) : said = .nothing := by
  cases h with
  | nothing => rfl
  | stereotype hts h =>
    subst hts
    exact absurd h.length_le (Nat.not_succ_le_self _)
  | member hts _ _ h _ =>
    subst hts
    have hlength := h.length_le
    rw [List.length_append, List.length_cons] at hlength
    omega

end MemberLine

/-- A member is read where tokens are taken up to the end of a member, a word that names it among them. -/
structure Yields (s : Stream) (ts taken left : List Token) (m : Member) : Prop where
  moved : s.index ts < s.index left
  named : ∃ t ∈ taken, t.isWord ∧ m.name = t.lexeme
  ended : MemberEnd left

/-- What reading a member for the class `owner` comes to, with `taken` the tokens that it takes. -/
structure Production (owner : String) (s : Stream) (ts taken : List Token) : Prop where
  outcome : (Grammar.member owner s ts).outcome = .done ()
  passed : taken ++ (Grammar.member owner s ts).rest = ts
  line : ∀ t ∈ taken, t.kind ≠ .newline ∧ t.kind ≠ .eof
  forward : s.index ts ≤ s.index (Grammar.member owner s ts).rest
  idle : s.index (Grammar.member owner s ts).rest = s.index ts →
    ∀ d : ClassDiagram, d.applyAll (Grammar.member owner s ts).events = d
  added : ∀ (d : ClassDiagram) c, d.findClass? owner = some c →
    ∃ c', (d.applyAll (Grammar.member owner s ts).events).findClass? owner = some c' ∧
      (c'.members = c.members ∨ ∃ m, c'.members = c.members ++ [m] ∧
        Yields s ts taken (Grammar.member owner s ts).rest m)

/-- How the body of the class `owner` goes through its tokens, one after the other and without a bound on
the rounds: what is blank and what begins no member is passed over, and the rest is taken by members. -/
inductive Visits (owner : String) (s : Stream) : List Token → Reply Event Unit → Prop
  | stop {ts : List Token} (h : ∀ t ∈ ts.head?, t.kind = .closeCurly ∨ t.kind = .classWord) :
      Visits owner s ts ⟨[], .done (), ts⟩
  | blank {t : Token} {ts : List Token} {r : Reply Event Unit}
      (h : t.kind = .newline ∨ t.kind = .comment) (more : Visits owner s ts r) : Visits owner s (t :: ts) r
  | member {t : Token} {ts : List Token} {r : Reply Event Unit}
      (h : t.kind ∉ [TokenKind.closeCurly, .classWord, .newline, .comment])
      (hleft : (Grammar.member owner s (t :: ts)).rest <:+ ts)
      (more : Visits owner s (Grammar.member owner s (t :: ts)).rest r) :
      Visits owner s (t :: ts) (r.after (Grammar.member owner s (t :: ts)).events)
  | stray {t : Token} {ts : List Token} {r : Reply Event Unit}
      (h : t.kind ∉ [TokenKind.closeCurly, .classWord, .newline, .comment])
      (hleft : (Grammar.member owner s (t :: ts)).rest = t :: ts) (more : Visits owner s ts r) :
      Visits owner s (t :: ts) r

theorem Visits.rest {owner : String} {s : Stream} {ts : List Token} {r : Reply Event Unit}
    (h : Visits owner s ts r) : r.outcome = .done () ∧ r.rest <:+ ts ∧
      ∀ t ∈ r.rest.head?, t.kind = .closeCurly ∨ t.kind = .classWord := by
  induction h with
  | stop h => exact ⟨rfl, List.suffix_refl _, h⟩
  | blank _ _ ih => exact ⟨ih.1, ih.2.1.trans (List.suffix_cons _ _), ih.2.2⟩
  | member _ hleft _ ih => exact ⟨ih.1, ih.2.1.trans (hleft.trans (List.suffix_cons _ _)), ih.2.2⟩
  | stray _ _ _ ih => exact ⟨ih.1, ih.2.1.trans (List.suffix_cons _ _), ih.2.2⟩

section production
variable {s : Stream} {ts taken left : List Token} {owner : String}

theorem MemberLine.Finds.yields {m : Member} (h : Finds ts (.member m) left) (hts : ts <:+ s.tokens)
    (htaken : taken ++ left = ts) : Yields s ts taken left m := by
  cases h with
  | @member name front behind _ _ hsplit hword hname hleft hend =>
    have hbehind : name :: behind <:+ ts := ⟨front, hsplit⟩
    refine ⟨?_, ⟨name, ?_, hword, hname⟩, hend⟩
    · exact (Stream.index_le_index hbehind).trans_lt (Stream.index_lt_index (hbehind.trans hts) hleft)
    · obtain ⟨mid, rfl⟩ := hleft
      have hsame : taken ++ left = (front ++ name :: mid) ++ left := by
        rw [htaken, ← hsplit, List.append_assoc, List.cons_append]
      rw [List.append_cancel_right hsame]
      exact List.mem_append_right front List.mem_cons_self

/-- The class that is read for has the members that it had, and one more if one was read. -/
theorem exists_findClass?_applyAll (said : MemberLine) {d : ClassDiagram} {c : Classifier}
    (hc : d.findClass? owner = some c) :
    ∃ c', (d.applyAll (said.events owner)).findClass? owner = some c' ∧
      (c'.members = c.members ∨ ∃ m, said = .member m ∧ c'.members = c.members ++ [m]) := by
  have hupdate : ∀ change, (d.classes.update owner change).find? owner = some (change c) := by
    intro change
    rw [Registry.find?_update]
    exact congrArg (Option.map change) hc
  cases said with
  | nothing => exact ⟨c, hc, .inl rfl⟩
  | stereotype text => exact ⟨_, hupdate _, .inl rfl⟩
  | member m => exact ⟨_, hupdate _, .inr ⟨m, rfl, rfl⟩⟩

theorem exists_production (owner : String) (heof : ∀ t ∈ s.tokens, t.kind ≠ .eof)
    (hts : ts <:+ s.tokens) : ∃ taken, Production owner s ts taken := by
  obtain ⟨taken, htaken, hline⟩ := MemberLine.readsLine_read.exists_taken MemberLine.reads_read ts
  have hrest := MemberLine.reads_read ts
  have hfinds := MemberLine.finds_read ts
  have hmember := Grammar.member_eq (s := s) owner ts
  refine ⟨taken, by rw [hmember], by rw [hmember, htaken], ?_, ?_, ?_, ?_⟩
  · intro t ht
    exact ⟨hline t ht, heof t (hts.subset (htaken ▸ List.mem_append_left _ ht))⟩
  · rw [hmember]
    exact Stream.index_le_index hrest
  · rw [hmember]
    intro hindex d
    have hstay := Stream.eq_of_index_eq hts hrest hindex
    rw [hstay] at hfinds
    rw [hfinds.eq_nothing]
    rfl
  · rw [hmember]
    intro d c hc
    obtain ⟨c', hc', hsame | ⟨m, hm, hmore⟩⟩ := exists_findClass?_applyAll (MemberLine.read ts).1 hc
    · exact ⟨c', hc', .inl hsame⟩
    · rw [hm] at hfinds
      exact ⟨c', hc', .inr ⟨m, hmore, hfinds.yields hts htaken⟩⟩

end production

namespace Grammar

/-- The body visits its tokens one by one: the induction is on how many there are. -/
theorem visits_body (owner : String) (s : Stream) (ts : List Token) : Visits owner s ts (body owner s ts) := by
  induction hn : ts.length using Nat.strongRecOn generalizing ts with
  | ind n ih =>
    cases ts with
    | nil =>
      rw [body_stop (by simp)]
      exact .stop (by simp)
    | cons t ts =>
      have hlength : ts.length < n := hn ▸ Nat.lt_succ_self _
      cases hend : endsBody t with
      | true =>
        rw [body_stop (by simpa using hend)]
        exact .stop (by simpa [endsBody] using hend)
      | false =>
      cases ht : separates t with
      | true =>
        rw [body_separates ht]
        exact .blank (by simpa [separates] using ht) (ih _ hlength ts rfl)
      | false =>
        have hkind : t.kind ∉ [TokenKind.closeCurly, .classWord, .newline, .comment] := by
          simp_all [endsBody, separates]
        rw [body_cons ht hend]
        rcases List.suffix_cons_iff.mp (MemberLine.reads_read (t :: ts)) with hstay | hleft
        · have hfinds := MemberLine.finds_read (t :: ts)
          rw [hstay] at hfinds
          rw [pastRound_stuck hstay, hfinds.eq_nothing]
          exact .stray hkind (by rw [member_eq, hstay]) (ih _ hlength ts rfl)
        · have hrest : (member owner s (t :: ts)).rest <:+ ts := by rwa [member_eq]
          have hvisits := Visits.member hkind hrest (ih _ (hrest.length_le.trans_lt hlength) _ rfl)
          rw [pastRound_moved hleft]
          rwa [member_eq] at hvisits

end Grammar

/-- Reading a member ends wherever it begins. It takes tokens of its line only, adds no more than one
member and nothing where it takes nothing, and a member that it adds is named by a word that it takes and
is read to its end. So the body of a class is over too, once each of its tokens is visited up to a closing
brace, the declaration of another class, or the end of the text. -/
theorem members_progress (owner : String) {s : Stream} {ts : List Token}
    (heof : ∀ t ∈ s.tokens, t.kind ≠ .eof) (hts : ts <:+ s.tokens) :
    (∃ taken, Production owner s ts taken) ∧
    Visits owner s ts (Grammar.body owner s ts) ∧
    (Grammar.body owner s ts).outcome = .done () ∧ (Grammar.body owner s ts).rest <:+ ts ∧
      ∀ t ∈ (Grammar.body owner s ts).rest.head?, t.kind = .closeCurly ∨ t.kind = .classWord :=
  have hvisits := Grammar.visits_body owner s ts
  ⟨exists_production owner heof hts, hvisits, hvisits.rest⟩

/-- A line of two members, a stereotype, and a hyphen that is no marker. -/
def membersText : String := "+id int -name: text\n<<shape>>\n- , $\n\x7d\n"

theorem members_progress_membersText :
    let s := Stream.ofText membersText
    (∀ t ∈ s.tokens, t.kind ≠ .eof) ∧ s.tokens <:+ s.tokens ∧
      (∃ taken, Production "A" s s.tokens taken) ∧ Visits "A" s s.tokens (Grammar.body "A" s s.tokens) ∧
      (Grammar.body "A" s s.tokens).events =
        [.member "A" { name := "int", type := some "id" },
          .member "A" { name := "name", visibility := .privately, type := some "text" },
          .stereotype "A" "shape"] ∧
      (Grammar.body "A" s s.tokens).rest.map (·.kind) = [.closeCurly, .newline] := by
  intro s
  have heof : ∀ t ∈ s.tokens, t.kind ≠ .eof := by decide +kernel
  have hprogress := members_progress "A" heof (List.suffix_refl _)
  exact ⟨heof, List.suffix_refl _, hprogress.1, hprogress.2.1, by decide +kernel, by decide +kernel⟩

end Mermaid.ClassDiagram
