import Mathlib.Data.List.Basic
import Mermaid.CommandLine.Workspace

/-! What is written to a file is read from it, and the other files stay as they are. -/
namespace Mermaid.CommandLine.Workspace

variable {w w' : Workspace} {path other : Path} {content : ByteArray} {name : String}

theorem isDirectory_iff : w.isDirectory path ↔
    (∃ dir ∈ w.directories, path <+: dir) ∨ ∃ file ∈ w.files, path <+: file.1.dropLast := by
  simp [isDirectory, List.any_append]

theorem isDirectory_above (h : other <+: path) (hpath : w.isDirectory path) : w.isDirectory other := by
  rw [isDirectory_iff] at hpath ⊢
  rcases hpath with ⟨dir, hdir, hprefix⟩ | ⟨file, hfile, hprefix⟩
  · exact .inl ⟨dir, hdir, h.trans hprefix⟩
  · exact .inr ⟨file, hfile, h.trans hprefix⟩

/-- A file has the content that was put there last. -/
theorem lookup_put (path other : Path) : (w.put path content).files.lookup other =
    if other = path then some content else w.files.lookup other := by
  have hothers : ∀ files : List (Path × ByteArray), (files.filter (·.1 ≠ path)).lookup other =
      if other = path then none else files.lookup other := by
    intro files
    induction files with
    | nil => simp
    | cons file files ih =>
      obtain ⟨key, bytes⟩ := file
      by_cases hkey : key = path
      · rw [List.filter_cons_of_neg (by simp [hkey]), ih, List.lookup_cons, hkey]
        by_cases hother : other = path
        · simp [hother]
        · simp [hother, beq_eq_false_iff_ne.mpr hother]
      · rw [List.filter_cons_of_pos (by simp [hkey]), List.lookup_cons, List.lookup_cons, ih]
        by_cases hother : other = key
        · simp [hother, hkey]
        · simp [beq_eq_false_iff_ne.mpr hother]
  rw [put, List.lookup_append, hothers, List.lookup_cons]
  by_cases hother : other = path
  · simp [hother]
  · simp [hother, beq_eq_false_iff_ne.mpr hother]

/-- The directory of a path, which is the path without its last part, is there. -/
def HasParent (w : Workspace) (path : Path) : Prop := path.dropLast = [] ∨ w.isDirectory path.dropLast

/-- A file in a directory that is there makes no other directory. -/
theorem isDirectory_put (h : w.HasParent path) (hother : other ≠ []) :
    (w.put path content).isDirectory other = w.isDirectory other := by
  rw [Bool.eq_iff_iff]
  constructor
  · intro hnow
    rcases isDirectory_iff.mp hnow with hdir | ⟨file, hfile, hprefix⟩
    · exact isDirectory_iff.mpr (.inl hdir)
    · rcases List.mem_append.mp hfile with hfile | hfile
      · exact isDirectory_iff.mpr (.inr ⟨file, (List.mem_filter.mp hfile).1, hprefix⟩)
      · obtain rfl := List.mem_singleton.mp hfile
        rcases h with hroot | hparent
        · rw [hroot] at hprefix
          exact absurd (List.prefix_nil.mp hprefix) hother
        · exact isDirectory_above hprefix hparent
  · intro hbefore
    rcases isDirectory_iff.mp hbefore with hdir | ⟨file, hfile, hprefix⟩
    · exact isDirectory_iff.mpr (.inl hdir)
    · refine isDirectory_iff.mpr (.inr ?_)
      by_cases hsame : file.1 = path
      · exact ⟨(path, content), by simp [put], hsame ▸ hprefix⟩
      · exact ⟨file, by simp [put, hfile, hsame], hprefix⟩

/-- What is at a path that is no directory. -/
def placeAt (w : Workspace) (path : Path) : Place :=
  if (w.files.lookup path).isSome then .file path else .vacant path

/-- The path that a place has if it is no directory. -/
def Place.path? : Place → Option Path
  | .directory => none
  | .file path | .vacant path => some path

theorem placeAt_path? : (w.placeAt path).path? = some path := by
  rw [placeAt]
  split <;> rfl

theorem placeAt_put (content : ByteArray) : (w.put path content).placeAt path = .file path := by
  simp [placeAt, lookup_put]

/-- The ways on which a place is reached: each part of the name stays in the directory, leaves it, or goes
down into one that is there, up to a file or to a name that nothing has. -/
inductive Reaches (w : Workspace) : Option Path → List String → Place → Prop
  | arrive {here : Option Path} : Reaches w here [] .directory
  | stay {here : Option Path} {part : String} {rest : List String} {place : Place}
      (hpart : part = "" ∨ part = ".") (more : Reaches w here rest place) :
      Reaches w here (part :: rest) place
  | leave {here : Option Path} {rest : List String} {place : Place}
      (more : Reaches w (here.bind fun dir => if dir = [] then none else some dir.dropLast) rest place) :
      Reaches w here (".." :: rest) place
  | descend {dir : Path} {part : String} {rest : List String} {place : Place}
      (hpart : part ≠ "" ∧ part ≠ "." ∧ part ≠ "..") (hdir : w.isDirectory (dir ++ [part]))
      (more : Reaches w (some (dir ++ [part])) rest place) : Reaches w (some dir) (part :: rest) place
  | find {dir : Path} {part : String} (hpart : part ≠ "" ∧ part ≠ "." ∧ part ≠ "..")
      (hdir : w.isDirectory (dir ++ [part]) = false) (hlength : part.utf8ByteSize ≤ partLimit) :
      Reaches w (some dir) [part] (w.placeAt (dir ++ [part]))

theorem walk_some {dir : Path} {part : String} {rest : List String}
    (hpart : part ≠ "" ∧ part ≠ "." ∧ part ≠ "..") : w.walk (some dir) (part :: rest) =
      if w.isDirectory (dir ++ [part]) then w.walk (some (dir ++ [part])) rest
      else if rest ≠ [] && rest.all (· = "") then .error .isDirectory
      else if partLimit < part.utf8ByteSize then .error .nameTooLong
      else if rest = [] then .ok (w.placeAt (dir ++ [part]))
      else .error (if (w.files.lookup (dir ++ [part])).isSome then .notDirectory else .notFound) := by
  rw [walk, if_neg (by simp [hpart]), if_neg (by simp [hpart])]
  cases rest <;> cases hfile : (w.files.lookup (dir ++ [part])).isSome <;> simp [placeAt, hfile]

theorem walk_iff {here : Option Path} {parts : List String} {place : Place} :
    w.walk here parts = .ok place ↔ w.Reaches here parts place := by
  constructor
  · intro h
    induction parts generalizing here with
    | nil =>
      simp only [walk] at h
      cases h
      exact .arrive
    | cons part rest ih =>
      by_cases hstay : part = "" ∨ part = "."
      · refine .stay hstay (ih ?_)
        cases here <;> simpa [walk, hstay] using h
      by_cases hleave : part = ".."
      · subst hleave
        refine .leave (ih ?_)
        cases here <;> simpa [walk] using h
      have hpart : part ≠ "" ∧ part ≠ "." ∧ part ≠ ".." := by simp_all
      cases here with
      | none => simp [walk, hpart] at h
      | some dir =>
        rw [walk_some hpart] at h
        split_ifs at h with hdir hslash hlength
        · exact .descend hpart hdir (ih h)
        · subst rest
          cases h
          exact .find hpart (by simpa using hdir) (Nat.le_of_not_lt hlength)
  · intro h
    induction h with
    | arrive => simp only [walk]
    | @stay here part rest place hpart more ih =>
      cases here <;> simp [walk, hpart, ih]
    | @leave here rest place more ih =>
      cases here <;> simpa [walk] using ih
    | descend hpart hdir more ih => rw [walk_some hpart, if_pos hdir, ih]
    | find hpart hdir hlength =>
      rw [walk_some hpart, if_neg (by simp [hdir]), if_neg (by simp),
        if_neg (Nat.not_lt.mpr hlength), if_pos rfl]

/-- Whatever is not a directory is reached through the directory that it lies in. -/
theorem Reaches.hasParent {here : Option Path} {parts : List String} {place : Place}
    (h : w.Reaches here parts place) (hhere : ∀ dir ∈ here, dir = [] ∨ w.isDirectory dir)
    (hpath : place.path? = some path) : w.HasParent path := by
  induction h with
  | arrive => cases hpath
  | stay _ _ ih => exact ih hhere hpath
  | @leave here rest place more ih =>
    refine ih (fun dir hdir => ?_) hpath
    obtain ⟨down, hdown, hup⟩ := Option.bind_eq_some_iff.mp hdir
    split_ifs at hup with hroot
    cases hup
    exact .inr (isDirectory_above (List.dropLast_prefix down) ((hhere down hdown).resolve_left hroot))
  | descend _ hdir _ ih =>
    refine ih (fun dir hsome => ?_) hpath
    cases hsome
    exact .inr hdir
  | @find dir part =>
    rw [placeAt_path?] at hpath
    cases hpath
    simpa [HasParent] using hhere dir rfl

/-- Where something is put, it is found on the way on which the place was found before. -/
theorem Reaches.put {here : Option Path} {parts : List String} {place : Place}
    (h : w.Reaches here parts place) (hpath : place.path? = some path) (hparent : w.HasParent path)
    (content : ByteArray) : (w.put path content).Reaches here parts (.file path) := by
  induction h with
  | arrive => cases hpath
  | stay hpart _ ih => exact .stay hpart (ih hpath)
  | leave _ ih => exact .leave (ih hpath)
  | descend hpart hdir _ ih =>
    exact .descend hpart (by rwa [isDirectory_put hparent (by simp)]) (ih hpath)
  | find hpart hdir hlength =>
    rw [placeAt_path?] at hpath
    cases hpath
    rw [← placeAt_put content]
    exact .find hpart (by rwa [isDirectory_put hparent (by simp)]) hlength

theorem locate_iff {place : Place} : w.locate name = .ok place ↔
    name ≠ "" ∧ name.utf8ByteSize ≤ nameLimit ∧
      w.Reaches (if name.toList.head? = some '/' then none else some [])
        ((parts name.toList).map String.ofList) place := by
  rw [← walk_iff, locate]
  by_cases hname : name = ""
  · simp [hname]
  by_cases hlength : nameLimit < name.utf8ByteSize
  · simp [hname, hlength, Nat.not_le_of_lt hlength]
  · simp [hname, hlength, Nat.le_of_not_lt hlength]

theorem write_iff : w.write name content = .ok w' ↔
    ∃ place path, w.locate name = .ok place ∧ place.path? = some path ∧ w' = w.put path content := by
  rw [write]
  rcases w.locate name with fault | ⟨_ | _⟩ <;> simp [Place.path?, eq_comm]

/-- A file that is written holds what was written, under the same name, and every other file holds what it
held before. -/
theorem write_spec (h : w.write name content = .ok w') : w'.read? name = some (.ok content) ∧
    ∃ path, w'.directories = w.directories ∧ ∀ other, w'.files.lookup other =
      if other = path then some content else w.files.lookup other := by
  obtain ⟨place, path, hplace, hpath, rfl⟩ := write_iff.mp h
  obtain ⟨hname, hlength, hreaches⟩ := locate_iff.mp hplace
  have hparent : w.HasParent path := by
    refine hreaches.hasParent (fun dir hdir => .inl ?_) hpath
    split_ifs at hdir
    · cases hdir
    · exact (Option.some.inj hdir).symm
  have hnow := locate_iff.mpr ⟨hname, hlength, hreaches.put hpath hparent content⟩
  refine ⟨?_, path, rfl, lookup_put path⟩
  simp [read?, hnow, lookup_put]

end Mermaid.CommandLine.Workspace
