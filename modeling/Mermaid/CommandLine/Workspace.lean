import Mermaid.Text.Quoted

/-!
A directory with the files that a run of the program can read and write. Names are paths from
this directory on; what lies outside it is not known.
-/
namespace Mermaid.CommandLine

/-- Why a file cannot be read or written. -/
inductive FileFault
  | notFound | isDirectory | notDirectory | nameTooLong
  deriving DecidableEq, Repr

namespace FileFault

def text : FileFault → String
  | notFound => "[Errno 2] No such file or directory"
  | notDirectory => "[Errno 20] Not a directory"
  | isDirectory => "[Errno 21] Is a directory"
  | nameTooLong => "[Errno 36] File name too long"

def message (f : FileFault) (name : String) : String := f.text ++ ": " ++ Text.quote name

end FileFault

/-- A path is the list of the names on the way down. -/
abbrev Path := List String

structure Workspace where
  files : List (Path × ByteArray)
  directories : List Path

namespace Workspace

/-- The parts of a name between its slashes. -/
def parts : List Char → List (List Char)
  | [] => [[]]
  | c :: s =>
    if c = '/' then [] :: parts s
    else match parts s with
      | [] => [[c]]
      | p :: ps => (c :: p) :: ps

/-- The parts of a name that lead somewhere else. -/
def path (name : String) : Path :=
  ((parts name.toList).map String.ofList).filter fun p => p != "" && p != "."

/-- The workspace that holds some files and some empty directories. -/
def ofNames (files : List (String × ByteArray)) (directories : List String) : Workspace :=
  ⟨files.map fun (name, content) => (path name, content), directories.map path⟩

def isDirectory (w : Workspace) (path : Path) : Bool :=
  (w.directories ++ w.files.map (·.1.dropLast)).any (path.isPrefixOf ·)

inductive Place
  | directory
  | file (path : Path)
  /-- Nothing so far, in a directory that is there. -/
  | vacant (path : Path)
  deriving DecidableEq, Repr

/-- How many bytes one part of a name can have. -/
def partLimit : Nat := 255

/-- How many bytes a name can have. -/
def nameLimit : Nat := 4095

/-- The place that is reached from a directory; none stands for one outside. A slash at the end
asks for a directory, which is never made on the way. -/
def walk (w : Workspace) : Option Path → List String → Except FileFault Place
  | _, [] => .ok .directory
  | here, part :: rest =>
    if part = "" || part = "." then w.walk here rest
    else if part = ".." then
      w.walk (here.bind fun dir => if dir = [] then none else some dir.dropLast) rest
    else match here with
      | none => .error .notFound
      | some dir =>
        let path := dir ++ [part]
        if w.isDirectory path then w.walk (some path) rest
        else if rest ≠ [] && rest.all (· = "") then .error .isDirectory
        else if partLimit < part.utf8ByteSize then .error .nameTooLong
        else match (w.files.lookup path).isSome, rest with
          | true, [] => .ok (.file path)
          | true, _ => .error .notDirectory
          | false, [] => .ok (.vacant path)
          | false, _ => .error .notFound

def locate (w : Workspace) (name : String) : Except FileFault Place :=
  if name = "" then .error .notFound
  else if nameLimit < name.utf8ByteSize then .error .nameTooLong
  else
    let start := if name.toList.head? = some '/' then none else some []
    w.walk start ((parts name.toList).map String.ofList)

/-- What is read from a file; none if nothing has this name. -/
def read? (w : Workspace) (name : String) : Option (Except FileFault ByteArray) :=
  match w.locate name with
  | .ok .directory => some (.error .isDirectory)
  | .ok (.file path) => (w.files.lookup path).map .ok
  | _ => none

def put (w : Workspace) (path : Path) (content : ByteArray) : Workspace :=
  { w with files := w.files.filter (·.1 ≠ path) ++ [(path, content)] }

def write (w : Workspace) (name : String) (content : ByteArray) : Except FileFault Workspace :=
  match w.locate name with
  | .error f => .error f
  | .ok .directory => .error .isDirectory
  | .ok (.file path) | .ok (.vacant path) => .ok (w.put path content)

/-- The files that lie in this directory itself and did not at an earlier time, by name. -/
def created (now before : Workspace) : List (String × ByteArray) :=
  let new := now.files.filterMap fun (path, content) => match path with
    | [name] => if (before.files.lookup path).isSome then none else some (name, content)
    | _ => none
  new.mergeSort fun a b => a.1 ≤ b.1

end Workspace
end Mermaid.CommandLine
