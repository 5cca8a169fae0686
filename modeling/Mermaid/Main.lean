import Mermaid.CommandLine.Run

/-!
The program: diagrams in, summaries or JSON out.
-/
open Mermaid CommandLine

/-- The fault that the system reports, if it is one that is known here. -/
private def fault? : IO.Error → Option FileFault
  | .noFileOrDirectory .. => some .notFound
  | .inappropriateType _ code _ => some (if code = 21 then .isDirectory else .notDirectory)
  | _ => none

private def reason (name : String) (e : IO.Error) : String :=
  match fault? e with
  | some f => f.message name
  | none => toString e

/-- Writes a text; what is no terminal gets no control sequences. -/
private def put (stream : IO.FS.Stream) (text : String) : IO Unit := do
  stream.putStr (if ← stream.isTty then text else Text.plain text)

private def deliver (o : Options) (text : String) : IO UInt32 := do
  let a := o.answer text
  IO.eprint a.notices
  match a.output with
  | .error e => throw (.userError e.name)
  | .ok output =>
    match o.output with
    | none => put (← IO.getStdout) output
    | some name =>
      try IO.FS.writeFile name output
      catch e =>
        put (← IO.getStderr) (cannotWrite name (reason name e))
        return 1
    return (o.exitCode a).toUInt32

private def usage : IO UInt32 := do
  IO.eprintln "Usage: mermaid [OPTIONS] [INPUT]"
  return 2

private def decode (bytes : ByteArray) : IO String :=
  match String.fromUTF8? bytes with
  | some text => return text
  | none => throw (.userError "the input is not UTF-8")

def main (args : List String) : IO UInt32 := do
  match Options.parse args with
  | .error _ => usage
  | .ok o => match o.input with
    | none => deliver o (← decode (← (← IO.getStdin).readBinToEnd))
    | some name =>
      match ← (IO.FS.readBinFile name).toBaseIO with
      | .ok bytes => deliver o (← decode bytes)
      | .error e =>
        if fault? e matches some .notFound | some .notDirectory then usage
        else
          put (← IO.getStderr) (cannotRead name (reason name e))
          return 1
