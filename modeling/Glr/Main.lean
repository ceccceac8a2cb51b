import Glr.Command

/-!
# Glr.Main

The program: reads the files that a command asks for, carries it out, and writes
what it answers.
-/

namespace Glr

/-- What an error of the system means for a file. -/
def FileError.ofSystem : IO.Error → FileError
  | .noFileOrDirectory .. => .notFound
  | .inappropriateType _ code _ => if code = 20 then .notDirectory else .isDirectory
  | .invalidArgument _ 36 _ => .nameTooLong
  | .permissionDenied .. => .permissionDenied
  | e => .other (toString e)

/-- Reads a file. -/
def readText (path : String) : IO (Except FileError String) := do
  try
    let bytes ← IO.FS.readBinFile path
    match Bytes.toString? bytes.data with
    | some text => return .ok text
    | none => return .error .notText
  catch e => return .error (.ofSystem e)

/-- Writes a file. -/
def writeText (path contents : String) : IO (Option FileError) := do
  try
    IO.FS.writeFile path contents
    return none
  catch e => return some (.ofSystem e)

/-- Carries out a command and answers the exit code. -/
def Command.execute (c : Command) : IO UInt32 := do
  let files ← c.inputs.mapM fun path => do return (path, ← readText path)
  let read (path : String) : Except FileError String :=
    ((files.find? fun f => f.1 == path).map Prod.snd).getD (.error .notFound)
  let started ← IO.monoMsNow
  let reply ← match c.run read with
    | .answer r => pure r
    | .write path contents next => next <$> writeText path contents
  IO.print reply.stdout
  let stopped ← IO.monoMsNow
  if let some file := reply.timed then IO.eprintln s!"{file}\t{stopped - started} ms"
  IO.eprint reply.stderr
  return if reply.success then 0 else 1

end Glr

/-- Does what the arguments ask for. -/
def main (args : List String) : IO UInt32 := do
  match Glr.Command.ofArgs? args with
  | some c => c.execute
  | none =>
    IO.eprint Glr.Command.usage
    return 2
