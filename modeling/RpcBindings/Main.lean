import RpcBindings.CommandLine.Session

/-!
The program.
-/

namespace RpcBindings.CommandLine

/-- What an action gives, unless it fails. -/
def succeeds? {α : Type} (action : IO α) : IO (Option α) := do
  try
    return some (← action)
  catch _ =>
    return none

/-- Whether reading from a path works, or fails for want of permission only. A directory cannot be
read. -/
def leadsToFile (path : String) : IO Bool := do
  try
    IO.FS.withFile path .read fun handle => do
      let _ ← handle.read 1
      return true
  catch
    | .permissionDenied .. => return true
    | _ => return false

instance : Host IO where
  isFile := leadsToFile
  read? path := succeeds? (IO.FS.readFile path)
  makeDirs path := do return (← succeeds? (IO.FS.createDirAll path)).isSome
  write path text := do return (← succeeds? (IO.FS.writeFile path text)).isSome
  print text := do
    return (← succeeds? do IO.print text; (← IO.getStdout).flush).isSome
  note line := IO.eprintln line

/-- Exits with a code, or never. -/
def exitWith : Option UInt32 → IO UInt32
  | some code => return code
  | none => do
    repeat IO.sleep 1000
    return 0

end RpcBindings.CommandLine

def main (args : List String) : IO UInt32 := do
  RpcBindings.CommandLine.exitWith (← RpcBindings.CommandLine.run args)
