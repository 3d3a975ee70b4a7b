/-
LambdaScript/Main.lean

The program: reads the files that the command line asks for, runs it, and prints
what it says.  Keys are taken from standard input unless that is a terminal.
-/
import LambdaScript.CommandLine

namespace LambdaScript

/-- The session with the file at a path, if there is one. -/
def loadFile (s : Session) (path : String) : IO Session := do
  try
    return s.withFile path (← IO.FS.readFile path)
  catch _ =>
    return s

/-- The keys that standard input holds. -/
def readKeys : IO (List Nat) := do
  let stdin ← IO.getStdin
  if ← stdin.isTty then return []
  let mut keys := #[]
  let mut block ← stdin.read 1024
  while !block.isEmpty do
    keys := keys ++ block.data.map (·.toNat)
    block ← stdin.read 1024
  return keys.toList

end LambdaScript

open LambdaScript in
def main (args : List String) : IO UInt32 := do
  let paths := args.take 1 ++ (CommandLine.helpFiles args).map ("helptext/" ++ ·)
  let session ← paths.foldlM loadFile Session.fresh
  match CommandLine.startGuarded args { session with keys := ← readKeys } with
  | .ok _ s =>
    IO.print s.output
    return 0
  | .error e s =>
    IO.print s.output
    IO.eprintln (e.kind ++ ": " ++ e.message)
    return 1
