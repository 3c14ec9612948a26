import Mlf.Check.Basic

/-!
# The command

`check` followed by a command line checks documents in files. The log goes to the standard error
output.
-/

namespace Mlf

/-- The text of a file, if it can be read. -/
def readDocument (path : String) : IO (Option String) := do
  try
    return some (← IO.FS.readFile path)
  catch _ =>
    return none

/-- Reads the documents that a command line names, each with its name. -/
def readDocuments (args : List String) : IO (List (String × String)) := do
  match Check.CommandLine.parse args with
  | .error _ => return []
  | .ok line =>
    line.paths.filterMapM fun path => return (← readDocument path).map (path, ·)

/-- Checks documents in files; the exit code tells whether there is nothing to report. -/
def checkFiles (args : List String) : IO UInt32 := do
  let documents ← readDocuments args
  let terminal ← (← IO.getStdout).isTty
  match Check.run (documents.lookup ·) terminal args with
  | .error (.outOfFuel _) =>
    IO.eprintln "unification nests too deep"
    return 2
  | .error (.fatal f) =>
    IO.eprintln f.message
    return 2
  | .ok outcome =>
    outcome.log.forM IO.eprintln
    IO.print outcome.out
    return if outcome.error.isNone then 0 else 1

end Mlf

/-- The command. -/
def main (args : List String) : IO UInt32 :=
  match args with
  | "check" :: rest => Mlf.checkFiles rest
  | _ => do
    IO.eprintln "usage: mlf check FILE..."
    return 1
