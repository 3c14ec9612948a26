import Mlf.Check.CommandLine
import Mlf.Check.Dump
import Mlf.Document.Basic
import Mlf.Infer.Basic
import Mlf.Log.Event

/-!
# Checking documents

The command infers the type of the expression in each document and shows it, with the diagnostics
about it. It fails at the first document that cannot be read, and otherwise at the end, if there
were diagnostics.
-/

namespace Mlf.Check

/-- Why the command fails. -/
inductive CheckError where
  | usage (error : UsageError)
  /-- A document is not there. -/
  | cannotOpen (path : String)
  /-- A text is no document. -/
  | cannotDecode (path : String) (error : Document.DocumentError)
  /-- There were diagnostics. -/
  | reported (count : Nat)
deriving DecidableEq, Repr

/-- The wording of an error. -/
def CheckError.message : CheckError → String
  | usage e => e.message
  | cannotOpen path => "could not open document: open " ++ path ++ ": no such file or directory"
  | cannotDecode path e => "could not decode " ++ path ++ ": " ++ e.message
  | reported n => toString n ++ " diagnostics reported"

/-- What the command leaves: its output, the lines of the log, and its error, if it fails. -/
structure Outcome where
  out : String
  log : List String
  error : Option CheckError

/-- Whether diagnostics are coloured, on a terminal or not. -/
def useColor (mode : String) (terminal : Bool) : Except UsageError Bool :=
  match mode with
  | "always" => return true
  | "never" => return false
  | "auto" => return terminal
  | _ => throw (.unknownColor mode)

/-- The word in front of a diagnostic. -/
def errorWord (colored : Bool) : String :=
  if colored then "\x1b[1m\x1b[31merror\x1b[0m" else "error"

/-- A text filled up with blanks to a width. -/
def padRight (width : Nat) (s : String) : String := s ++ "".pushn ' ' (width - s.length)

/-- The type of an expression, which is `⊥` if it has none. -/
def shownType (e : Expr Polytype) : String := (e.info?.getD .bottom).render

/-- The output for a document. -/
def report (options : Options) (colored : Bool) (path : String) (r : Inferred) : String :=
  let head := path ++ ": " ++ r.tree.render ++ "\n  : " ++ shownType r.tree ++ "\n"
  let types := if options.types then
      r.tree.visit.1.map fun e =>
        "  " ++ padRight 10 e.form ++ " " ++ e.render ++ " : " ++ shownType e ++ "\n"
    else []
  let tree := if options.dump then dump 0 r.tree ++ "\n" else ""
  let errors := r.sink.toList.map fun d => errorWord colored ++ " " ++ d.format ++ "\n"
  head ++ String.join types ++ tree ++ String.join errors

/-- Checks the documents with the given names one after the other. What the earlier ones left is
`before`, and `reported` is the number of their diagnostics. -/
def checkAll (read : String → Option String) (options : Options) (colored : Bool) (reported : Nat)
    (before : Outcome) : (paths : List String) → Except Halt Outcome
  | [] => return if reported = 0 then before else { before with error := some (.reported reported) }
  | path :: paths =>
    match read path with
    | none => return { before with error := some (.cannotOpen path) }
    | some text =>
      match Document.parse text with
      | .error e => return { before with error := some (.cannotDecode path e) }
      | .ok doc => do
        let config := { Config.standard with fatalFaults := options.debug }
        let r ← infer config .empty doc.scope doc.program
        let log := r.events.filterMap fun e => Log.Logger.plain.line? options.sections e.record
        checkAll read options colored (reported + r.sink.size)
          ⟨before.out ++ report options colored path r, before.log ++ log, none⟩ paths

/-- Runs a command line, up to the message about its error. -/
def runLine (read : String → Option String) (terminal : Bool) (line : CommandLine) :
    Except Halt Outcome :=
  match useColor line.options.color terminal with
  | .error e => return ⟨"", [], some (.usage e)⟩
  | .ok colored => checkAll read line.options colored 0 ⟨"", [], none⟩ line.paths

/-- The line about an error. -/
def errorLine (e : CheckError) : String := "Error: " ++ e.message ++ "\n"

/-- Runs the command: documents are read by their names, and an error is told at the end of the
output. -/
def run (read : String → Option String) (terminal : Bool) (args : List String) :
    Except Halt Outcome := do
  let outcome ← match CommandLine.parse args with
    | .error e => pure ⟨"", [], some (.usage e)⟩
    | .ok line => runLine read terminal line
  return { outcome with out := outcome.out ++ (outcome.error.map errorLine).getD "" }

end Mlf.Check
