import Mlf.Prefix.Failure

/-!
# Diagnostics

What is reported about a program: an unknown variable, two types that do not match, a type that
would contain itself, or a fault of inference itself. A host may report kinds of its own, with their
own codes.
-/

namespace Mlf

/-- A fault of inference itself. -/
inductive Fault where
  /-- A part of the program is missing. -/
  | emptyExpression
  /-- A part of the program has a form that inference does not know. -/
  | unknownExpression
  /-- A type mentions a variable that is not in play. -/
  | unboundVariable (name : String)
  /-- The variables in play were misused. -/
  | failure (cause : Failure)
  /-- Variables are left over when inference is done. -/
  | leftover (names : List String)
  /-- A fault found by a host. -/
  | other (text : String)
deriving DecidableEq, Repr

/-- The form of an expression that inference does not know, in words. -/
def unknownForm : String := "Unknown"

/-- The wording of a fault. -/
def Fault.message : Fault → String
  | emptyExpression => "cannot infer the type of an empty expression"
  | unknownExpression => "cannot infer the type of unknown expression " ++ unknownForm
  | unboundVariable x => "type variable " ++ x ++ " is not bound in the prefix"
  | failure f => f.message
  | leftover xs => "prefix is not empty after inference: [" ++ " ".intercalate xs ++ "]"
  | other s => s

/-- A report about a program. -/
inductive Diagnostic where
  | unbound (name : String)
  | incompatible (actual expected : Polytype)
  | infinite (name : String) (type : Polytype)
  | internal (fault : Fault)
  | host (code : Int) (text : String)
deriving DecidableEq, Repr

namespace Diagnostic

/-- The number that identifies the kind of a diagnostic. -/
def code : Diagnostic → Int
  | unbound _ => 1
  | incompatible .. => 2
  | infinite .. => 3
  | internal _ => 4
  | host c _ => c

/-- The wording of a diagnostic, without its code. -/
def message : Diagnostic → String
  | unbound x => "variable '" ++ x ++ "' is not defined"
  | incompatible a e =>
    "type mismatch: expected '" ++ e.render ++ "', but found '" ++ a.render ++ "'"
  | infinite x t => "infinite type: '" ++ x ++ "' occurs in '" ++ t.render ++ "'"
  | internal f => "internal error: " ++ f.message
  | host _ s => s

/-- A code in at least three characters, filled up with zeros after the sign. -/
def codeText (c : Int) : String :=
  let digits := toString c.natAbs
  let mark := if c < 0 then "-" else ""
  mark ++ "".pushn '0' (3 - mark.length - digits.length) ++ digits

/-- A diagnostic as it is shown, with its code. -/
def format (d : Diagnostic) : String := "(E" ++ codeText d.code ++ ") " ++ d.message

end Diagnostic

/-- An error that a host passes on: plain text, or a diagnostic, under any layers of context. -/
inductive HostError where
  | plain (text : String)
  | diagnostic (report : Diagnostic)
  | context (text : String) (cause : HostError)

/-- The diagnostic inside an error. -/
def HostError.diagnostic? : HostError → Option Diagnostic
  | plain _ => none
  | diagnostic d => some d
  | context _ e => e.diagnostic?

end Mlf
