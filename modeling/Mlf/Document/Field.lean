import Mlf.Document.Mismatch

/-!
# Reading fields

Reading goes through the nodes of a document in order and collects mismatches. It stops at once only
where an expression is not a mapping.
-/

namespace Mlf.Document

open Yaml (Node)

/-- A part of the reading of a document: it collects mismatches, and stops at an expression that is
not a mapping, of which it tells the line. -/
abbrev Decode := StateT (List Mismatch) (Except Nat)

namespace Decode

/-- Adds mismatches to those collected. -/
def reject (ms : List Mismatch) : Decode Unit := modify (· ++ ms)

/-- Stops at an expression that is not a mapping. -/
def stop {α : Type} (line : Nat) : Decode α := throw line

end Decode

open Decode

/-- The name of a key; a null key has none. -/
def keyName (k : Node) : Decode (Option String) :=
  match k with
  | .scalar _ _ text => return if isNull k then none else some text
  | _ => do
    reject (mismatches .string k)
    return none

/-- A text, for which any scalar stands. -/
def stringField (n : Node) : Decode (Option String) :=
  match n with
  | .scalar _ _ text => return if isNull n then none else some text
  | _ => do
    reject (mismatches .string n)
    return none

/-- The truth value of a word, with or without quotes. -/
def boolWord? (s : String) : Option Bool :=
  if s ∈ ["y", "Y", "yes", "Yes", "YES", "on", "On", "ON"] then some true
  else if s ∈ ["n", "N", "no", "No", "NO", "off", "Off", "OFF"] then some false
  else none

/-- A truth value. -/
def boolField (n : Node) : Decode (Option Bool) :=
  let wrong : Decode (Option Bool) := do
    reject (mismatches .bool n)
    return none
  match n with
  | .scalar _ plain text =>
    match meaning plain text with
    | .null => return none
    | .bool b => return some b
    | .text =>
      match boolWord? text with
      | some b => return some b
      | none => wrong
    | _ => wrong
  | _ => wrong

/-- A number. -/
def numberField (n : Node) : Decode (Option Number) :=
  let wrong : Decode (Option Number) := do
    reject (mismatches .number n)
    return none
  match n with
  | .scalar _ plain text =>
    match meaning plain text with
    | .null => return none
    | .int i => return some (.ofInt i)
    | .float x => return some x
    | _ => wrong
  | _ => wrong

end Mlf.Document
