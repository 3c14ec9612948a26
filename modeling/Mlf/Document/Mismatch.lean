import Mlf.Text.Quoted
import Mlf.Yaml.Node
import Mlf.Yaml.Scalar

/-!
# Nodes of the wrong form

A document is read into fields that expect nodes of certain forms. Nodes of other forms do not stop
the reading: all of them are listed, in the order of the document.
-/

namespace Mlf.Document

/-- What a field expects. -/
inductive Target where
  | string
  | bool
  | number
  | types
  | binders
  | exprs
  | type
  | binder
  | document
deriving DecidableEq, Repr

/-- The written name of what a field expects. -/
def Target.text : Target → String
  | string => "string"
  | bool => "bool"
  | number => "float64"
  | types => "[]exprfile.typeNode"
  | binders => "[]exprfile.bindingNode"
  | exprs => "[]exprfile.exprNode"
  | type => "exprfile.plain"
  | binder => "exprfile.bindingNode"
  | document => "exprfile.document"

/-- A node that does not fit where it stands. -/
inductive Mismatch where
  /-- A sequence or mapping where something else is expected. -/
  | collection (line : Nat) (tag : String) (target : Target)
  /-- A scalar where something else is expected. -/
  | scalar (line : Nat) (tag : String) (value : String) (target : Target)
  /-- A key of a mapping that came before, on line `first`. -/
  | duplicate (line : Nat) (key : String) (first : Nat)
  /-- A key of the document that means nothing. -/
  | unknownField (line : Nat) (key : String)
deriving DecidableEq, Repr

/-- The first `n` bytes of a text; the replacement character stands for each byte of a character
that does not fit. -/
def firstBytes : (n : Nat) → List Char → List Char
  | 0, _ => []
  | _, [] => []
  | n, c :: cs =>
    if c.utf8Size ≤ n then c :: firstBytes (n - c.utf8Size) cs else List.replicate n '\ufffd'

/-- A value in a message; a long one is cut. -/
def shownValue (s : String) : String :=
  if 10 < s.utf8ByteSize then String.ofList (firstBytes 7 s.toList) ++ "..." else s

/-- The wording of a mismatch. -/
def Mismatch.message : Mismatch → String
  | collection l tag target =>
    "line " ++ toString l ++ ": cannot unmarshal " ++ tag ++ " into " ++ target.text
  | scalar l tag value target =>
    "line " ++ toString l ++ ": cannot unmarshal " ++ tag ++ " `" ++ shownValue value ++ "` into "
      ++ target.text
  | duplicate l key first =>
    "line " ++ toString l ++ ": mapping key " ++ Text.quote key ++ " already defined at line "
      ++ toString first
  | unknownField l key =>
    "line " ++ toString l ++ ": field " ++ key ++ " not found in type " ++ Target.document.text

/-- The wording of all mismatches of a document. -/
def Mismatch.summary (ms : List Mismatch) : String :=
  "yaml: unmarshal errors:\n  " ++ "\n  ".intercalate (ms.map message)

open Yaml (Node Scalar)

/-- The meaning of a scalar node. -/
def meaning (plain : Bool) (text : String) : Scalar := if plain then .ofPlain text else .text

/-- Whether a node is left out or null. -/
def isNull : Node → Bool
  | .scalar _ plain text => match meaning plain text with
    | .null => true
    | _ => false
  | _ => false

/-- The keys of a mapping that came before, each with every earlier key like it. -/
def duplicates : List (Node × Node) → List Mismatch
  | [] => []
  | (k, _) :: rest =>
    (rest.filter fun e => k.sameKey e.1).map (fun e => .duplicate e.1.line e.1.text k.line)
      ++ duplicates rest

/-- What is wrong with a node that does not fit; a mapping with repeated keys is not looked at
further. -/
def mismatches (target : Target) : Node → List Mismatch
  | .scalar l plain text => [.scalar l (meaning plain text).tag text target]
  | .seq l _ => [.collection l "!!seq" target]
  | .map l entries =>
    match duplicates entries with
    | [] => [.collection l "!!map" target]
    | ds => ds

end Mlf.Document
