import Mlf.Document.Reader
import Mlf.Scope
import Mlf.Yaml.Reader

/-!
# Documents

A document is a mapping with an expression under `expr` and, under `scope`, the types of the
variables around it.

The errors of a document come in the order in which it is read: the text, the form of its nodes, the
types of the scope one after the other, the expression.
-/

namespace Mlf

/-- An expression and the scope in which it is checked. -/
structure Document where
  scope : Scope
  program : Program
  /-- The names that the scope declares, in the order of the document. -/
  names : List String

namespace Document

open Yaml (Node Stream)

/-- Why a text is no document. -/
inductive DocumentError where
  /-- The text is no YAML. -/
  | notYaml
  /-- The text holds no document. -/
  | noDocument
  /-- An expression is not a mapping. -/
  | exprNotMapping (line : Nat)
  /-- Nodes have the wrong form. -/
  | mismatches (list : List Mismatch)
  /-- There is no expression. -/
  | noExpr
  /-- The scope is not a mapping. -/
  | scopeNotMapping (line : Nat)
  /-- Nodes in the type of a variable have the wrong form. -/
  | typeMismatches (name : String) (list : List Mismatch)
  /-- The type of a variable stands for nothing. -/
  | typeShape (name : String) (error : ShapeError)
  /-- The expression stands for nothing. -/
  | exprShape (error : ShapeError)
deriving DecidableEq, Repr

/-- The wording of an error. -/
def DocumentError.message : DocumentError → String
  | notYaml => "decoding document: yaml: invalid text"
  | noDocument => "decoding document: EOF"
  | exprNotMapping l => "decoding document: line " ++ toString l ++ ": expression must be a mapping"
  | mismatches ms => "decoding document: " ++ Mismatch.summary ms
  | noExpr => "document has no expr"
  | scopeNotMapping l => "line " ++ toString l ++ ": scope must be a mapping"
  | typeMismatches x ms => "decoding type of " ++ x ++ ": " ++ Mismatch.summary ms
  | typeShape x e => "type of " ++ x ++ ": " ++ e.message
  | exprShape e => "expr: " ++ e.message

/-- The fields of a document. -/
structure RootFields where
  scope : Option Node
  expr : Option ExprNode

open Decode

/-- Reads the fields of a document. -/
def readRootFields : List (Node × Node) → Decode RootFields
  | [] => return ⟨none, none⟩
  | (k, v) :: rest => do
    match ← keyName k with
    -- The types of the scope are read later, each with mismatches of its own.
    | some "scope" => return { (← readRootFields rest) with scope := some v }
    | some "expr" =>
      let e ← readExpr v
      return { (← readRootFields rest) with expr := e }
    | some x =>
      reject [.unknownField k.line x]
      readRootFields rest
    | none => readRootFields rest

/-- Reads the root of a document. -/
def readRoot (n : Node) : Decode RootFields :=
  match n with
  | .map _ entries =>
    match duplicates entries with
    | [] => readRootFields entries
    | ds => do
      reject ds
      return ⟨none, none⟩
  | n => do
    if !isNull n then reject (mismatches .document n)
    return ⟨none, none⟩

/-- The type of a variable in the scope of a document. -/
def scopeType (name : String) (n : Node) : Except DocumentError Polytype := do
  match (readType n).run [] with
  | .error l => throw (.exprNotMapping l)
  | .ok (t, []) =>
    -- A null node has no line.
    match (t.getD (.empty 0)).polytype with
    | .ok t => return t
    | .error e => throw (.typeShape name e)
  | .ok (_, ms) => throw (.typeMismatches name ms)

/-- The names of a scope with their types, in the order of the document. -/
def readScope (n : Option Node) : Except DocumentError (List (String × Polytype)) :=
  match n with
  | none => return []
  | some (.map _ entries) => entries.mapM fun (k, v) => return (k.text, ← scopeType k.text v)
  | some n => throw (.scopeNotMapping n.line)

/-- The document with the given root. -/
def ofNode (n : Node) : Except DocumentError Document := do
  match (readRoot n).run [] with
  | .error l => throw (.exprNotMapping l)
  | .ok (_, m :: ms) => throw (.mismatches (m :: ms))
  | .ok (fields, []) =>
    match fields.expr with
    | none => throw .noExpr
    | some expr =>
      let declared ← readScope fields.scope
      match expr.program with
      | .error e => throw (.exprShape e)
      | .ok program => return ⟨.ofList declared, program, declared.map Prod.fst⟩

/-- Reads the first document of a text. -/
def parse (text : String) : Except DocumentError Document :=
  match Yaml.read text with
  | none => throw .notYaml
  | some .empty => throw .noDocument
  | some (.document root) => ofNode root

end Document

end Mlf
