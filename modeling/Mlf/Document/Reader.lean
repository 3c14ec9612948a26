import Mlf.Document.ExprNode
import Mlf.Document.Field

/-!
# Reading types and expressions

The fields of types and expressions are taken from the mappings of a document. Keys that mean
nothing are passed over, a null value leaves its field unset, and a null element of a list is
dropped.
-/

namespace Mlf.Document

open Yaml (Node)
open Decode

/-! ## Types -/

mutual

/-- Reads a node as a type, if it is not null. -/
def readType (n : Node) : Decode (Option TypeNode) :=
  match n with
  | .scalar line plain text =>
    return if isNull (.scalar line plain text) then none
      else some { TypeNode.empty line with name := text }
  | .seq line items => do
    reject (mismatches .type (.seq line items))
    return none
  | .map line entries =>
    match duplicates entries with
    | [] => return some (← readTypeFields line entries)
    | ds => do
      reject ds
      return none

/-- Reads the fields of a type. -/
def readTypeFields (line : Nat) : List (Node × Node) → Decode TypeNode
  | [] => return .empty line
  | (k, v) :: rest => do
    match ← keyName k with
    | some "var" =>
      let s ← stringField v
      return { (← readTypeFields line rest) with var := s.getD "" }
    | some "fun" =>
      let ts ← readTypeList v
      return { (← readTypeFields line rest) with parts := ts }
    | some "forall" =>
      let bs ← readBinderList v
      return { (← readTypeFields line rest) with binders := bs }
    | some "body" =>
      let t ← readType v
      return { (← readTypeFields line rest) with body := t }
    | _ => readTypeFields line rest

/-- Reads a sequence of types, if the node is not null. -/
def readTypeList (n : Node) : Decode (Option (List TypeNode)) :=
  match n with
  | .seq _ items => return some (← readTypes items)
  | n => do
    if !isNull n then reject (mismatches .types n)
    return none

/-- Reads types; null ones are dropped. -/
def readTypes : List Node → Decode (List TypeNode)
  | [] => return []
  | n :: rest => do
    match ← readType n with
    | none => readTypes rest
    | some t => return t :: (← readTypes rest)

/-- Reads a sequence of bindings, if the node is not null. -/
def readBinderList (n : Node) : Decode (Option (List (BinderNode TypeNode))) :=
  match n with
  | .seq _ items => return some (← readBinders items)
  | n => do
    if !isNull n then reject (mismatches .binders n)
    return none

/-- Reads bindings; null ones are dropped. -/
def readBinders : List Node → Decode (List (BinderNode TypeNode))
  | [] => return []
  | .map _ entries :: rest => do
    match duplicates entries with
    | [] =>
      let b ← readBinderFields entries
      return b :: (← readBinders rest)
    | ds =>
      reject ds
      readBinders rest
  | n :: rest => do
    if !isNull n then reject (mismatches .binder n)
    readBinders rest

/-- Reads the fields of a binding. -/
def readBinderFields : List (Node × Node) → Decode (BinderNode TypeNode)
  | [] => return ⟨"", none, false⟩
  | (k, v) :: rest => do
    match ← keyName k with
    | some "name" =>
      let s ← stringField v
      return { (← readBinderFields rest) with name := s.getD "" }
    | some "bound" =>
      let t ← readType v
      return { (← readBinderFields rest) with bound := t }
    | some "rigid" =>
      let b ← boolField v
      return { (← readBinderFields rest) with rigid := b.getD false }
    | _ => readBinderFields rest

end

/-! ## Expressions -/

mutual

/-- Reads a node as an expression, if it is not null. -/
def readExpr (n : Node) : Decode (Option ExprNode) :=
  match n with
  | .map line entries =>
    match duplicates entries with
    | [] => return some (← readExprFields line entries)
    | ds => do
      reject ds
      return none
  | n => if isNull n then return none else stop n.line

/-- Reads the fields of an expression. -/
def readExprFields (line : Nat) : List (Node × Node) → Decode ExprNode
  | [] => return .empty line
  | (k, v) :: rest => do
    match ← keyName k with
    | some "var" =>
      let s ← stringField v
      return { (← readExprFields line rest) with var := s }
    | some "bool" =>
      let b ← boolField v
      return { (← readExprFields line rest) with bool := b }
    | some "number" =>
      let x ← numberField v
      return { (← readExprFields line rest) with number := x }
    | some "string" =>
      let s ← stringField v
      return { (← readExprFields line rest) with string := s }
    | some "fun" =>
      let s ← stringField v
      return { (← readExprFields line rest) with param := s }
    | some "body" =>
      let e ← readExpr v
      return { (← readExprFields line rest) with body := e }
    | some "call" =>
      let e ← readExpr v
      return { (← readExprFields line rest) with callee := e }
    | some "args" =>
      let es ← readExprList v
      return { (← readExprFields line rest) with args := es }
    | some "let" =>
      let s ← stringField v
      return { (← readExprFields line rest) with defined := s }
    | some "value" =>
      let e ← readExpr v
      return { (← readExprFields line rest) with value := e }
    | some "annotate" =>
      let e ← readExpr v
      return { (← readExprFields line rest) with annotated := e }
    | some "type" =>
      let t ← readType v
      return { (← readExprFields line rest) with type := t }
    | some "error" =>
      let s ← stringField v
      return { (← readExprFields line rest) with error := s }
    | some "expr" =>
      let e ← readExpr v
      return { (← readExprFields line rest) with recovered := e }
    | _ => readExprFields line rest

/-- Reads a sequence of expressions. -/
def readExprList (n : Node) : Decode (List ExprNode) :=
  match n with
  | .seq _ items => readExprs items
  | n => do
    if !isNull n then reject (mismatches .exprs n)
    return []

/-- Reads expressions; null ones are dropped. -/
def readExprs : List Node → Decode (List ExprNode)
  | [] => return []
  | n :: rest => do
    match ← readExpr n with
    | none => readExprs rest
    | some e => return e :: (← readExprs rest)

end

end Mlf.Document
