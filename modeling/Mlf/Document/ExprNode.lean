import Mlf.Document.TypeNode
import Mlf.Expr.Basic

/-!
# Expressions in documents

An expression is a mapping with one of the keys `var`, `bool`, `number`, `string`, `fun` (with
`body`), `call` (with `args`), `let` (with `value` and `body`), `annotate` (with `type`) or `error`
(with `expr`, if something could be recovered). An error names a variable that could not be
resolved.

`ExprNode.program` says for which expression a node stands, and `ExprNode.ofProgram?` is the way
back.
-/

namespace Mlf.Document

/-- A node of a document where an expression is expected: the fields of a mapping. -/
structure ExprNode where
  line : Nat
  var : Option String
  bool : Option Bool
  number : Option Number
  string : Option String
  /-- The parameter of a function. -/
  param : Option String
  body : Option ExprNode
  /-- What is called. -/
  callee : Option ExprNode
  args : List ExprNode
  /-- The name of a local definition. -/
  defined : Option String
  value : Option ExprNode
  /-- What is annotated. -/
  annotated : Option ExprNode
  type : Option TypeNode
  error : Option String
  /-- What could be recovered. -/
  recovered : Option ExprNode

namespace ExprNode

/-- A node on a line, without fields. -/
def empty (line : Nat) : ExprNode :=
  ⟨line, none, none, none, none, none, none, none, [], none, none, none, none, none, none⟩

/-! ## What a node stands for -/

mutual

/-- The expression for which a node stands; the keys of several expressions count in the order of
the list above. -/
def program : ExprNode → Except ShapeError Program
  | ⟨line, var, bool, number, string, param, body, callee, args, defined, value, annotated, type,
      error, recovered⟩ => do
    if let some x := var then
      return .var () x
    else if let some b := bool then
      return .const () (.boolean b)
    else if let some n := number then
      return .const () (.number n)
    else if let some s := string then
      return .const () (.string s)
    else if let some x := param then
      return .func () x (← part line "body" body)
    else if let some c := callee then
      let c ← c.program
      if args.isEmpty then throw (.callWithoutArgs line)
      return .calls () c (← programs args)
    else if let some x := defined then
      let v ← part line "value" value
      return .letIn () x v (← part line "body" body)
    else if let some v := annotated then
      let v ← v.program
      match type with
      | none => throw (.annotationWithoutType line)
      | some t => return .annot () v (← t.polytype)
    else if let some x := error then
      return .error () (.unbound x) (← rest recovered)
    else
      throw (.unknownExpression line)

/-- The expression under a key that has to be there. -/
def part (line : Nat) (key : String) : Option ExprNode → Except ShapeError Program
  | none => throw (.missingPart line key)
  | some n => n.program

/-- The expression under a key that need not be there. -/
def rest : Option ExprNode → Except ShapeError Program
  | none => return .missing
  | some n => n.program

/-- The expressions of a list. -/
def programs : List ExprNode → Except ShapeError (List Program)
  | [] => return []
  | n :: ns => return (← n.program) :: (← programs ns)

end

/-! ## Nodes for expressions -/

/-- A node for a constant. -/
def ofValue (line : Nat) : Value → ExprNode
  | .boolean b => { empty line with bool := some b }
  | .number x => { empty line with number := some x }
  | .string s => { empty line with string := some s }

/-- A node for an expression, if documents can tell of it: its parts are there, except what an error
recovers, and its errors tell of unbound variables. -/
def ofProgram? (line : Nat) : Program → Option ExprNode
  | .missing | .unknown => none
  | .var _ x => some { empty line with var := some x }
  | .const _ v => some (ofValue line v)
  | .func _ x b => do
    return { empty line with param := some x, body := some (← ofProgram? line b) }
  | .call _ c a => do
    return { empty line with callee := some (← ofProgram? line c), args := [← ofProgram? line a] }
  | .letIn _ x v b => do
    return { empty line with
      defined := some x, value := some (← ofProgram? line v), body := some (← ofProgram? line b) }
  | .annot _ v t => do
    return { empty line with
      annotated := some (← ofProgram? line v), type := some (.ofPolytype line t) }
  | .error _ (.unbound x) .missing => some { empty line with error := some x }
  | .error _ (.unbound x) e => do
    return { empty line with error := some x, recovered := some (← ofProgram? line e) }
  | .error .. => none

end ExprNode

end Mlf.Document
