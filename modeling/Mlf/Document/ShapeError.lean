import Mlf.Text.Quoted

/-!
# Nodes that stand for nothing

A node can have fields of the right form and yet stand for no type or expression, because a field it
needs is not there or a name is not known. The first such node is the error of a document.
-/

namespace Mlf.Document

/-- Why a node stands for nothing, with the line of the node. -/
inductive ShapeError where
  | unknownType (line : Nat) (name : String)
  | forallWithoutBody (line : Nat)
  | bindingWithoutName (line : Nat)
  | shortFunction (line : Nat)
  | emptyType (line : Nat)
  | notMonotype (line : Nat)
  | missingPart (line : Nat) (key : String)
  | callWithoutArgs (line : Nat)
  | annotationWithoutType (line : Nat)
  | unknownExpression (line : Nat)
deriving DecidableEq, Repr

/-- The wording of an error. -/
def ShapeError.message (e : ShapeError) : String :=
  let on (l : Nat) (s : String) : String := "line " ++ toString l ++ ": " ++ s
  match e with
  | unknownType l x => on l ("unknown type " ++ Text.quote x)
  | forallWithoutBody l => on l "forall without body"
  | bindingWithoutName l => on l "binding without name"
  | shortFunction l => on l "function type needs a parameter and a result"
  | emptyType l => on l "empty type"
  | notMonotype l => on l "expected a monotype"
  | missingPart l key => on l ("missing " ++ key)
  | callWithoutArgs l => on l "call without args"
  | annotationWithoutType l => on l "annotation without type"
  | unknownExpression l => on l "unknown expression"

end Mlf.Document
