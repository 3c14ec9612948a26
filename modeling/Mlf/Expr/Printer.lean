import Mlf.Expr.Basic

/-!
# Printed expressions

An expression is printed on one line. A function or a local definition in the place of a callee is
put in parentheses; an annotation always is.
-/

namespace Mlf

/-- Prints an expression; `asCallee` tells that it is called. -/
def Expr.renderAs {α : Type} (asCallee : Bool) : Expr α → String
  | missing => "<nil>"
  | unknown => ""
  | var _ x => x
  | const _ v => v.render
  | func _ x b => enclose ("fun " ++ x ++ " -> " ++ b.renderAs false)
  | call _ c d => c.renderAs true ++ "(" ++ d.renderAs false ++ ")"
  | letIn _ x v b =>
    enclose ("let " ++ x ++ " = " ++ v.renderAs false ++ " in " ++ b.renderAs false)
  | annot _ v t => "(" ++ v.renderAs false ++ " : " ++ t.render ++ ")"
  | error _ _ missing => "error"
  | error _ _ e => "error(" ++ e.renderAs false ++ ")"
where
  /-- Puts a text in parentheses if it is called. -/
  enclose (text : String) : String := if asCallee then "(" ++ text ++ ")" else text

/-- Prints an expression. -/
def Expr.render {α : Type} (e : Expr α) : String := e.renderAs false

end Mlf
