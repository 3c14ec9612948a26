import Mlf.Diagnostic.Basic
import Mlf.Number.Text
import Mlf.Text.Quoted

/-!
# Expressions

The programs that inference types: variables, constants, functions of one parameter, calls with one
argument, local definitions and annotations. An error stands for a part of a program about which
there is a report, with what could be made of that part. A part may also be missing, or have a form
that the library does not know.

Each node that can have a type carries a value of type `α`: nothing in a program as it is read, a
type in a typed program.
-/

namespace Mlf

/-- A constant. -/
inductive Value where
  | boolean (value : Bool)
  | number (value : Number)
  | string (value : String)
deriving DecidableEq, Repr

/-- The type of a constant. -/
def Value.base : Value → BaseType
  | boolean _ => .boolean
  | number _ => .number
  | string _ => .string

/-- A constant as it is written. -/
def Value.render : Value → String
  | boolean b => if b then "true" else "false"
  | number n => NumberFormat.constants.render n
  | string s => Text.quote s

/-- An expression whose nodes carry values of type `α`. -/
inductive Expr (α : Type) where
  /-- A part that is missing. -/
  | missing
  /-- A part of an unknown form. -/
  | unknown
  | var (info : α) (name : String)
  | const (info : α) (value : Value)
  | func (info : α) (param : String) (body : Expr α)
  | call (info : α) (callee arg : Expr α)
  | letIn (info : α) (name : String) (value body : Expr α)
  | annot (info : α) (value : Expr α) (declared : Polytype)
  | error (info : α) (report : Diagnostic) (inner : Expr α)
deriving DecidableEq, Repr

namespace Expr

variable {α β : Type}

instance : Inhabited (Expr α) := ⟨missing⟩

/-- The word for the form of an expression. -/
def form : Expr α → String
  | missing => ""
  | unknown => unknownForm
  | var .. => "Var"
  | const .. => "Constant"
  | func .. => "Func"
  | call .. => "Call"
  | letIn .. => "Let"
  | annot .. => "Annotation"
  | error .. => "Error"

/-- What the root of an expression carries. -/
def info? : Expr α → Option α
  | missing | unknown => none
  | var a _ | const a _ | func a .. | call a .. | letIn a .. | annot a .. | error a .. => some a

/-- The report of an error. -/
def report? : Expr α → Option Diagnostic
  | error _ d _ => some d
  | _ => none

/-- Changes what the nodes carry. -/
def map (f : α → β) : Expr α → Expr β
  | missing => missing
  | unknown => unknown
  | var a x => var (f a) x
  | const a v => const (f a) v
  | func a x b => func (f a) x (b.map f)
  | call a c d => call (f a) (c.map f) (d.map f)
  | letIn a x v b => letIn (f a) x (v.map f) (b.map f)
  | annot a v t => annot (f a) (v.map f) t
  | error a d e => error (f a) d (e.map f)

/-- What the nodes carry, each node before its parts, in front of a list. -/
def infosOnto (after : List α) : Expr α → List α
  | missing | unknown => after
  | var a _ | const a _ => a :: after
  | func a _ b => a :: b.infosOnto after
  | call a c d => a :: c.infosOnto (d.infosOnto after)
  | letIn a _ v b => a :: v.infosOnto (b.infosOnto after)
  | annot a v _ => a :: v.infosOnto after
  | error a _ e => a :: e.infosOnto after

/-- What the nodes carry, each node before its parts. -/
def infos (e : Expr α) : List α := e.infosOnto []

/-- The nodes of an expression, each before its parts and the parts in the order in which they are
written, up to the first part of an unknown form; and whether there is none. -/
def visit : Expr α → List (Expr α) × Bool
  | missing => ([], true)
  | unknown => ([], false)
  | e@(var ..) | e@(const ..) => ([e], true)
  | e@(func _ _ b) => let (ns, ok) := b.visit; (e :: ns, ok)
  | e@(annot _ v _) => let (ns, ok) := v.visit; (e :: ns, ok)
  | e@(error _ _ i) => let (ns, ok) := i.visit; (e :: ns, ok)
  | e@(call _ c d) =>
    match c.visit with
    | (ns, false) => (e :: ns, false)
    | (ns, true) => let (ms, ok) := d.visit; (e :: ns ++ ms, ok)
  | e@(letIn _ _ v b) =>
    match v.visit with
    | (ns, false) => (e :: ns, false)
    | (ns, true) => let (ms, ok) := b.visit; (e :: ns ++ ms, ok)

/-- A function of several parameters, one after the other. -/
def funcs (a : α) (params : List String) (body : Expr α) : Expr α :=
  params.foldr (func a) body

/-- A call with several arguments, one after the other. -/
def calls (a : α) (callee : Expr α) (args : List (Expr α)) : Expr α :=
  args.foldl (call a) callee

/-- Several local definitions, the first one outermost. -/
def lets (a : α) (defs : List (String × Expr α)) (body : Expr α) : Expr α :=
  defs.foldr (fun d b => letIn a d.1 d.2 b) body

end Expr

/-- A program as it is read. -/
abbrev Program := Expr Unit

end Mlf
