/-!
# Types with bounded quantifiers

A monotype is a variable, a constant or a function between monotypes. A polytype is a monotype,
bottom, or a quantifier over a polytype. The variable of a quantifier stands for the instances of
its bound: a flexible bound may be narrowed to any of them, a rigid bound is fixed. Every type is an
instance of bottom, so a variable with a flexible bottom bound is an ordinary quantified variable.

The bound of a quantifier lies outside the scope of its own variable.

Main statement: a polytype is the chain of the bindings that it splits into (`chain_split`).
-/

namespace Mlf

/-- The types of constants. -/
inductive BaseType where
  | boolean
  | number
  | string
deriving DecidableEq, Repr

/-- The written name of a constant type. -/
def BaseType.text : BaseType → String
  | boolean => "Boolean"
  | number => "Number"
  | string => "String"

/-- Types without quantifiers. -/
inductive Monotype where
  | var (name : String)
  | const (base : BaseType)
  | fn (param body : Monotype)
deriving DecidableEq, Repr, Inhabited

/-- Whether the variable of a quantifier may be narrowed. -/
inductive BoundKind where
  | flexible
  | rigid
deriving DecidableEq, Repr

/-- The written name of a kind of bound. -/
def BoundKind.text : BoundKind → String
  | flexible => "flexible"
  | rigid => "rigid"

/-- Types with quantifiers: `all x k σ τ` is `τ` for each instance `x` of `σ`. -/
inductive Polytype where
  | mono (type : Monotype)
  | bottom
  | all (name : String) (kind : BoundKind) (bound body : Polytype)
deriving DecidableEq, Repr

instance : Inhabited Polytype := ⟨.bottom⟩

instance : Coe Monotype Polytype := ⟨.mono⟩

/-- What a type variable stands for: the instances of a type, to be narrowed or not. -/
structure Bound where
  kind : BoundKind
  type : Polytype
deriving DecidableEq, Repr

/-- The bound of a variable that stands for any type. -/
def Bound.unbounded : Bound := ⟨.flexible, .bottom⟩

/-- A quantified variable with its bound. -/
structure Binding where
  name : String
  bound : Bound
deriving DecidableEq, Repr

namespace Polytype

/-- The word for the form of a type. -/
def form : Polytype → String
  | mono (.var _) => "Variable"
  | mono (.const _) => "Constant"
  | mono (.fn ..) => "Function"
  | bottom => "Bottom"
  | all .. => "Quantify"

/-- Whether the type is bottom. -/
def isBottom : Polytype → Bool
  | bottom => true
  | _ => false

/-- The monotype, if the type is one. -/
def mono? : Polytype → Option Monotype
  | mono m => some m
  | _ => none

/-- The leading quantifiers, outermost first, and what they range over. -/
def split : Polytype → List Binding × Polytype
  | all x k b t => let (bs, body) := t.split; (⟨x, ⟨k, b⟩⟩ :: bs, body)
  | t => ([], t)

/-- Puts quantifiers in front of a type as they are, the first one outermost. -/
def chain (bs : List Binding) (t : Polytype) : Polytype :=
  bs.foldr (fun b t => all b.name b.bound.kind b.bound.type t) t

/-- The number of quantifiers, those in bounds included. -/
def quantifiers : Polytype → Nat
  | all _ _ b t => b.quantifiers + t.quantifiers + 1
  | _ => 0

@[simp] theorem chain_nil (t : Polytype) : chain [] t = t := rfl

@[simp] theorem chain_cons (b : Binding) (bs : List Binding) (t : Polytype) :
    chain (b :: bs) t = all b.name b.bound.kind b.bound.type (chain bs t) := rfl

theorem chain_split (t : Polytype) : chain t.split.1 t.split.2 = t := by
  induction t with
  | mono m => rfl
  | bottom => rfl
  | all x k b t _ ih => simpa [split] using ih

end Polytype

end Mlf
