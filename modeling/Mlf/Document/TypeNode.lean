import Mlf.Document.ShapeError
import Mlf.Polytype.Normal

/-!
# Types in documents

A type is one of the scalars `boolean`, `number`, `string` and `bottom`, or a mapping with one of
the keys `var`, `fun` (parameter types followed by the result type) or `forall` (with `body`). The
bindings of `forall` have a `name`, and may have a `bound` and be `rigid`. A type is brought to
normal form as it is read.

A node can stand for a type in two places: where any type may stand, and as a part of a function,
where a monotype is required. `TypeNode.reading` answers for both, because the keys of a node with
several of them count in another order there.

`TypeNode.ofPolytype` is the way back: it writes a type as a node that stands for it.
-/

namespace Mlf.Document

/-- A binding of `forall`, with bounds of type `τ`. -/
structure BinderNode (τ : Type) where
  name : String
  bound : Option τ
  rigid : Bool

/-- A node of a document where a type is expected: the text of a scalar, or the fields of a mapping.
A name or variable that is not there is empty. -/
structure TypeNode where
  line : Nat
  /-- The text of a scalar. -/
  name : String
  var : String
  /-- The parts of a function, the result last. -/
  parts : Option (List TypeNode)
  binders : Option (List (BinderNode TypeNode))
  body : Option TypeNode

/-! ## What a node stands for -/

/-- What a node stands for as a type, and as a part of a function. -/
structure TypeReading where
  poly : Except ShapeError Polytype
  mono : Except ShapeError Monotype

namespace TypeReading

/-- A node that stands for no type. -/
def empty (line : Nat) : TypeReading := ⟨.error (.emptyType line), .error (.emptyType line)⟩

/-- A type, which is a part of a function only if it is a monotype. -/
def ofPoly (line : Nat) (t : Except ShapeError Polytype) : TypeReading where
  poly := t
  mono := do
    match ← t with
    | .mono m => return m
    | _ => throw (.notMonotype line)

/-- A monotype. -/
def ofMono (t : Except ShapeError Monotype) : TypeReading := ⟨t.map .mono, t⟩

end TypeReading

/-- The type with a name. -/
def namedType (line : Nat) (name : String) : Except ShapeError Polytype :=
  match name with
  | "boolean" => return .mono (.const .boolean)
  | "number" => return .mono (.const .number)
  | "string" => return .mono (.const .string)
  | "bottom" => return .bottom
  | _ => throw (.unknownType line name)

/-- The function with the given parts, the result being the last one. -/
def functionType (line : Nat) (parts : List TypeReading) : Except ShapeError Monotype :=
  match parts.reverse with
  | result :: param :: params => do
    let result ← result.mono
    (param :: params).foldlM (fun t p => return .fn (← p.mono) t) result
  | _ => throw (.shortFunction line)

/-- The binding for which a node of the list under `forall` stands. -/
def BinderNode.binding (line : Nat) (b : BinderNode TypeReading) : Except ShapeError Binding := do
  if b.name = "" then throw (.bindingWithoutName line)
  let t ← match b.bound with
    | none => pure .bottom
    | some t => t.poly
  return ⟨b.name, if b.rigid then .rigid else .flexible, t⟩

/-- The type with the given bindings and body. -/
def quantifiedType (line : Nat) (binders : List (BinderNode TypeReading))
    (body : Option TypeReading) : Except ShapeError Polytype := do
  match body with
  | none => throw (.forallWithoutBody line)
  | some body =>
    let bs ← binders.mapM (·.binding line)
    return .quantifyAll bs (← body.poly)

namespace TypeNode

/-- What a node stands for, given what the nodes below it stand for. A name and `forall` come before
the other keys where any type may stand, and after them in a function. -/
def meaning (line : Nat) (name var : String) (parts : Option (List TypeReading))
    (binders : Option (List (BinderNode TypeReading))) (body : Option TypeReading) : TypeReading :=
  let poly? : Option (Except ShapeError Polytype) :=
    if name ≠ "" then some (namedType line name) else binders.map (quantifiedType line · body)
  let mono? : Option (Except ShapeError Monotype) :=
    if var ≠ "" then some (.ok (.var var)) else parts.map (functionType line)
  match poly?, mono? with
  | none, none => .empty line
  | none, some m => .ofMono m
  | some t, none => .ofPoly line t
  | some t, some m => ⟨t, m⟩

mutual

/-- What a node stands for. -/
def reading : TypeNode → TypeReading
  | ⟨line, name, var, parts, binders, body⟩ =>
    meaning line name var (partReadings parts) (binderReadings binders) (bodyReading body)

/-- What the parts of a function stand for. -/
def partReadings : Option (List TypeNode) → Option (List TypeReading)
  | none => none
  | some ps => some (readings ps)

/-- What the nodes of a list stand for. -/
def readings : List TypeNode → List TypeReading
  | [] => []
  | n :: ns => n.reading :: readings ns

/-- What the bounds of the bindings stand for. -/
def binderReadings : Option (List (BinderNode TypeNode)) → Option (List (BinderNode TypeReading))
  | none => none
  | some bs => some (boundReadings bs)

/-- What the bounds of a list of bindings stand for. -/
def boundReadings : List (BinderNode TypeNode) → List (BinderNode TypeReading)
  | [] => []
  | ⟨name, bound, rigid⟩ :: bs => ⟨name, bodyReading bound, rigid⟩ :: boundReadings bs

/-- What a node stands for that need not be there. -/
def bodyReading : Option TypeNode → Option TypeReading
  | none => none
  | some n => some n.reading

end

/-- The type for which a node stands. -/
def polytype (n : TypeNode) : Except ShapeError Polytype := n.reading.poly

/-! ## Nodes for types -/

/-- A node on a line, without a name and without fields. -/
def empty (line : Nat) : TypeNode := ⟨line, "", "", none, none, none⟩

/-- The name of a base type in documents. -/
def baseName : BaseType → String
  | .boolean => "boolean"
  | .number => "number"
  | .string => "string"

/-- A node for a monotype. -/
def ofMonotype (line : Nat) : Monotype → TypeNode
  | .var x => { empty line with var := x }
  | .const c => { empty line with name := baseName c }
  | .fn p b => { empty line with parts := some [ofMonotype line p, ofMonotype line b] }

/-- A node for the type that quantifies the type of a node; quantifiers in a row share one node. -/
def quantify (b : BinderNode TypeNode) (n : TypeNode) : TypeNode :=
  match n.binders with
  | none => { empty n.line with binders := some [b], body := some n }
  | some bs => { n with binders := some (b :: bs) }

/-- A node for a type. -/
def ofPolytype (line : Nat) : Polytype → TypeNode
  | .mono m => ofMonotype line m
  | .bottom => { empty line with name := "bottom" }
  | .all x k b t => quantify ⟨x, some (ofPolytype line b), decide (k = .rigid)⟩ (ofPolytype line t)

end TypeNode

end Mlf.Document
