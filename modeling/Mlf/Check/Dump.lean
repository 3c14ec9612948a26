import Mlf.Expr.Printer

/-!
# Typed trees in full

Every node of a typed tree is shown as a record with its fields on lines of their own. Fields that
are nodes are indented below their record, and the type of a node is its last field.
-/

namespace Mlf.Check

/-- The blanks in front of a line at a depth. -/
def indent (depth : Nat) : String := "".pushn ' ' (2 * depth)

/-- A text with its kind and its size in bytes. -/
def dumpText (kind s : String) : String :=
  let size := if s.isEmpty then "" else "(len=" ++ toString s.utf8ByteSize ++ ") "
  "(" ++ kind ++ ") " ++ size ++ Text.quote s

/-- A constant with its kind. -/
def dumpValue : Value → String
  | .string s => dumpText "ast.String" s
  | .number n => "(ast.Number) " ++ (Value.number n).render
  | .boolean b => "(ast.Boolean) " ++ (Value.boolean b).render

/-- A type with the word for its form. -/
def dumpType (t : Polytype) : String :=
  let form := match t with
    | .bottom => "BottomType"
    | t => t.form
  "(*types." ++ form ++ ")(" ++ t.render ++ ")"

/-- A diagnostic with the word for its kind. -/
def dumpReport (d : Diagnostic) : String :=
  let kind := match d with
    | .unbound _ => "UnboundVariable"
    | .incompatible .. => "IncompatibleTypes"
    | .infinite .. => "InfiniteType"
    | .internal _ => "Internal"
    | .host .. => "Host"
  "(diagnostics." ++ kind ++ ") " ++ d.message

/-- A record at a depth, with the word for its form. -/
def dumpRecord (depth : Nat) (form : String) (fields : List (String × String)) : String :=
  let lines := fields.map fun (key, value) => indent (depth + 1) ++ key ++ ": " ++ value
  "(*ast." ++ form ++ ")(\x7b\n" ++ ",\n".intercalate lines ++ "\n" ++ indent depth ++ "\x7d)"

/-- A typed tree at a depth. -/
def dump (depth : Nat) (e : Expr Polytype) : String :=
  match e with
  | .missing => "(ast.Expr) <nil>"
  | .unknown => dumpRecord depth e.form []
  | .var t x => dumpRecord depth e.form [("Name", dumpText "string" x), ("inferred", dumpType t)]
  | .const t v => dumpRecord depth e.form [("Value", dumpValue v), ("inferred", dumpType t)]
  | .func t x b =>
    dumpRecord depth e.form
      [("Param", dumpText "string" x), ("Body", dump (depth + 1) b), ("inferred", dumpType t)]
  | .call t c a =>
    dumpRecord depth e.form
      [("Callee", dump (depth + 1) c), ("Arg", dump (depth + 1) a), ("inferred", dumpType t)]
  | .letIn t x v b =>
    dumpRecord depth e.form
      [("Name", dumpText "string" x), ("Value", dump (depth + 1) v), ("Body", dump (depth + 1) b),
        ("inferred", dumpType t)]
  | .annot t v s =>
    dumpRecord depth e.form
      [("Expr", dump (depth + 1) v), ("Declared", dumpType s), ("inferred", dumpType t)]
  | .error t d i =>
    dumpRecord depth e.form
      [("Diagnostic", dumpReport d), ("Expr", dump (depth + 1) i), ("inferred", dumpType t)]

end Mlf.Check
