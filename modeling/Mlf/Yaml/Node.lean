/-!
# YAML nodes

A YAML text is read as a tree of scalars, sequences and mappings. Each node knows the line on which
it starts, counted from 1, for messages about it.
-/

namespace Mlf.Yaml

/-- A node of a YAML text. -/
inductive Node where
  /-- A text, and whether it was written without quotes. -/
  | scalar (line : Nat) (plain : Bool) (text : String)
  | seq (line : Nat) (items : List Node)
  | map (line : Nat) (entries : List (Node × Node))
deriving Repr

namespace Node

instance : Inhabited Node := ⟨scalar 0 true ""⟩

/-- The line on which a node starts. -/
def line : Node → Nat
  | scalar l .. | seq l _ | map l _ => l

/-- The text of a scalar; other nodes have none. -/
def text : Node → String
  | scalar _ _ s => s
  | _ => ""

/-- A node that is left out. -/
def absent (line : Nat) : Node := scalar line true ""

/-- Whether two keys are written alike: of the same form, and scalars with the same text. -/
def sameKey : Node → Node → Bool
  | scalar _ _ s, scalar _ _ t => s == t
  | seq .., seq .. => true
  | map .., map .. => true
  | _, _ => false

end Node

end Mlf.Yaml
