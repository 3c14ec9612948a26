import Mlf.Name.Map
import Mlf.Polytype.Printer

/-!
# Scopes

A scope gives types to the variables of a program.
-/

namespace Mlf

/-- The types of the variables in scope. -/
abbrev Scope := NameMap Polytype

namespace Scope

/-- The type variables that are free in the types of a scope. -/
def freeVars (s : Scope) : NameSet := s.values.foldr (fun t names => t.freeVars.union names) ∅

/-- The variables with their types, one to a line, in increasing order. -/
def lines (s : Scope) : List String :=
  (s.toList.map fun b => b.1 ++ " : " ++ b.2.render).mergeSort (fun x y => decide (x ≤ y))

end Scope

end Mlf
