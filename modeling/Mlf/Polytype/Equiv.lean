import Mlf.Polytype.Normal

/-!
# Equivalence of types

Two types are equivalent when their normal forms agree up to the names of quantified variables. Free
variables have to agree in name.
-/

namespace Mlf

/-- Pairs of quantified variables that are bound together, innermost first. -/
abbrev Pairing := List (String × String)

/-- Whether two variables are bound together, or are both free and of one name. -/
def Pairing.same : Pairing → String → String → Bool
  | [], x, y => x == y
  | (a, b) :: r, x, y => if a == x || b == y then a == x && b == y else same r x y

/-- Whether two monotypes agree up to a pairing of their variables. -/
def Monotype.alphaEq (r : Pairing) : Monotype → Monotype → Bool
  | var x, var y => r.same x y
  | const c, const d => c == d
  | fn p b, fn q c => p.alphaEq r q && b.alphaEq r c
  | _, _ => false

namespace Polytype

/-- Whether two types agree up to the names of their quantified variables, under a pairing of the
free ones. -/
def alphaEq (r : Pairing) : Polytype → Polytype → Bool
  | mono m, mono n => m.alphaEq r n
  | bottom, bottom => true
  | all x k b t, all y l c u => k == l && b.alphaEq r c && t.alphaEq ((x, y) :: r) u
  | _, _ => false

/-- Whether two types have the same normal form up to the names of quantified variables. -/
def equivalent (a b : Polytype) : Bool := a.normal.alphaEq [] b.normal

end Polytype

end Mlf
