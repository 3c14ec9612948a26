import Mlf.Name.Supply
import Mlf.Polytype.Free

/-!
# Printed types

A type is printed with its quantifiers in one list, `∀A, (B ≥ σ), (C = σ). τ`: a flexible bound is
marked `≥`, a rigid one `=`, and a flexible bottom bound is left out. Quantified variables are shown
as capital letters, handed out from left to right over the whole type; letters that are names of
free variables are passed over. The arrow associates to the right.
-/

namespace Mlf

/-- The shown names of the quantified variables in scope, innermost first. -/
abbrev ShownNames := List (String × String)

/-- Prints a monotype, in parentheses if it is a function in the place of a parameter. -/
def Monotype.render (shown : ShownNames) (asParam : Bool) : Monotype → String
  | var x => (shown.lookup x).getD x
  | const c => c.text
  | fn p b =>
    let text := p.render shown true ++ " → " ++ b.render shown false
    if asParam then "(" ++ text ++ ")" else text

/-- The mark between a quantified variable and its bound. -/
def BoundKind.mark : BoundKind → String
  | flexible => " ≥ "
  | rigid => " = "

namespace Polytype

/-- Prints a type in which the names `free` are free and the letters before position `next` are used
up; `inChain` tells that quantifiers stand right before it. Returns the next unused position, too.
-/
def renderFrom (free : NameSet) (shown : ShownNames) (inChain : Bool) (next : Nat) :
    Polytype → String × Nat
  | mono m => ((if inChain then ". " else "") ++ m.render shown false, next)
  | bottom => ((if inChain then ". " else "") ++ "⊥", next)
  | all x k b t =>
    let (letter, next) := Supply.capitals.firstFree free.toList next
    let (binder, next) :=
      if k = .flexible ∧ b = bottom then (letter, next)
      else
        let (bound, next) := b.renderFrom free shown false next
        ("(" ++ letter ++ k.mark ++ bound ++ ")", next)
    let (rest, next) := t.renderFrom free ((x, letter) :: shown) true next
    ((if inChain then ", " else "∀") ++ binder ++ rest, next)

/-- Prints a type. -/
def render (t : Polytype) : String := (t.renderFrom t.freeVars [] false 0).1

end Polytype

end Mlf
