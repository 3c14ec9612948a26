import Mlf.Name.Map
import Mlf.Name.Supply
import Mlf.Polytype.Free

/-!
# Substitution of monotypes for type variables

A substitution replaces all its names at once, by monotypes. A quantifier that rebinds a name hides
it from the substitution, and a quantifier that would capture a name of a replacement is renamed
first. The new name is derived from the old one and avoids the names of the body, of the bound and
of every replacement.

Main statement: a substitution keeps the number of quantifiers (`quantifiers_subst`).
-/

namespace Mlf

/-- A simultaneous replacement of names by monotypes. -/
abbrev Subst := NameMap Monotype

/-- The names whose replacements mention `x`: where one of them is free, a quantifier over `x` would
capture a name of its replacement. -/
def Subst.mentioning (s : Subst) (x : String) : List String :=
  (s.toList.filter fun b => decide (x ∈ b.2.freeVars)).map Prod.fst

/-- Whether a set holds a name that is replaced. -/
def Subst.meets (s : Subst) (names : NameSet) : Bool := s.keys.any fun x => decide (x ∈ names)

/-- The names of all replacements. -/
def Subst.range (s : Subst) : NameSet :=
  s.values.foldr (fun r names => r.freeVars.union names) ∅

/-- Replaces the names of a monotype. -/
def Monotype.subst (s : Subst) : Monotype → Monotype
  | var x => (s.find? x).getD (var x)
  | const c => const c
  | fn p b => fn (p.subst s) (b.subst s)

/-- Replaces the free names of a type without capture. -/
def Polytype.subst : Polytype → Subst → Polytype
  | mono m, s => mono (m.subst s)
  | bottom, _ => bottom
  | all x k b t, s =>
    let b' := b.subst s
    -- The bound lies outside the scope of `x`, the body inside.
    let inner : Subst := s.erase x
    if (inner.mentioning x).any fun z => decide (z ∈ t.freeVars) then
      let y := freshName x ((t.freeVars.union b'.freeVars).union inner.range).toList
      all y k b' (t.subst (inner.insert x (.var y)))
    else
      all x k b' (t.subst inner)

@[simp] theorem Polytype.quantifiers_subst (t : Polytype) (s : Subst) :
    (t.subst s).quantifiers = t.quantifiers := by
  induction t generalizing s with
  | mono m => rfl
  | bottom => rfl
  | all x k b t ihb iht =>
    simp only [subst]
    split <;> simp [quantifiers, ihb, iht]

end Mlf
