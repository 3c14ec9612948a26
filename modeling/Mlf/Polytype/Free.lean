import Mlf.Name.Set
import Mlf.Polytype.Basic

/-!
# Free type variables

The free variables of a type come in two views: as a set, built from the sets of the parts, and as
the sequence of free occurrences from left to right, bounds before bodies, repeats kept. The
sequence decides the order in which variables are generalized and named.

Main statements: a name occurs in the sequence exactly when it is in the set (`mem_occurrences`),
and exactly when a walk that builds neither finds it (`mentions_iff`), which decides membership in
the set.
-/

namespace Mlf

namespace Monotype

/-- The names that occur in a monotype. -/
def freeVars : Monotype → NameSet
  | var x => .singleton x
  | const _ => ∅
  | fn p b => p.freeVars.union b.freeVars

/-- Whether a name occurs in a monotype. -/
def mentions (x : String) : Monotype → Bool
  | var y => x == y
  | const _ => false
  | fn p b => p.mentions x || b.mentions x

theorem mentions_iff {x : String} {t : Monotype} : t.mentions x = true ↔ x ∈ t.freeVars := by
  induction t with
  | var y => simp [mentions, freeVars]
  | const _ => simp [mentions, freeVars]
  | fn p b ihp ihb => simp [mentions, freeVars, ihp, ihb]

instance (x : String) (t : Monotype) : Decidable (x ∈ t.freeVars) :=
  decidable_of_iff (t.mentions x = true) mentions_iff

/-- The occurrences of names outside `scope`, from left to right. -/
def occurrencesOutside (scope : List String) : Monotype → List String
  | var x => if x ∈ scope then [] else [x]
  | const _ => []
  | fn p b => p.occurrencesOutside scope ++ b.occurrencesOutside scope

theorem mem_occurrencesOutside {x : String} {scope : List String} {t : Monotype} :
    x ∈ t.occurrencesOutside scope ↔ x ∉ scope ∧ x ∈ t.freeVars := by
  induction t with
  | var y =>
    simp only [occurrencesOutside, freeVars, NameSet.mem_singleton]
    split <;> grind
  | const _ => simp [occurrencesOutside, freeVars]
  | fn p b ihp ihb =>
    simp only [occurrencesOutside, freeVars, List.mem_append, ihp, ihb, NameSet.mem_union]
    grind

end Monotype

namespace Polytype

/-- The names that occur free in a type. -/
def freeVars : Polytype → NameSet
  | mono m => m.freeVars
  | bottom => ∅
  | all x _ b t => b.freeVars.union (t.freeVars.erase x)

/-- Whether a name occurs free in a type. -/
def mentions (x : String) : Polytype → Bool
  | mono m => m.mentions x
  | bottom => false
  | all y _ b t => b.mentions x || (x != y && t.mentions x)

theorem mentions_iff {x : String} {t : Polytype} : t.mentions x = true ↔ x ∈ t.freeVars := by
  induction t with
  | mono m => exact Monotype.mentions_iff
  | bottom => simp [mentions, freeVars]
  | all y k b t ihb iht => simp [mentions, freeVars, ihb, iht]

instance (x : String) (t : Polytype) : Decidable (x ∈ t.freeVars) :=
  decidable_of_iff (t.mentions x = true) mentions_iff

/-- The free occurrences of names outside `scope`, from left to right, bounds before bodies. -/
def occurrencesOutside (scope : List String) : Polytype → List String
  | mono m => m.occurrencesOutside scope
  | bottom => []
  | all x _ b t => b.occurrencesOutside scope ++ t.occurrencesOutside (x :: scope)

/-- The free occurrences of names, from left to right, bounds before bodies. -/
def occurrences (t : Polytype) : List String := t.occurrencesOutside []

theorem mem_occurrencesOutside {x : String} {scope : List String} {t : Polytype} :
    x ∈ t.occurrencesOutside scope ↔ x ∉ scope ∧ x ∈ t.freeVars := by
  induction t generalizing scope with
  | mono m => exact Monotype.mem_occurrencesOutside
  | bottom => simp [occurrencesOutside, freeVars]
  | all y k b t ihb iht =>
    simp only [occurrencesOutside, freeVars, List.mem_append, ihb, iht, NameSet.mem_union,
      NameSet.mem_erase, List.mem_cons]
    grind

theorem mem_occurrences {x : String} {t : Polytype} : x ∈ t.occurrences ↔ x ∈ t.freeVars := by
  simp [occurrences, mem_occurrencesOutside]

end Polytype

end Mlf
