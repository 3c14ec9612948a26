import Mlf.Diagnostic.Basic

/-!
# The events of a run

Inference and its parts note what they do, so that a run can be followed in a log.
-/

namespace Mlf

/-- A step of a run that is worth noting. -/
inductive Event where
  /-- A variable was made up, at a level, with a bound. -/
  | newType (name : String) (level : Nat) (bound : Polytype)
  /-- The bound of a variable changed. -/
  | update (name : String) (bound : Bound)
  /-- The variables in play were misused. -/
  | failure (cause : Failure)
  /-- Two types were compared, after solved variables at their tops were replaced. -/
  | unify (actual expected : Monotype)
  /-- Unification met a variable that is not in play. -/
  | unifyFailure (fault : Fault)
  /-- A function got its type. -/
  | function (param : String) (type : Polytype)
  /-- A call got its type. -/
  | call (type : Polytype) (failed : Bool)
  /-- The whole program got its type. -/
  | inferred (type : Polytype) (reports : List Diagnostic)
deriving DecidableEq, Repr

end Mlf
