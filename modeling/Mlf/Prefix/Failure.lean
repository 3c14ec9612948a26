import Mlf.Polytype.Printer

/-!
# Misuse of the type variables in play

What can go wrong when the variables of an inference run are used against their rules, and how it is
worded.
-/

namespace Mlf

/-- A misuse of the type variables in play. -/
inductive Failure where
  /-- A level was left where there is none. -/
  | noLevel
  /-- A variable was added where there is no level to own it. -/
  | unowned (name : String)
  /-- The bound of an unknown variable was to change. -/
  | unknownUpdate (name : String)
  /-- Two variables were to become one, and one of them is unknown. -/
  | unknownMerge (first second : String)
  /-- An unknown variable was to be quantified. -/
  | unknownGeneralize (name : String)
  /-- The bounds lead from a variable back to it. -/
  | selfBound (type : Monotype)
deriving DecidableEq, Repr

/-- The wording of a misuse. -/
def Failure.message : Failure → String
  | noLevel => "cannot pop a level from an empty prefix"
  | unowned x => "cannot add type variable " ++ x ++ " outside of a level"
  | unknownUpdate x => "cannot update unknown type variable " ++ x
  | unknownMerge x y => "cannot merge unknown type variables " ++ x ++ " and " ++ y
  | unknownGeneralize x => "cannot generalize unknown type variable " ++ x
  | selfBound t => "type variable " ++ t.render [] false ++ " is bound to itself"

end Mlf
