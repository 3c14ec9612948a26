/-!
# Unused names

A supply is an endless sequence of candidate names. A search for an unused name takes the first
candidate, from a given position on, that is not among the taken names. Each candidate that turns
out to be taken is struck from the list of taken names, so the search ends; no candidate comes
twice, so nothing is lost by striking it.

Four supplies are used: derived names for the renaming of quantifiers, capital letters for printed
types, small letters for the types in messages, and numbered names for the variables of inference.
-/

namespace Mlf

/-- A sequence of candidate names. -/
abbrev Supply := Nat → String

namespace Supply

/-- The first candidate at or after `start` that is not taken, and the position just past it. -/
def firstFree (candidate : Supply) (taken : List String) (start : Nat) : String × Nat :=
  if h : candidate start ∈ taken then
    firstFree candidate (taken.erase (candidate start)) (start + 1)
  else
    (candidate start, start + 1)
termination_by taken.length
decreasing_by
  have := List.length_erase_of_mem h
  have := List.length_pos_of_mem h
  omega

/-- The names derived from `base`: a mark and a number, `base'1`, `base'2`, … -/
def derived (base : String) : Supply := fun i => base ++ "'" ++ toString (i + 1)

/-- A letter of the alphabet that starts at `first`, with the number of the round after the first
one. -/
def lettered (first : Char) : Supply := fun i =>
  let letter := String.singleton (Char.ofNat (first.toNat + i % 26))
  if i < 26 then letter else letter ++ toString (i / 26)

/-- The names of quantified variables in printed types: `A` to `Z`, then `A1`, `B1`, … -/
def capitals : Supply := lettered 'A'

/-- The names of inferred variables in messages: `a` to `z`, then `a1`, `b1`, … -/
def smalls : Supply := lettered 'a'

/-- The mark that starts the names which inference makes up. -/
def generatedMark : Char := '$'

/-- The names that inference makes up: `$1`, `$2`, … -/
def numbered : Supply := fun i => String.singleton generatedMark ++ toString (i + 1)

/-- Whether a name has the form of one that inference made up. -/
def isGenerated (x : String) : Bool := x.toList.head? == some generatedMark

end Supply

/-- A name derived from `base` that is not taken. -/
def freshName (base : String) (taken : List String) : String :=
  ((Supply.derived base).firstFree taken 0).1

end Mlf
