import Mlf.Polytype.Subst

/-!
# Variables in messages

Messages show the variables that inference made up as small letters, handed out in the order in
which the variables first occur in the types of the message. Letters that are names of other free
variables of these types are passed over.
-/

namespace Mlf

/-- The shown names of the generated names in a list, after those in `shown`, where the letters
before position `next` are used up. -/
def showGenerated (taken : List String) (shown : NameMap String) (next : Nat) :
    List String → NameMap String
  | [] => shown
  | x :: xs =>
    if Supply.isGenerated x && !shown.contains x then
      let (letter, next) := Supply.smalls.firstFree taken next
      showGenerated taken (shown.insert x letter) next xs
    else
      showGenerated taken shown next xs

/-- The shown names of the generated names that are free in the types of one message. -/
def displayNames (ts : List Polytype) : NameMap String :=
  let taken := ts.foldl (fun names t => names.union t.freeVars) (∅ : NameSet)
  showGenerated taken.toList ∅ 0 (ts.flatMap Polytype.occurrences)

/-- A type with shown names for its free variables. -/
def Polytype.display (names : NameMap String) (t : Polytype) : Polytype := t.subst (names.map .var)

end Mlf
