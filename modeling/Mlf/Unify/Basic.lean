import Mlf.Polytype.Equiv
import Mlf.Unify.Display
import Mlf.Unify.Session

/-!
# Unification

Unification narrows the variables in play until two monotypes agree. Two variables become one
variable with the common instances of their bounds; a variable and another type make the variable
solved, if the type is an instance of its bound. A rigid bound is never narrowed. The common
instances of two bounds are found by unifying an instance of each at a level of its own and
generalizing the outcome.

A mismatch is reported and unification goes on with the parts that are left, so that one call may
report several mismatches; the verdict is the first of them.

Two types that are one solution of one variable need no look at their parts. Whether they are is
asked of a test that the definitions take as a parameter.

The recursion follows types and bounds. What was narrowed before a mismatch stays narrowed, and the
parts that are left may narrow it further, so the recursion need not end. The definitions take fuel,
the depth to which they may nest.
-/

namespace Mlf

/-- The outcome of a unification: nothing, or the first diagnostic that it reported. -/
abbrev Verdict := Option Diagnostic

/-- A way to unify an actual and an expected type; the flag tells that they are the type of a
function and the type at which it is called. -/
abbrev UnifierIn (m : Type → Type) := Monotype → Monotype → Bool → m Verdict

@[inherit_doc UnifierIn]
abbrev Unifier := UnifierIn Solve

namespace Unify

open Solve

/-- Reports that two types do not match. -/
def mismatch (actual expected : Polytype) : Solve Verdict := do
  let a ← onVars (·.resolve actual)
  let e ← onVars (·.resolve expected)
  let names := displayNames [a, e]
  let d := Diagnostic.incompatible (a.display names) (e.display names)
  report d
  return some d

/-- Reports that a variable would have to contain itself. -/
def infinite (x : String) (t : Polytype) : Solve Verdict := do
  let t ← onVars (·.resolve t)
  let names := displayNames [.mono (.var x), t]
  let d := Diagnostic.infinite ((names.find? x).getD x) (t.display names)
  report d
  return some d

/-- Reports that a variable is not in play. -/
def unbound (x : String) : Solve Verdict := do
  let f := Fault.unboundVariable x
  note (.unifyFailure f)
  report (.internal f)
  return some (.internal f)

/-- Whether two types are equivalent once solved variables are replaced. -/
def equivalent (a b : Polytype) : Solve Bool := do
  let a ← onVars (·.resolve a)
  let b ← onVars (·.resolve b)
  return a.equivalent b

/-- Whether a variable with a bound would be narrowed against it by standing for a type. -/
def violates (b : Bound) (t : Polytype) : Solve Bool := do
  if b.kind = .rigid then return !(← equivalent t b.type) else return false

/-- An instance of a type, with new variables of the current level. -/
def instantiate (t : Polytype) : Solve Monotype := do
  let (bs, body) := t.normal.split
  match body with
  | .mono m => onVars (·.instantiate bs m)
  | _ => return .var (← onVars (·.newType .unbounded))

section

variable {m : Type → Type} [Monad m] [Stage m]

/-- Unifies instances of two types, and generalizes the outcome. -/
@[specialize]
def unifyPoly (unify : UnifierIn m) (actual expected : Polytype) (call : Bool) :
    m (Polytype × Verdict) := do
  match actual, expected with
  | .bottom, _ => return (expected, none)
  | _, .bottom => return (actual, none)
  | .mono a, .mono e => return (actual, ← unify a e call)
  | _, _ =>
    -- The new variables live at a level of their own, so generalization takes exactly these.
    atLevel do
      let a ← perform (instantiate actual)
      let e ← perform (instantiate expected)
      let verdict ← unify a e call
      return (← perform (onVars (·.generalize a)), verdict)

/-- Makes two unsolved variables one. -/
@[specialize]
def mergeVars (unify : UnifierIn m) (x y : String) (call : Bool) : m Verdict := do
  let p ← perform vars
  match p.find? x, p.find? y with
  | none, _ => perform (unbound x)
  | _, none => perform (unbound y)
  | some ⟨_, a⟩, some ⟨_, b⟩ =>
    -- Two rigid variables without a bound are two unknown constants.
    if a = ⟨.rigid, .bottom⟩ ∧ b = ⟨.rigid, .bottom⟩ then
      return ← perform (mismatch (.mono (.var x)) (.mono (.var y)))
    if p.occurs x b.type then return ← perform (infinite x b.type)
    if p.occurs y a.type then return ← perform (infinite y a.type)
    let (bound, verdict) ← unifyPoly unify a.type b.type call
    if verdict.isSome then return verdict
    if ← perform (violates a bound <||> violates b bound) then
      return ← perform (mismatch a.type b.type)
    -- The common bound may mention what the two variables have been tied to on the way.
    let p ← perform vars
    if p.occurs x bound then return ← perform (infinite x bound)
    if p.occurs y bound then return ← perform (infinite y bound)
    let kind : BoundKind := if a.kind = .rigid ∨ b.kind = .rigid then .rigid else .flexible
    discard (perform (onVars (·.merge x y ⟨kind, bound⟩)))
    return none

/-- Solves a variable by a type that is no variable; `swapped` tells that the type is the actual
one. -/
@[specialize]
def solveVar (unify : UnifierIn m) (x : String) (t : Monotype) (swapped call : Bool) :
    m Verdict := do
  let p ← perform vars
  match p.find? x with
  | none => perform (unbound x)
  | some ⟨_, b⟩ =>
    if p.occurs x t then return ← perform (infinite x t)
    let (_, verdict) ←
      if swapped then unifyPoly unify t b.type call else unifyPoly unify b.type t call
    if verdict.isSome then return verdict
    if ← perform (violates b t) then
      return ← if swapped then perform (mismatch t b.type) else perform (mismatch b.type t)
    -- Narrowing the bound may have tied the type back to the variable.
    if (← perform vars).occurs x t then return ← perform (infinite x t)
    perform (changeVars (·.update x ⟨b.kind, t⟩))
    return none

/-- Unifies two monotypes, their parts by means of `unify`. If they turn out to be the same type,
`same` may tell so from where they come from, and then there is nothing left to do. -/
@[specialize]
def stepUpTo (same : Prefix → Monotype → Monotype → Bool) (unify : UnifierIn m)
    (actual expected : Monotype) (call : Bool) : m Verdict := do
  let a ← perform (onVars (·.resolveTop actual))
  let e ← perform (onVars (·.resolveTop expected))
  perform (note (.unify a e))
  if same (← perform vars) actual expected ∧ a = e then return none
  match a, e with
  | .var x, .var y => if x = y then return none else mergeVars unify x y call
  | .var x, t => solveVar unify x t false call
  | t, .var y => solveVar unify y t true call
  | .const c, .const d => if c = d then return none else perform (mismatch (.mono a) (.mono e))
  | .fn p b, .fn q c =>
    -- In a call the argument is what is found, and the parameter is what is expected.
    let verdict ← if call then unify q p false else unify p q false
    return verdict.or (← unify b c false)
  | _, _ => perform (mismatch (.mono a) (.mono e))

/-- Unifies two monotypes with a bound on the depth of the recursion. -/
@[specialize]
def withinUpTo (same : Prefix → Monotype → Monotype → Bool) : (fuel : Nat) → UnifierIn m
  | 0, _, _, _ => perform giveUp
  | n + 1, actual, expected, call => stepUpTo same (withinUpTo same n) actual expected call

end

/-- Unifies two monotypes, their parts by means of `unify`. A solution that both stand for is the
same type. -/
def step (unify : Unifier) (actual expected : Monotype) (call : Bool) : Solve Verdict :=
  stepUpTo Prefix.shares unify actual expected call

@[inherit_doc withinUpTo]
def within (fuel : Nat) : Unifier := withinUpTo Prefix.shares fuel

/-- A depth that no run reaches: the steps to get there would outlast any machine. -/
def ampleFuel : Nat := Nat.pow 2 62

end Unify

/-- Unifies an actual and an expected type. -/
def unify (fuel : Nat) (actual expected : Monotype) : Solve Verdict :=
  Unify.within fuel actual expected false

/-- Unifies the type of a function with the type at which it is called, so that a mismatch of
parameters is worded from the side of the argument. -/
def unifyCall (fuel : Nat) (actual expected : Monotype) : Solve Verdict :=
  Unify.within fuel actual expected true

end Mlf
