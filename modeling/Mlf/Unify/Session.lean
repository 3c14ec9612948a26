import Mlf.Diagnostic.Sink
import Mlf.Prefix.Generalize
import Mlf.Prefix.Resolve

/-!
# The state of a run

A run works on the type variables in play and reports to a sink. It stops early for one of two
reasons: it was given too little fuel for its recursion, or a fault came up while faults are treated
as fatal. What was reported by then is not lost with a run that is out of fuel.

The definitions of unification and inference say in which order parts of a run are done, and leave
open what else is kept on the way: they work in every monad in which the parts can be done.
-/

namespace Mlf

/-- Why a run stops before it is done. -/
inductive Halt where
  /-- The recursion went deeper than the fuel allows; the sink is as it was left. -/
  | outOfFuel (sink : Sink)
  /-- A fault came up, and faults are fatal. -/
  | fatal (fault : Fault)
deriving DecidableEq, Repr

/-- The fault that stopped a run, if it was one. -/
def Halt.fault? : Halt → Option Fault
  | .outOfFuel _ => none
  | .fatal fault => some fault

/-- The state of a run. -/
structure Session where
  vars : Prefix
  sink : Sink

/-- A part of a run. -/
abbrev Solve := StateT Session (Except Halt)

/-- A monad in which parts of a run can be done. -/
class Stage (m : Type → Type) where
  /-- Does a part of a run. -/
  perform {α : Type} (part : Solve α) : m α

export Stage (perform)

instance : Stage Solve := ⟨fun part => part⟩

@[simp]
theorem perform_solve {α : Type} (part : Solve α) : (perform part : Solve α) = part := rfl

namespace Solve

/-- The variables in play. -/
def vars : Solve Prefix := return (← get).vars

/-- Works on the variables in play. -/
def onVars {α : Type} (f : Prefix → α × Prefix) : Solve α :=
  modifyGet fun s => let (a, p) := f s.vars; (a, { s with vars := p })

/-- Changes the variables in play. -/
def changeVars (f : Prefix → Prefix) : Solve Unit := modify fun s => { s with vars := f s.vars }

/-- Notes an event. -/
def note (e : Event) : Solve Unit := changeVars (·.note e)

/-- Reports a diagnostic. -/
def report (d : Diagnostic) : Solve Unit := modify fun s => { s with sink := s.sink.report d }

/-- Stops because the recursion went too deep. -/
def giveUp {α : Type} : Solve α := do throw (.outOfFuel (← get).sink)

/-- Does something at a level of its own. -/
@[specialize]
def atLevel {m : Type → Type} [Monad m] [Stage m] {α : Type} (act : m α) : m α := do
  perform (changeVars (·.enter))
  let a ← act
  perform (changeVars (·.leave))
  return a

end Solve

end Mlf
