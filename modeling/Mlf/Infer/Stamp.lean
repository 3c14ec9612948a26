import Mlf.Expr.Basic
import Mlf.Prefix.Resolve

/-!
# Types of nodes while inference goes on

A node gets its type as soon as it is known, but the variables in it may be solved later. Such a
type stays pending: whenever a level is left, the pending types below it are resolved, while the
variables of the level are still in play. A type that then mentions no variable of an older level is
settled, since nothing can change it any more.
-/

namespace Mlf

/-- The type of a node, and whether variables in it may still be solved. -/
structure Stamp where
  type : Polytype
  pending : Bool
deriving DecidableEq, Repr

namespace Stamp

/-- A type that is known for good. -/
def settled (t : Polytype) : Stamp := ⟨t, false⟩

/-- A type that is pending if it has free variables. -/
def of (t : Polytype) : Stamp := ⟨t, t.freeVars.size != 0⟩

end Stamp

namespace Prefix

/-- Whether a type mentions a variable of a level older than the current one. -/
def mentionsOlder (p : Prefix) (t : Polytype) : Bool :=
  t.freeVars.toList.any fun x => (p.find? x).any fun e => e.level < p.level

/-- The type of a node as the current level is left. -/
def settle (p : Prefix) (s : Stamp) : Stamp :=
  if s.pending then
    let t := p.resolved s.type
    ⟨t, p.mentionsOlder t⟩
  else s

/-- The misuses that come up as the type of a node is resolved. -/
def settleFailures (p : Prefix) (s : Stamp) : List Failure :=
  if s.pending then (p.resolution [] s.type.freeVars.toList).2 else []

end Prefix

end Mlf
