import Mlf.Prefix.Reach

/-!
# Solved variables

Resolving a type replaces its solved variables by what they stand for, as far as that goes.
Solutions that lead back to their own variable are a misuse: the variable is left alone where the
cycle closes.

Two types are one and the same where they come from the solution of one variable; that takes no look
at the types themselves.
-/

namespace Mlf

namespace Prefix

theorem find?_of_solution? {p : Prefix} {x : String} {m : Monotype} (h : p.solution? x = some m) :
    ∃ e, p.find? x = some e := by
  unfold solution? at h
  cases hx : p.find? x with
  | none => simp [hx] at h
  | some e => exact ⟨e, rfl⟩

/-- What the solved variables among `names` stand for, and the misuses on the way; `path` holds the
variables that are being replaced. -/
def resolution (p : Prefix) (path names : List String) : Subst × List Failure :=
  match names with
  | [] => (∅, [])
  | x :: rest =>
    match _ : p.solution? x with
    | none => p.resolution path rest
    | some m =>
      -- The solution leads back to a variable that is being replaced.
      if _ : x ∈ path then
        let (s, fs) := p.resolution path rest
        (s, .selfBound (.var x) :: fs)
      else
        let (inner, fs) := p.resolution (x :: path) m.freeVars.toList
        let (s, gs) := p.resolution path rest
        (s.insert x (m.subst inner), fs ++ gs)
termination_by (p.unseen path, names.length)
decreasing_by
  · exact Prod.Lex.right _ (by simp)
  · exact Prod.Lex.right _ (by simp)
  · obtain ⟨e, he⟩ := find?_of_solution? ‹p.solution? x = some m›
    exact Prod.Lex.left _ _ (unseen_cons_lt he ‹_›)
  · exact Prod.Lex.right _ (by simp)

/-- A type with its solved variables replaced. -/
def resolved (p : Prefix) (t : Polytype) : Polytype := t.subst (p.resolution [] t.freeVars.toList).1

/-- A monotype with its solved variables replaced. -/
def resolvedMono (p : Prefix) (t : Monotype) : Monotype :=
  t.subst (p.resolution [] t.freeVars.toList).1

/-- Replaces the solved variables of a type and records the misuses on the way. -/
def resolve (p : Prefix) (t : Polytype) : Polytype × Prefix :=
  (p.resolved t, p.failAll (p.resolution [] t.freeVars.toList).2)

/-- Replaces the solved variables of a monotype and records the misuses on the way. -/
def resolveMono (p : Prefix) (t : Monotype) : Monotype × Prefix :=
  (p.resolvedMono t, p.failAll (p.resolution [] t.freeVars.toList).2)

/-- Follows solutions from a variable for at most `steps` steps, and tells whether that was enough.
-/
def follow (p : Prefix) : (steps : Nat) → Monotype → Monotype × Bool
  | 0, t => (t, false)
  | n + 1, .var x =>
    match p.solution? x with
    | none => (.var x, true)
    | some m => p.follow n m
  | _ + 1, t => (t, true)

/-- The monotype that a variable stands for at its top; more steps than there are variables mean a
cycle. -/
def resolveTop (p : Prefix) (t : Monotype) : Monotype × Prefix :=
  match p.follow (p.size + 1) t with
  | (m, true) => (m, p)
  | (m, false) => (m, p.fail (.selfBound m))

/-- The last of the solved variables that lead from a type to what it stands for. -/
def source? (p : Prefix) : (steps : Nat) → Monotype → Option String
  | n + 1, .var x => (p.solution? x).map fun m => (p.source? n m).getD x
  | _, _ => none

/-- Whether two types stand for the solution of one variable. -/
def shares (p : Prefix) (a b : Monotype) : Bool :=
  match p.source? (p.size + 1) a, p.source? (p.size + 1) b with
  | some x, some y => x = y
  | _, _ => false

end Prefix

end Mlf
