import Mlf.Infer.Stamp
import Mlf.Scope
import Mlf.Unify.Basic

/-!
# Type inference

Inference gives each node of a program a type, in the scope of the variables around it. Functions,
calls and annotations are inferred at a level of their own, and the variables of that level that are
left in their type are generalized. A type with quantifiers is used by putting a variable in its
place that has the type as its bound, so that its quantifiers are instantiated when and where they
have to be.

A part that has no type is wrapped into an error and inference goes on around it. How nodes are
marked with their types is a parameter, like what a run keeps besides.
-/

namespace Mlf

/-- The choices for a run of inference. -/
structure Config where
  /-- Whether a fault of inference itself stops the run. -/
  fatalFaults : Bool
  /-- How deep unification may nest. -/
  fuel : Nat

/-- Faults are reported, and unification may nest as deep as it has to. -/
def Config.standard : Config := ⟨false, Unify.ampleFuel⟩

namespace Infer

open Solve

/-- Reports a fault, or stops because of it. -/
def fault (config : Config) (f : Fault) : Solve Unit :=
  if config.fatalFaults then throw (.fatal f) else report (.internal f)

/-- A monotype for a type: itself, or a new variable that has it as its bound. -/
def monomorphize (t : Polytype) (kind : BoundKind) : Solve Monotype := do
  match t.normal with
  | .mono m => return m
  | n => return .var (← onVars (·.newType ⟨kind, n⟩))

/-- Resolves the pending types of an expression as the current level is left. -/
def settle (e : Expr Stamp) : Solve (Expr Stamp) := do
  let p := (← get).vars
  changeVars (·.failAll (e.infos.flatMap p.settleFailures))
  return e.map p.settle

/-- Wraps an expression into an error with the mark of a node, if there is a report about it. -/
def wrap {σ : Type} (verdict : Verdict) (mark : σ) (e : Expr σ) : Expr σ :=
  match verdict with
  | none => e
  | some d => .error mark d e

/-- How the nodes of an expression are marked with their types while inference goes on. -/
structure Marking (m : Type → Type) (σ : Type) where
  /-- The mark of a type that is pending if it has free variables. -/
  of (t : Polytype) : m σ
  /-- The mark of a type that is known for good. -/
  settled (t : Polytype) : m σ
  /-- Resolves the pending types of an expression as the current level is left. -/
  settle (e : Expr σ) : m (Expr σ)

section

variable {m : Type → Type} [Monad m] [Stage m] {σ : Type}

/-- Infers the types of an expression: the nodes are marked with theirs, and the type of the whole
is returned. -/
@[specialize]
def exprIn (marks : Marking m σ) (config : Config) (scope : Scope) :
    Program → m (Expr σ × Polytype)
  | .missing => do
    perform (fault config .emptyExpression)
    return (.missing, .bottom)
  | .unknown => do
    perform (fault config .unknownExpression)
    let mark ← marks.settled .bottom
    return (.error mark (.internal .unknownExpression) .unknown, .bottom)
  | .var _ x =>
    match scope.find? x with
    | some t => return (.var (← marks.of t) x, t)
    | none => do
      let d := Diagnostic.unbound x
      perform (report d)
      let mark ← marks.settled .bottom
      return (.error mark d (.var mark x), .bottom)
  | .const _ v => do
    let t : Polytype := .mono (.const v.base)
    return (.const (← marks.settled t) v, t)
  | .func _ x body => do
    let (body, t) ← atLevel do
      -- The parameter is a variable of this level until the body says more.
      let param := Monotype.var (← perform (onVars (·.newType .unbounded)))
      let (body, bodyType) ← exprIn marks config (scope.insert x param) body
      let result ← perform (monomorphize bodyType .flexible)
      let t ← perform (onVars (·.generalize (.fn param result : Monotype)))
      return (← marks.settle body, t)
    perform (note (.function x t))
    return (.func (← marks.of t) x body, t)
  | .call _ callee arg => do
    let (callee, arg, t, verdict) ← atLevel do
      let (callee, calleeType) ← exprIn marks config scope callee
      let (arg, argType) ← exprIn marks config scope arg
      let function ← perform (monomorphize calleeType .flexible)
      let param ← perform (monomorphize argType .flexible)
      -- What is called has to be a function from the argument to something.
      let result := Monotype.var (← perform (onVars (·.newType .unbounded)))
      let verdict ← Unify.withinUpTo Prefix.shares config.fuel function (.fn param result) true
      let t ← perform (onVars (·.generalize result))
      return (← marks.settle callee, ← marks.settle arg, t, verdict)
    perform (note (.call t verdict.isSome))
    let mark ← marks.of t
    return (wrap verdict mark (.call mark callee arg), t)
  | .letIn _ x value body => do
    -- The value keeps its quantifiers, and each use of `x` takes an instance of its own.
    let (value, valueType) ← exprIn marks config scope value
    let (body, t) ← exprIn marks config (scope.insert x valueType) body
    return (.letIn (← marks.of t) x value body, t)
  | .annot _ value declared => do
    let (value, t, verdict) ← atLevel do
      -- Names in the declared type that are not in play yet are wildcards.
      perform <| changeVars fun p =>
        (declared.freeVars.sorted.filter fun x => !p.entries.contains x).foldl
          (fun p x => p.add x .unbounded) p
      let (value, valueType) ← exprIn marks config scope value
      let actual ← perform (monomorphize valueType .flexible)
      let expected ← perform (monomorphize declared .rigid)
      let verdict ← Unify.withinUpTo Prefix.shares config.fuel actual expected false
      -- The node has the declared type itself, so that each use can take an instance of it.
      let t ← perform (onVars (·.generalize declared))
      return (← marks.settle value, t.normal, verdict)
    let mark ← marks.of t
    return (wrap verdict mark (.annot mark value declared), t)
  | .error _ d .missing => return (.error (← marks.settled .bottom) d .missing, .bottom)
  | .error _ d inner => do
    let inner ← atLevel do
      let (inner, _) ← exprIn marks config scope inner
      marks.settle inner
    return (.error (← marks.settled .bottom) d inner, .bottom)

/-- Infers the types of a whole program, at the level that owns the free type variables of its
scope. -/
@[specialize]
def treeIn (marks : Marking m σ) (config : Config) (scope : Scope) : Program → m (Expr σ)
  | .missing => do
    perform (fault config .emptyExpression)
    return .missing
  | e => atLevel do
    perform <| changeVars fun p => scope.freeVars.sorted.foldl (fun p x => p.add x .unbounded) p
    let (e, _) ← exprIn marks config scope e
    marks.settle e

end

/-- Nodes are marked with nothing but their types. -/
def stamps : Marking Solve Stamp := ⟨fun t => return .of t, fun t => return .settled t, settle⟩

@[inherit_doc exprIn]
def expr (config : Config) (scope : Scope) (e : Program) : Solve (Expr Stamp × Polytype) :=
  exprIn stamps config scope e

/-- Looks for faults of inference itself when a whole program is done, and notes what was found. -/
def conclude (config : Config) (tree : Expr Polytype) : Solve (Expr Polytype) := do
  for f in (← get).vars.failures do
    fault config (.failure f)
  let p := (← get).vars
  if p.size ≠ 0 ∨ p.level ≠ 0 then
    fault config (.leftover p.names)
  note (.inferred (tree.info?.getD .bottom) (← get).sink.toList)
  return tree

/-- Infers the types of a whole program. There is nothing to look for after one that is not there.
-/
def root (config : Config) (scope : Scope) (e : Program) : Solve (Expr Polytype) := do
  let tree := (← treeIn stamps config scope e).map (·.type)
  match e with
  | .missing => return tree
  | _ => conclude config tree

end Infer

/-- The outcome of inference. -/
structure Inferred where
  /-- The program with the types of its nodes, wrapped into errors where it has none. -/
  tree : Expr Polytype
  sink : Sink
  /-- What happened on the way, in order. -/
  events : List Event

/-- Infers the types of a program in a scope, and reports to a sink. -/
def infer (config : Config) (sink : Sink) (scope : Scope) (program : Program) :
    Except Halt Inferred := do
  let (tree, s) ← (Infer.root config scope program).run ⟨.empty, sink⟩
  return ⟨tree, s.sink, s.vars.trace.reverse⟩

end Mlf
