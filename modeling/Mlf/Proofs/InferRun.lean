import Mlf.Infer.Basic
import Mlf.Proofs.UnifyCompleteness

/-!
# Runs of inference

What inference can do is said here once, as a relation between a program, the state before and what a
run leaves behind if it ends: the typed program, its type and the state after. There is one rule for
each form of a program, and two where a look-up may fail or a part may be missing.

A fault is a report in this relation. Where faults stop a run there may be less of it, but a program
without missing or unknown parts gives no occasion for that, so its runs are the same.

Main results:

* `Run` — what inference does with each form of a program;
* `run_of_expr_ok`, `expr_ok_of_run` — the relation is inference, as far as it ends;
* `Run.info` — the types that nodes carry;
* `expr_fatal` — a program without faults does not depend on what faults do.
-/

namespace Mlf

open Solve

namespace Prefix

/-- A monotype for a type: itself, or a new variable that has it as its bound. -/
def monomorphized (p : Prefix) (t : Polytype) (kind : BoundKind) : Monotype × Prefix :=
  match t.normal with
  | .mono m => (m, p)
  | n => (.var (p.newType ⟨kind, n⟩).1, (p.newType ⟨kind, n⟩).2)

/-- The variables in play after the pending types of an expression are resolved. -/
def settled (p : Prefix) (e : Expr Stamp) : Prefix :=
  p.failAll (e.infos.flatMap p.settleFailures)

/-- Adds names to the current level, without bounds. -/
def declare (p : Prefix) (xs : List String) : Prefix :=
  xs.foldl (fun p x => p.add x .unbounded) p

/-- The names of a type that are not in play yet, in increasing order. -/
def wildcards (p : Prefix) (t : Polytype) : List String :=
  t.freeVars.sorted.filter fun x => !p.entries.contains x

end Prefix

namespace Solve

variable {α β : Type} {act : Solve α} {next : α → Solve β} {s s' : Session} {a : α} {b : β}

theorem changeVars_apply (f : Prefix → Prefix) (s : Session) :
    changeVars f s = .ok ((), ⟨f s.vars, s.sink⟩) := rfl

theorem of_bind_ok (h : (act >>= next) s = .ok (b, s')) :
    ∃ a s₁, act s = .ok (a, s₁) ∧ next a s₁ = .ok (b, s') := by
  cases hAct : act s with
  | error halt => rw [bind_of_error hAct] at h; cases h
  | ok out => exact ⟨out.1, out.2, rfl, by rwa [bind_of_ok hAct] at h⟩

/-- What comes after a level of its own goes on where the level is left. -/
theorem atLevel_bind (a : α) (s' : Session) (h : act ⟨s.vars.enter, s.sink⟩ = .ok (a, s')) :
    (atLevel act >>= next) s = next a ⟨s'.vars.leave, s'.sink⟩ :=
  bind_of_ok (atLevel_of_ok h)

theorem of_atLevel_ok (h : atLevel act s = .ok (a, s')) :
    ∃ s₁, act ⟨s.vars.enter, s.sink⟩ = .ok (a, s₁) ∧ s' = ⟨s₁.vars.leave, s₁.sink⟩ := by
  cases hAct : act ⟨s.vars.enter, s.sink⟩ with
  | error halt => rw [atLevel_of_error hAct] at h; cases h
  | ok out =>
    rw [atLevel_of_ok hAct] at h
    cases h
    exact ⟨out.2, rfl, rfl⟩

end Solve

namespace Infer

theorem monomorphize_apply (t : Polytype) (kind : BoundKind) (s : Session) :
    monomorphize t kind s =
      .ok ((s.vars.monomorphized t kind).1, ⟨(s.vars.monomorphized t kind).2, s.sink⟩) := by
  unfold monomorphize Prefix.monomorphized
  cases t.normal with
  | mono m => rfl
  | bottom => rfl
  | all x k b t => rfl

theorem settle_apply (e : Expr Stamp) (s : Session) :
    settle e s = .ok (e.map s.vars.settle, ⟨s.vars.settled e, s.sink⟩) := rfl

/-! ## The forms of a program

Without a history and with bare types at the nodes, the parts of a run follow on one another. -/

section

variable (config : Config) (scope : Scope) (info : Unit)

theorem expr_unknown : expr config scope .unknown = do
    fault config .unknownExpression
    return (.error (.settled .bottom) (.internal .unknownExpression) .unknown, .bottom) := rfl

theorem expr_const (v : Value) : expr config scope (.const info v) =
    return (.const (.settled (.mono (.const v.base))) v, .mono (.const v.base)) := rfl

theorem expr_var (x : String) : expr config scope (.var info x) =
    match scope.find? x with
    | some t => return (.var (.of t) x, t)
    | none => do
      report (.unbound x)
      return (.error (.settled .bottom) (.unbound x) (.var (.settled .bottom) x), .bottom) := by
  rw [expr, exprIn]
  cases scope.find? x with
  | some t => rfl
  | none => rfl

theorem expr_func (x : String) (body : Program) : expr config scope (.func info x body) = do
    let (body, t) ← atLevel do
      let param := Monotype.var (← onVars (·.newType .unbounded))
      let (body, bodyType) ← expr config (scope.insert x param) body
      let result ← monomorphize bodyType .flexible
      let t ← onVars (·.generalize (.fn param result : Monotype))
      return (← settle body, t)
    note (.function x t)
    return (.func (.of t) x body, t) := rfl

theorem expr_call (callee arg : Program) : expr config scope (.call info callee arg) = do
    let (callee, arg, t, verdict) ← atLevel do
      let (callee, calleeType) ← expr config scope callee
      let (arg, argType) ← expr config scope arg
      let function ← monomorphize calleeType .flexible
      let param ← monomorphize argType .flexible
      let result := Monotype.var (← onVars (·.newType .unbounded))
      let verdict ← unifyCall config.fuel function (.fn param result)
      let t ← onVars (·.generalize result)
      return (← settle callee, ← settle arg, t, verdict)
    note (.call t verdict.isSome)
    return (wrap verdict (.of t) (.call (.of t) callee arg), t) := rfl

theorem expr_letIn (x : String) (value body : Program) :
    expr config scope (.letIn info x value body) = do
      let (value, valueType) ← expr config scope value
      let (body, t) ← expr config (scope.insert x valueType) body
      return (.letIn (.of t) x value body, t) := rfl

theorem expr_annot (value : Program) (declared : Polytype) :
    expr config scope (.annot info value declared) = do
      let (value, t, verdict) ← atLevel do
        changeVars fun p => p.declare (p.wildcards declared)
        let (value, valueType) ← expr config scope value
        let actual ← monomorphize valueType .flexible
        let expected ← monomorphize declared .rigid
        let verdict ← unify config.fuel actual expected
        let t ← onVars (·.generalize declared)
        return (← settle value, t.normal, verdict)
      return (wrap verdict (.of t) (.annot (.of t) value declared), t) := rfl

variable {inner : Program}

theorem expr_error (d : Diagnostic) (h : inner ≠ .missing) :
    expr config scope (.error info d inner) = do
      let inner ← atLevel do
        let (inner, _) ← expr config scope inner
        settle inner
      return (.error (.settled .bottom) d inner, .bottom) := by
  rw [expr, exprIn]
  · rfl
  · exact h

end

/-- The runs of inference that end. -/
inductive Run (fuel : Nat) : Scope → Program → Session → Expr Stamp × Polytype → Session → Prop
  | missing (scope : Scope) (s : Session) :
    Run fuel scope .missing s (.missing, .bottom)
      ⟨s.vars, s.sink.report (.internal .emptyExpression)⟩
  | unknown (scope : Scope) (s : Session) :
    Run fuel scope .unknown s
      (.error (.settled .bottom) (.internal .unknownExpression) .unknown, .bottom)
      ⟨s.vars, s.sink.report (.internal .unknownExpression)⟩
  | var {scope : Scope} {info : Unit} {x : String} {t : Polytype} (s : Session)
    (h : scope.find? x = some t) : Run fuel scope (.var info x) s (.var (.of t) x, t) s
  | unbound {scope : Scope} {info : Unit} {x : String} (s : Session) (h : scope.find? x = none) :
    Run fuel scope (.var info x) s
      (.error (.settled .bottom) (.unbound x) (.var (.settled .bottom) x), .bottom)
      ⟨s.vars, s.sink.report (.unbound x)⟩
  | const (scope : Scope) (info : Unit) (v : Value) (s : Session) :
    Run fuel scope (.const info v) s
      (.const (.settled (.mono (.const v.base))) v, .mono (.const v.base)) s
  | func {scope : Scope} {info : Unit} {x param : String} {body : Program} {s s₁ : Session}
    {tree : Expr Stamp} {t u : Polytype} {m : Monotype} {p q v : Prefix}
    (hParam : s.vars.enter.newType .unbounded = (param, p))
    (hBody : Run fuel (scope.insert x (.mono (.var param))) body ⟨p, s.sink⟩ (tree, t) s₁)
    (hResult : s₁.vars.monomorphized t .flexible = (m, q))
    (hType : q.generalize (.mono (.fn (.var param) m)) = (u, v)) :
    Run fuel scope (.func info x body) s (.func (.of u) x (tree.map v.settle), u)
      ⟨(v.settled tree).leave.note (.function x u), s₁.sink⟩
  | call {scope : Scope} {info : Unit} {callee arg : Program} {s s₁ s₂ s₃ : Session}
    {calleeTree argTree : Expr Stamp} {calleeType argType u : Polytype} {f a : Monotype}
    {x : String} {p₁ p₂ p₃ q : Prefix} {verdict : Verdict}
    (hCallee : Run fuel scope callee ⟨s.vars.enter, s.sink⟩ (calleeTree, calleeType) s₁)
    (hArg : Run fuel scope arg s₁ (argTree, argType) s₂)
    (hFunction : s₂.vars.monomorphized calleeType .flexible = (f, p₁))
    (hParam : p₁.monomorphized argType .flexible = (a, p₂))
    (hResult : p₂.newType .unbounded = (x, p₃))
    (hUnify : unifyCall fuel f (.fn a (.var x)) ⟨p₃, s₂.sink⟩ = .ok (verdict, s₃))
    (hType : s₃.vars.generalize (.mono (.var x)) = (u, q)) :
    Run fuel scope (.call info callee arg) s
      (wrap verdict (.of u) (.call (.of u) (calleeTree.map q.settle)
        (argTree.map (q.settled calleeTree).settle)), u)
      ⟨((q.settled calleeTree).settled argTree).leave.note (.call u verdict.isSome), s₃.sink⟩
  | letIn {scope : Scope} {info : Unit} {x : String} {value body : Program} {s s₁ s₂ : Session}
    {valueTree bodyTree : Expr Stamp} {valueType t : Polytype}
    (hValue : Run fuel scope value s (valueTree, valueType) s₁)
    (hBody : Run fuel (scope.insert x valueType) body s₁ (bodyTree, t) s₂) :
    Run fuel scope (.letIn info x value body) s (.letIn (.of t) x valueTree bodyTree, t) s₂
  | annot {scope : Scope} {info : Unit} {value : Program} {declared valueType u : Polytype}
    {s s₁ s₂ : Session} {tree : Expr Stamp} {a e : Monotype} {p₁ p₂ q : Prefix} {verdict : Verdict}
    (hValue : Run fuel scope value
      ⟨s.vars.enter.declare (s.vars.enter.wildcards declared), s.sink⟩ (tree, valueType) s₁)
    (hActual : s₁.vars.monomorphized valueType .flexible = (a, p₁))
    (hExpected : p₁.monomorphized declared .rigid = (e, p₂))
    (hUnify : unify fuel a e ⟨p₂, s₁.sink⟩ = .ok (verdict, s₂))
    (hType : s₂.vars.generalize declared = (u, q)) :
    Run fuel scope (.annot info value declared) s
      (wrap verdict (.of u.normal) (.annot (.of u.normal) (tree.map q.settle) declared), u.normal)
      ⟨(q.settled tree).leave, s₂.sink⟩
  | errorAlone (scope : Scope) (info : Unit) (d : Diagnostic) (s : Session) :
    Run fuel scope (.error info d .missing) s (.error (.settled .bottom) d .missing, .bottom) s
  | error {scope : Scope} {info : Unit} {d : Diagnostic} {inner : Program} {s s₁ : Session}
    {tree : Expr Stamp} {t : Polytype} (hInner : inner ≠ .missing)
    (h : Run fuel scope inner ⟨s.vars.enter, s.sink⟩ (tree, t) s₁) :
    Run fuel scope (.error info d inner) s
      (.error (.settled .bottom) d (tree.map s₁.vars.settle), .bottom)
      ⟨(s₁.vars.settled tree).leave, s₁.sink⟩

/-- A run that goes on after a fault has reported it. -/
theorem of_fault_ok {config : Config} {f : Fault} {s s' : Session} {a : Unit}
    (h : fault config f s = .ok (a, s')) : s' = ⟨s.vars, s.sink.report (.internal f)⟩ := by
  unfold fault at h
  split_ifs at h
  · cases h
  · cases h
    rfl

/-- Where inference ends there is a run, also if faults stop inference: a run that has ended was not
stopped. -/
theorem run_of_ok {config : Config} {scope : Scope} {e : Program} {s s' : Session}
    {out : Expr Stamp × Polytype} (h : expr config scope e s = .ok (out, s')) :
    Run config.fuel scope e s out s' := by
  induction e generalizing scope s s' out with
  | missing =>
    obtain ⟨_, s₁, hFault, h⟩ := of_bind_ok h
    cases h
    rw [of_fault_ok hFault]
    exact .missing scope s
  | unknown =>
    obtain ⟨_, s₁, hFault, h⟩ := of_bind_ok h
    cases h
    rw [of_fault_ok hFault]
    exact .unknown scope s
  | var info x =>
    rw [expr_var] at h
    cases hx : scope.find? x with
    | some t => rw [hx] at h; cases h; exact .var s hx
    | none => rw [hx] at h; cases h; exact .unbound s hx
  | const info v => cases h; exact .const scope info v s
  | func info x body ih =>
    rw [expr_func] at h
    obtain ⟨⟨tree, u⟩, s₁, hLevel, h⟩ := of_bind_ok h
    -- the steps at the level of the parameter, in their order
    obtain ⟨s₂, hAct, rfl⟩ := of_atLevel_ok hLevel
    rw [bind_of_ok (onVars_apply _ _)] at hAct
    obtain ⟨⟨bodyTree, t⟩, s₃, hBody, hAct⟩ := of_bind_ok hAct
    dsimp only at hAct
    rw [bind_of_ok (monomorphize_apply _ _ _), bind_of_ok (onVars_apply _ _),
      bind_of_ok (settle_apply _ _)] at hAct
    cases hAct
    cases h
    -- the rule names the two parts of each result
    exact (Run.func Prod.mk.eta.symm (ih hBody) Prod.mk.eta.symm Prod.mk.eta.symm :)
  | call info callee arg ihCallee ihArg =>
    -- the same for a call, where both parts have runs of their own
    rw [expr_call] at h
    obtain ⟨⟨callee', arg', u, verdict⟩, s₁, hLevel, h⟩ := of_bind_ok h
    obtain ⟨s₂, hAct, rfl⟩ := of_atLevel_ok hLevel
    obtain ⟨⟨calleeTree, calleeType⟩, s₃, hCallee, hAct⟩ := of_bind_ok hAct
    obtain ⟨⟨argTree, argType⟩, s₄, hArg, hAct⟩ := of_bind_ok hAct
    dsimp only at hAct
    rw [bind_of_ok (monomorphize_apply _ _ _), bind_of_ok (monomorphize_apply _ _ _),
      bind_of_ok (onVars_apply _ _)] at hAct
    obtain ⟨verdict', s₅, hUnify, hAct⟩ := of_bind_ok hAct
    rw [bind_of_ok (onVars_apply _ _), bind_of_ok (settle_apply _ _),
      bind_of_ok (settle_apply _ _)] at hAct
    cases hAct
    cases h
    exact (Run.call (ihCallee hCallee) (ihArg hArg) Prod.mk.eta.symm Prod.mk.eta.symm
      Prod.mk.eta.symm hUnify Prod.mk.eta.symm :)
  | letIn info x value body ihValue ihBody =>
    rw [expr_letIn] at h
    obtain ⟨⟨valueTree, valueType⟩, s₁, hValue, h⟩ := of_bind_ok h
    obtain ⟨⟨bodyTree, t⟩, s₂, hBody, h⟩ := of_bind_ok h
    cases h
    exact .letIn (ihValue hValue) (ihBody hBody)
  | annot info value declared ih =>
    -- the names of the annotation come into play before its value is looked at
    rw [expr_annot] at h
    obtain ⟨⟨tree, u, verdict⟩, s₁, hLevel, h⟩ := of_bind_ok h
    obtain ⟨s₂, hAct, rfl⟩ := of_atLevel_ok hLevel
    rw [bind_of_ok (changeVars_apply _ _)] at hAct
    obtain ⟨⟨valueTree, valueType⟩, s₃, hValue, hAct⟩ := of_bind_ok hAct
    dsimp only at hAct
    rw [bind_of_ok (monomorphize_apply _ _ _), bind_of_ok (monomorphize_apply _ _ _)] at hAct
    obtain ⟨verdict', s₄, hUnify, hAct⟩ := of_bind_ok hAct
    rw [bind_of_ok (onVars_apply _ _), bind_of_ok (settle_apply _ _)] at hAct
    cases hAct
    cases h
    exact (Run.annot (ih hValue) Prod.mk.eta.symm Prod.mk.eta.symm hUnify Prod.mk.eta.symm :)
  | error info d inner ih =>
    -- an error that stands alone has no level of its own
    by_cases hInner : inner = .missing
    · subst hInner
      cases h
      exact .errorAlone scope info d s
    · rw [expr_error _ _ _ _ hInner] at h
      obtain ⟨tree, s₁, hLevel, h⟩ := of_bind_ok h
      obtain ⟨s₂, hAct, rfl⟩ := of_atLevel_ok hLevel
      obtain ⟨⟨innerTree, t⟩, s₃, hRun, hAct⟩ := of_bind_ok hAct
      cases hAct
      cases h
      exact .error hInner (ih hRun)

theorem run_of_expr_ok {fuel : Nat} {scope : Scope} {e : Program} {s s' : Session}
    {out : Expr Stamp × Polytype} (h : expr ⟨false, fuel⟩ scope e s = .ok (out, s')) :
    Run fuel scope e s out s' := run_of_ok h

/-- Where there is a run inference ends, with the same outcome. -/
theorem expr_ok_of_run {fuel : Nat} {scope : Scope} {e : Program} {s s' : Session}
    {out : Expr Stamp × Polytype} (h : Run fuel scope e s out s') :
    expr ⟨false, fuel⟩ scope e s = .ok (out, s') := by
  induction h with
  | missing => rfl
  | unknown => rfl
  | var s h => rw [expr_var, h]; rfl
  | unbound s h => rw [expr_var, h]; rfl
  | const => rfl
  | @func _ _ x param _ s s₁ tree _ u m _ _ v hParam _ hResult hType ih =>
    rw [expr_func]
    -- what the level ends with is given, so the rest is to run its steps
    refine (atLevel_bind (tree.map v.settle, u) ⟨v.settled tree, s₁.sink⟩ ?_).trans rfl
    rw [bind_of_ok (onVars_apply _ _)]
    dsimp only
    rw [hParam, bind_of_ok ih]
    dsimp only
    rw [bind_of_ok (monomorphize_apply _ _ _), bind_of_ok (onVars_apply _ _),
      bind_of_ok (settle_apply _ _)]
    dsimp only
    rw [hResult, hType]
    rfl
  | @call _ _ _ _ s s₁ s₂ s₃ calleeTree argTree _ _ u _ _ _ _ _ _ q verdict _ _ hFunction hParam
      hResult hUnify hType ihCallee ihArg =>
    rw [expr_call]
    -- the argument is settled after the function, with the books of the latter
    refine (atLevel_bind (calleeTree.map q.settle, argTree.map (q.settled calleeTree).settle, u,
      verdict) ⟨(q.settled calleeTree).settled argTree, s₃.sink⟩ ?_).trans rfl
    rw [bind_of_ok ihCallee]
    dsimp only
    rw [bind_of_ok ihArg]
    dsimp only
    rw [bind_of_ok (monomorphize_apply _ _ _), bind_of_ok (monomorphize_apply _ _ _),
      bind_of_ok (onVars_apply _ _)]
    dsimp only
    rw [hFunction, hParam, hResult, bind_of_ok hUnify, bind_of_ok (onVars_apply _ _),
      bind_of_ok (settle_apply _ _), bind_of_ok (settle_apply _ _)]
    dsimp only
    rw [hType]
    rfl
  | letIn _ _ ihValue ihBody =>
    rw [expr_letIn, bind_of_ok ihValue]
    exact bind_of_ok ihBody
  | @annot _ _ _ _ _ u s s₁ s₂ tree _ _ _ _ q verdict _ hActual hExpected hUnify hType ih =>
    rw [expr_annot]
    refine (atLevel_bind (tree.map q.settle, u.normal, verdict) ⟨q.settled tree, s₂.sink⟩ ?_).trans
      rfl
    rw [bind_of_ok (changeVars_apply _ _)]
    refine (bind_of_ok ih).trans ?_
    dsimp only
    rw [bind_of_ok (monomorphize_apply _ _ _), bind_of_ok (monomorphize_apply _ _ _)]
    dsimp only
    rw [hActual, hExpected, bind_of_ok hUnify, bind_of_ok (onVars_apply _ _),
      bind_of_ok (settle_apply _ _)]
    dsimp only
    rw [hType]
    rfl
  | errorAlone => rfl
  | @error _ _ _ _ s s₁ tree _ hInner _ ih =>
    rw [expr_error _ _ _ _ hInner]
    refine (atLevel_bind (tree.map s₁.vars.settle) ⟨s₁.vars.settled tree, s₁.sink⟩ ?_).trans rfl
    rw [bind_of_ok ih]
    rfl

/-! ## The types of nodes -/

theorem info?_wrap (verdict : Verdict) {t : Polytype} {e : Expr Stamp}
    (h : e.info? = some (.of t)) : (wrap verdict (.of t) e).info? = some (.of t) := by
  cases verdict with
  | none => exact h
  | some d => rfl

/-- Every node that inference has been at carries the type that was found for it. -/
theorem Run.info {fuel : Nat} {scope : Scope} {e : Program} {s s' : Session}
    {out : Expr Stamp × Polytype} (h : Run fuel scope e s out s') (he : e ≠ .missing) :
    out.1.info? = some (.of out.2) ∨ out.1.info? = some (.settled out.2) := by
  cases h with
  | missing => exact absurd rfl he
  | unknown => exact Or.inr rfl
  | var => exact Or.inl rfl
  | unbound => exact Or.inr rfl
  | const => exact Or.inr rfl
  | func => exact Or.inl rfl
  | call => exact Or.inl (info?_wrap _ rfl)
  | letIn => exact Or.inl rfl
  | annot => exact Or.inl (info?_wrap _ rfl)
  | errorAlone => exact Or.inr rfl
  | error => exact Or.inr rfl

end Infer

/-! ## Faults -/

/-- What inference cannot make sense of in a program: its missing and unknown parts, in the order in
which inference comes to them. An error may stand alone. -/
def Expr.faults {α : Type} : Expr α → List Fault
  | .missing => [.emptyExpression]
  | .unknown => [.unknownExpression]
  | .var .. | .const .. => []
  | .func _ _ body => body.faults
  | .call _ callee arg => callee.faults ++ arg.faults
  | .letIn _ _ value body => value.faults ++ body.faults
  | .annot _ value _ => value.faults
  | .error _ _ .missing => []
  | .error _ _ inner => inner.faults

theorem Expr.faults_error {α : Type} {info : α} {d : Diagnostic} {inner : Expr α}
    (h : inner ≠ .missing) : (Expr.error info d inner).faults = inner.faults := by
  rw [faults]
  exact h

namespace Infer

/-- Without missing and unknown parts nothing depends on whether faults stop a run, since these are
the only places where inference of a part looks at that. -/
theorem expr_fatal {e : Program} (h : e.faults = []) (fuel : Nat) (scope : Scope) :
    expr ⟨true, fuel⟩ scope e = expr ⟨false, fuel⟩ scope e := by
  induction e generalizing scope with
  | missing => cases h
  | unknown => cases h
  | var info x => rfl
  | const info v => rfl
  | func info x body ih =>
    simp only [expr_func, ih h]
  | call info callee arg ihCallee ihArg =>
    obtain ⟨hCallee, hArg⟩ := List.append_eq_nil_iff.1 h
    simp only [expr_call, ihCallee hCallee, ihArg hArg]
  | letIn info x value body ihValue ihBody =>
    obtain ⟨hValue, hBody⟩ := List.append_eq_nil_iff.1 h
    simp only [expr_letIn, ihValue hValue, ihBody hBody]
  | annot info value declared ih =>
    simp only [expr_annot, ih h]
  | error info d inner ih =>
    -- an error that stands alone is no fault
    by_cases hInner : inner = .missing
    · subst hInner
      rfl
    · rw [Expr.faults_error hInner] at h
      rw [expr_error _ _ _ _ hInner, expr_error _ _ _ _ hInner, ih h]

/-- A part of a run that does not stop because of a fault. -/
def NeverFatal {α : Type} (act : Solve α) : Prop := ∀ s f, act s ≠ .error (.fatal f)

theorem NeverFatal.bind {α β : Type} {act : Solve α} {next : α → Solve β} (h : NeverFatal act)
    (h' : ∀ a, NeverFatal (next a)) : NeverFatal (act >>= next) := by
  intro s f
  cases hAct : act s with
  | error halt =>
    -- the first part has stopped, and so not because of a fault
    rw [bind_of_error hAct]
    intro hEq
    cases hEq
    exact h s f hAct
  | ok out =>
    rw [bind_of_ok hAct]
    exact h' out.1 out.2 f

theorem NeverFatal.atLevel {α : Type} {act : Solve α} (h : NeverFatal act) :
    NeverFatal (atLevel act) :=
  .bind (fun _ _ => nofun) fun _ => h.bind fun _ => .bind (fun _ _ => nofun) fun _ _ _ => nofun

theorem within_neverFatal (fuel : Nat) (a e : Monotype) (call : Bool) :
    NeverFatal (Unify.within fuel a e call) := by
  intro s f
  obtain ⟨o, lost, -, hResult⟩ := Unify.within_follows fuel a e call s
  rw [hResult]
  cases o with
  | none => exact nofun
  | some out => exact nofun

theorem monomorphize_neverFatal (t : Polytype) (kind : BoundKind) :
    NeverFatal (monomorphize t kind) := by
  intro s f
  rw [monomorphize_apply]
  exact nofun

/-- Where faults are reported they do not stop inference. -/
theorem expr_neverFatal (fuel : Nat) (scope : Scope) (e : Program) :
    NeverFatal (expr ⟨false, fuel⟩ scope e) := by
  induction e generalizing scope with
  -- the fault is reported and the run goes on
  | missing => exact fun _ _ => nofun
  | unknown => exact fun _ _ => nofun
  | var info x =>
    intro s f
    rw [expr_var]
    cases scope.find? x with
    | none => exact nofun
    | some t => exact nofun
  | const info v => exact fun _ _ => nofun
  | func info x body ih =>
    rw [expr_func]
    refine .bind (.atLevel (.bind (fun _ _ => nofun) fun param => .bind (ih _) fun out => ?_))
      fun _ _ _ => nofun
    exact .bind (monomorphize_neverFatal _ _) fun _ _ _ => nofun
  | call info callee arg ihCallee ihArg =>
    rw [expr_call]
    -- callee and argument, and then their unification; nothing else in a call can stop
    refine .bind (.atLevel (.bind (ihCallee _) fun _ => .bind (ihArg _) fun _ => ?_))
      fun _ _ _ => nofun
    refine .bind (monomorphize_neverFatal _ _) fun _ => .bind (monomorphize_neverFatal _ _) fun _ =>
      .bind (fun _ _ => nofun) fun _ => .bind (within_neverFatal _ _ _ _) fun _ _ _ => nofun
  | letIn info x value body ihValue ihBody =>
    rw [expr_letIn]
    exact .bind (ihValue _) fun _ => .bind (ihBody _) fun _ _ _ => nofun
  | annot info value declared ih =>
    rw [expr_annot]
    refine .bind (.atLevel (.bind (fun _ _ => nofun) fun _ => .bind (ih _) fun _ => ?_))
      fun _ _ _ => nofun
    refine .bind (monomorphize_neverFatal _ _) fun _ => .bind (monomorphize_neverFatal _ _) fun _ =>
      .bind (within_neverFatal _ _ _ _) fun _ _ _ => nofun
  | error info d inner ih =>
    by_cases hInner : inner = .missing
    · subst hInner
      exact fun _ _ => nofun
    · rw [expr_error _ _ _ _ hInner]
      exact .bind (.atLevel (.bind (ih _) fun _ _ _ => nofun)) fun _ _ _ => nofun

end Infer

end Mlf
