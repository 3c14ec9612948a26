import Mlf.Proofs.InferInvariant
import Mlf.Proofs.Silence

/-!
# Principal types

Programs without annotations have a meaning that does not mention variables, bounds or levels: the
ground types that a program can have, given those that its variables can have. A function has the
types that take a ground type to one that its body can have under it, and a local definition stands
for all types that its value can have, each time it is used. Inference computes this set: it reports
something if the set is empty, and otherwise the instances of the type that it finds are the members
of the set.

Within a program the set depends on the variables in play, and so on their solutions. A part of a
program refines them: the solutions that are left are those under which the part has a type at all,
and in each of them its type has the right instances. What is made up at a level of its
own is an instance of the type in question, and the type is read off when the level is left.

Unification may run for ever where there is no solution. Where there is one, its height bounds the
depth of the run, so inference ends if the set is not empty. If the set is empty, something is reported
all the same: a run that does not end is not a silent one.

Main results:

* `Expr.typings` — the ground types of a program;
* `Run.judged` — what inference finds out about a part of a program;
* `returns` — inference ends if there is something to find;
* `infer_principal` — what inference finds out about a whole program.
-/

namespace Mlf

open Solve

variable {p p₁ q : Prefix} {scope : Scope} {arg callee e : Program} {a f : Monotype} {t : Polytype}
  {x : String} {info : Unit} {r : Valuation}

/-! ## The ground types of a program -/

/-- The ground types that the variables of a program can have. -/
abbrev GroundEnv := String → Set Ground

/-- The ground types that a program can have. -/
def Expr.typings {α : Type} : Expr α → GroundEnv → Set Ground
  | .var _ x, G => G x
  | .const _ v, _ => {.const v.base}
  | .func _ x body, G =>
    {g | ∃ param result, g = .fn param result ∧
      result ∈ body.typings (Function.update G x {param})}
  | .call _ callee arg, G =>
    {g | ∃ param ∈ arg.typings G, .fn param g ∈ callee.typings G}
  | .letIn _ x value body, G =>
    {g | (value.typings G).Nonempty ∧ g ∈ body.typings (Function.update G x (value.typings G))}
  | _, _ => ∅

/-- A type without free variables. -/
def Polytype.Closed (t : Polytype) : Prop := ∀ x, x ∉ t.freeVars

/-- A program that is made up of variables, constants, functions, calls and local definitions. -/
def Expr.Unannotated {α : Type} : Expr α → Prop
  | .var .. | .const .. => True
  | .func _ _ body => body.Unannotated
  | .call _ callee arg => callee.Unannotated ∧ arg.Unannotated
  | .letIn _ _ value body => value.Unannotated ∧ body.Unannotated
  | _ => False

/-- The ground types of the variables in a scope. -/
def Scope.ground (scope : Scope) (r : Valuation) : GroundEnv := fun x =>
  match scope.find? x with
  | some t => t.Inst r
  | none => ∅

theorem Scope.ground_insert (scope : Scope) (x : String) (t : Polytype) (r : Valuation) :
    Scope.ground (NameMap.insert scope x t) r = Function.update (scope.ground r) x (t.Inst r) := by
  funext y
  by_cases hyx : y = x
  · simp [ground, hyx]
  · simp [ground, hyx]

theorem Scope.Over.ground_congr (h : scope.Over p) {r' : Valuation}
    (hSame : ∀ x, p.Binds x → r' x = r x) : scope.ground r' = scope.ground r := by
  funext x
  unfold ground
  cases hx : scope.find? x with
  | none => rfl
  | some t => exact (h x t hx).Inst_congr hSame

theorem Expr.Unannotated.faults (h : e.Unannotated) : e.faults = [] := by
  induction e with
  | var info x => rfl
  | const info v => rfl
  | func info x body ih => exact ih h
  | call info callee arg ihCallee ihArg => simp [Expr.faults, ihCallee h.1, ihArg h.2]
  | letIn info x value body ihValue ihBody => simp [Expr.faults, ihValue h.1, ihBody h.2]
  | missing => exact h.elim
  | unknown => exact h.elim
  | annot info value declared ih => exact h.elim
  | error info d inner ih => exact h.elim

namespace Infer

open Prefix

/-! ## What is found out about a part of a program -/

/-- What reports say about a part of a program: without them it has a type, and with them none. -/
inductive Judged (p q : Prefix) (t : Polytype) (types : Valuation → Set Ground) :
    List Diagnostic → Prop
  | typed (h : Typed p q t types) (hq : q.Flexible) (ht : t.Flexible) : Judged p q t types []
  | refuted {d : Diagnostic} {ds : List Diagnostic} (h : ∀ r, p.IsSolution r → types r = ∅) :
    Judged p q t types (d :: ds)

theorem Judged.of_nonempty {types : Valuation → Set Ground} {ds : List Diagnostic}
    (h : Judged p q t types ds) (hr : p.IsSolution r) (hSome : (types r).Nonempty) :
    ds = [] ∧ Typed p q t types ∧ q.Flexible ∧ t.Flexible := by
  cases h with
  | typed hTyped hq ht => exact ⟨rfl, hTyped, hq, ht⟩
  | refuted hNone => exact absurd (hNone r hr) hSome.ne_empty

theorem monomorphized_flexible (hp : p.Flexible) (hLevel : 1 ≤ p.level) (ht : t.Flexible)
    {m : Monotype} (h : p.monomorphized t .flexible = (m, q)) : q.Flexible ∧ q.level = p.level := by
  unfold monomorphized at h
  split at h
  · obtain ⟨-, rfl⟩ := Prod.mk.inj h
    exact ⟨hp, rfl⟩
  · obtain ⟨-, rfl⟩ := Prod.mk.inj h
    have hGrows := newType_grows hLevel ⟨.flexible, t.normal⟩
    exact ⟨hp.grows hGrows rfl (Polytype.flexible_normal ht), hGrows.level⟩

theorem newType_flexible (hp : p.Flexible) (hLevel : 1 ≤ p.level)
    (h : p.newType .unbounded = (x, q)) : q.Flexible := by
  have hGrows := newType_grows hLevel .unbounded
  rw [h] at hGrows
  exact hp.grows hGrows rfl trivial

theorem applied_flexible {p₂ : Prefix} (hp : p.Flexible) (hLevel : 1 ≤ p.level)
    {callee arg : Polytype} (hCallee : callee.Flexible) (hArg : arg.Flexible)
    (hFunction : p.monomorphized callee .flexible = (f, p₁))
    (hParam : p₁.monomorphized arg .flexible = (a, p₂)) (hResult : p₂.newType .unbounded = (x, q)) :
    q.Flexible := by
  obtain ⟨hp₁, hLevel₁⟩ := monomorphized_flexible hp hLevel hCallee hFunction
  obtain ⟨hp₂, hLevel₂⟩ := monomorphized_flexible hp₁ (by omega) hArg hParam
  exact newType_flexible hp₂ (by omega) hResult

/-- What is made up at a level of its own, without rigid bounds, has a type once the level is left.
-/
theorem judged_of_opens {v w z : Prefix} {m : Monotype} {u : Polytype}
    {types : Valuation → Set Ground} (hp : p.WellFormed) (h : Opens p.enter q Set.univ m types)
    (hTypes : ∀ r r', (∀ x, p.Binds x → r' x = r x) → types r' = types r) (hq : q.Flexible)
    (hType : q.generalize m = (u, v)) (hQuiet : v.Quiet w) (hAfter : w.leave.Quiet z) :
    Judged p z u types [] := by
  obtain ⟨rfl, -⟩ := h.narrows.close hp h.covers hType hQuiet hAfter
  have hLevel : v.level = p.level + 1 := h.narrows.level
  have hTyped := h.typed hp hTypes
  have hu := hq.generalize h.narrows.wellFormed h.covers (t := m) trivial
  rw [hType] at hTyped hu
  refine .typed (hTyped.congr_find? fun x => (hAfter.find? x).trans (hQuiet.find?_leave x))
    (hAfter.flexible_iff.2 ?_) hu
  have hLeave := hq.leave h.narrows.wellFormed.owned (by omega)
  simpa only [Flexible, hQuiet.find?_leave] using hLeave

/-! ## What inference starts from -/

/-- Variables in play and a scope over them, with levels to work at and no rigid bounds. -/
structure Ready (scope : Scope) (p : Prefix) : Prop where
  wellFormed : p.WellFormed
  level : 1 ≤ p.level
  scopeOver : scope.Over p
  flexible : p.Flexible
  types : ∀ x t, scope.find? x = some t → t.Flexible

theorem Ready.enter (h : Ready scope p) : Ready scope p.enter where
  wellFormed := h.wellFormed.enter
  level := one_le_level_enter p
  scopeOver := h.scopeOver.enter
  flexible x e he := h.flexible x e (by rwa [find?_enter] at he)
  types := h.types

theorem Ready.mono {k : Nat} (h : Ready scope p) (hNarrows : Narrows k p q Set.univ)
    (hq : q.Flexible) : Ready scope q where
  wellFormed := hNarrows.wellFormed
  level := hNarrows.one_le_level h.level
  scopeOver := h.scopeOver.mono hNarrows
  flexible := hq
  types := h.types

theorem Ready.keeps {fuel : Nat} {s s' : Session} {out : Expr Stamp × Polytype}
    (h : Ready scope s.vars) (hRun : Run fuel scope e s out s') : Keeps e s out.2 s' :=
  hRun.keeps h.wellFormed h.level h.scopeOver

theorem Ready.insert (h : Ready scope p) (x : String) (hCovers : p.Covers t) (ht : t.Flexible) :
    Ready (NameMap.insert scope x t) p where
  wellFormed := h.wellFormed
  level := h.level
  scopeOver := h.scopeOver.insert x hCovers
  flexible := h.flexible
  types y u hy := by
    rw [NameMap.find?_insert] at hy
    split_ifs at hy with hyx
    · exact Option.some.inj hy ▸ ht
    · exact h.types y u hy

/-! ## Functions -/

/-- The ground types of a scope with a parameter that stands for one ground type. -/
theorem ground_param (scope : Scope) (x param : String) (r : Valuation) :
    Scope.ground (NameMap.insert scope x (.mono (.var param))) r =
      Function.update (scope.ground r) x {r param} :=
  Scope.ground_insert scope x _ r

/-- The type of a function stands for the ground types of the function. -/
theorem func_opens (info : Unit) {param : String} {body : Program} {p₂ : Prefix} {m : Monotype}
    (hScope : scope.Over p) (hParam : Opens p.enter p₁ Set.univ (.var param) Polytype.bottom.Inst)
    (hBody : Typed p₁ p₂ t fun r =>
      body.typings (Scope.ground (NameMap.insert scope x (.mono (.var param))) r))
    (hNarrows : ∀ k, Narrows k p₁ p₂ Set.univ) (ht : p₂.Covers t)
    (hResult : p₂.monomorphized t .flexible = (m, q)) :
    Opens p.enter q Set.univ (.fn (.var param) m) fun r =>
      (Expr.func info x body).typings (scope.ground r) := by
  obtain ⟨hOpens, hAll, hCovers⟩ := result_opens hParam hNarrows ht hResult
  have hOver : Scope.Over (NameMap.insert scope x (.mono (.var param))) p₁ :=
    (hScope.enter.mono hParam.narrows).insert x hParam.covers
  have hBinds : p₁.Binds param := hParam.covers param (by simp [Polytype.freeVars, Monotype.freeVars])
  refine ⟨hAll, hCovers, fun _ _ _ => trivial, fun r hr => ?_, ?_, ?_⟩
  · -- in a solution the parameter has one ground type, under which the body has the other one
    obtain ⟨hr₂, hMem⟩ := hOpens.sound r hr
    obtain ⟨hr₁, -⟩ := (hBody.refines 0).sound r hr₂
    refine ⟨(hParam.sound r hr₁).1, r param, m.eval r, rfl, ?_⟩
    rw [hBody.inst r hr₂, ground_param] at hMem
    exact hMem
  · -- the parameter, the body and the result are given their values one after the other
    rintro r hr _ ⟨g, h, rfl, hMem⟩
    obtain ⟨r₁, hSame₁, hr₁, hg⟩ := hParam.complete r hr g trivial
    replace hg : r₁ param = g := hg
    have hGround : Function.update (scope.ground r) x {g} =
        Scope.ground (NameMap.insert scope x (.mono (.var param))) r₁ := by
      rw [ground_param, hScope.enter.ground_congr hSame₁, hg]
    rw [hGround] at hMem
    obtain ⟨r₂, hSame₂, hr₂⟩ := (hBody.refines 0).complete r₁ hr₁ ⟨h, hMem⟩
    rw [← hOver.ground_congr hSame₂, ← hBody.inst r₂ hr₂] at hMem
    obtain ⟨r₃, hSame₃, hr₃, hh⟩ := hOpens.complete r₂ hr₂ h hMem
    have hOld (y : String) (hy : p₁.Binds y) : r₃ y = r₁ y :=
      (hSame₃ y ((hNarrows 0).binds hy)).trans (hSame₂ y hy)
    refine ⟨r₃, fun y hy => ?_, hr₃, ?_⟩
    · exact (hOld y (hParam.narrows.binds hy)).trans (hSame₁ y hy)
    · rw [Monotype.eval, Monotype.eval, hOld param hBinds, hg, hh]
  · -- the older variables determine the new ones at each stage
    have hLevel : p₂.level = p.level + 1 := (hParam.narrows.trans_univ (hNarrows _)).level
    have hLast := hOpens.determines
    rw [hLevel] at hLast
    refine (hParam.determines.trans (hBody.refines _).determines fun r hr => ?_).trans hLast
      fun r hr => (hOpens.sound r hr).1
    exact ((hBody.refines 0).sound r hr).1

theorem func_refuted {param : String} {body : Program} (hScope : scope.Over p)
    (hParam : Opens p.enter p₁ Set.univ (.var param) Polytype.bottom.Inst)
    (hBody : ∀ r, p₁.IsSolution r →
      body.typings (Scope.ground (NameMap.insert scope x (.mono (.var param))) r) = ∅)
    (hr : p.IsSolution r) : (Expr.func info x body).typings (scope.ground r) = ∅ := by
  rw [Set.eq_empty_iff_forall_notMem]
  rintro _ ⟨g, h, rfl, hMem⟩
  -- a ground type of the function gives one to its parameter, and so to its body
  obtain ⟨r₁, hSame, hr₁, hg⟩ := hParam.complete r (isSolution_enter.2 hr) g trivial
  replace hg : r₁ param = g := hg
  have hNone := hBody r₁ hr₁
  rw [ground_param, hScope.enter.ground_congr hSame, hg] at hNone
  rw [hNone] at hMem
  exact hMem

/-! ## Calls -/

/-- What is called and with what have the ground types of the parts of a call. -/
theorem CallOpens.of_typed {p₂ : Prefix} {calleeType argType : Polytype} (hScope : scope.Over p)
    (hCallee : Typed p p₁ calleeType fun r => callee.typings (scope.ground r))
    (hCalleeNarrows : ∀ k, Narrows k p p₁ Set.univ) (hCalleeCovers : p₁.Covers calleeType)
    (hArg : Typed p₁ p₂ argType fun r => arg.typings (scope.ground r))
    (hArgNarrows : ∀ k, Narrows k p₁ p₂ Set.univ)
    (hOpens : CallOpens p₂ q calleeType.Inst argType.Inst f a x) :
    CallOpens p q (fun r => callee.typings (scope.ground r))
      (fun r => arg.typings (scope.ground r)) f a x := by
  have hNarrows := (hCalleeNarrows p.level).trans_univ (hArgNarrows _)
  have hLevel : p₂.level = p.level := hNarrows.level
  refine ⟨hNarrows.trans_univ (hLevel ▸ hOpens.narrows), hOpens.function, hOpens.applied,
    fun r hr => ?_, fun r hr g hg h hh i => ?_, ?_⟩
  · obtain ⟨hr₂, hf, ha⟩ := hOpens.sound r hr
    have hr₁ := ((hArg.refines 0).sound r hr₂).1
    rw [hCallee.inst r hr₁] at hf
    rw [hArg.inst r hr₂] at ha
    exact ⟨((hCallee.refines 0).sound r hr₁).1, hf, ha⟩
  · -- the values for the callee leave the ground types of the argument as they are
    obtain ⟨r₁, hSame₁, hr₁⟩ := (hCallee.refines 0).complete r hr ⟨g, hg⟩
    rw [← hScope.ground_congr hSame₁] at hg hh
    rw [← hCallee.inst r₁ hr₁] at hg
    obtain ⟨r₂, hSame₂, hr₂⟩ := (hArg.refines 0).complete r₁ hr₁ ⟨h, hh⟩
    have hOld (y : String) (hy : p.Binds y) : r₂ y = r₁ y := hSame₂ y ((hCalleeNarrows 0).binds hy)
    rw [← hCalleeCovers.Inst_congr hSame₂] at hg
    rw [← hScope.ground_congr hOld, ← hArg.inst r₂ hr₂] at hh
    -- and then the variables for the callee, the argument and the result
    obtain ⟨r₃, hSame₃, hr₃, hValues⟩ := hOpens.complete r₂ hr₂ g hg h hh i
    refine ⟨r₃, fun y hy => ?_, hr₃, hValues⟩
    rw [hSame₃ y (hNarrows.binds hy), hOld y hy, hSame₁ y hy]
  · refine ((hCallee.refines _).determines.trans (hArg.refines _).determines fun r hr => ?_).trans
      (hLevel ▸ hOpens.determines) fun r hr => (hOpens.sound r hr).1
    exact ((hArg.refines 0).sound r hr).1

/-- The result of a call, at the level of what is called. -/
theorem call_opens (info : Unit) {q' : Prefix}
    (h : CallOpens p.enter q (fun r => callee.typings (scope.ground r))
      (fun r => arg.typings (scope.ground r)) f a x)
    (hUnify : Refines (p.level + 1) q q' fun r => f.eval r = (Monotype.fn a (.var x)).eval r)
    (hNarrows : Narrows (p.level + 1) q q' Set.univ) :
    Opens p.enter q' Set.univ (.var x) fun r =>
      (Expr.call info callee arg).typings (scope.ground r) := by
  refine ⟨h.narrows.trans_univ hNarrows, hNarrows.covers h.covers_result, fun _ _ _ => trivial,
    fun r hr => ?_, ?_, h.determines.trans hUnify.determines fun r hr => (hUnify.sound r hr).1⟩
  · -- in a solution the callee is a function from the argument to the result
    obtain ⟨hr₁, hEq⟩ := hUnify.sound r hr
    obtain ⟨hr₀, hf, ha⟩ := h.sound r hr₁
    rw [hEq] at hf
    exact ⟨hr₀, a.eval r, ha, hf⟩
  · -- a ground type of the call is chosen for the result, and the equation holds then
    rintro r hr g ⟨param, hParam, hFunction⟩
    obtain ⟨r₁, hSame₁, hr₁, hf, ha, hx⟩ := h.complete r hr _ hFunction param hParam g
    obtain ⟨r₂, hSame₂, hr₂⟩ :=
      hUnify.complete r₁ hr₁ (by rw [hf, Monotype.eval, ha, Monotype.eval, hx])
    refine ⟨r₂, fun y hy => (hSame₂ y (h.narrows.binds hy)).trans (hSame₁ y hy), hr₂, ?_⟩
    rw [h.covers_result.eval_congr hSame₂, Monotype.eval, hx]

/-- A call of what cannot be called has no ground types. -/
theorem call_refuted (h : CallOpens p.enter q (fun r => callee.typings (scope.ground r))
      (fun r => arg.typings (scope.ground r)) f a x)
    (hUnify : ∀ r, q.IsSolution r → f.eval r ≠ (Monotype.fn a (.var x)).eval r)
    (hr : p.IsSolution r) : (Expr.call info callee arg).typings (scope.ground r) = ∅ := by
  rw [Set.eq_empty_iff_forall_notMem]
  rintro g ⟨param, hParam, hFunction⟩
  obtain ⟨r₁, -, hr₁, hf, ha, hx⟩ :=
    h.complete r (isSolution_enter.2 hr) _ hFunction param hParam g
  exact hUnify r₁ hr₁ (by rw [hf, Monotype.eval, ha, Monotype.eval, hx])

theorem typings_call_eq_empty {G : GroundEnv} (h : callee.typings G = ∅ ∨ arg.typings G = ∅) :
    (Expr.call info callee arg).typings G = ∅ := by
  rw [Set.eq_empty_iff_forall_notMem]
  rintro g ⟨param, hParam, hFunction⟩
  rcases h with h | h
  · rw [h] at hFunction
    exact hFunction
  · rw [h] at hParam
    exact hParam

/-- What unification finds out about a call whose parts have types. -/
theorem call_judged {fuel : Nat} {v w z : Prefix} {u : Polytype} {call : Bool} {sink : Sink}
    {s : Session} {ds : List Diagnostic} (hReady : Ready scope p)
    (h : CallOpens p.enter q (fun r => callee.typings (scope.ground r))
      (fun r => arg.typings (scope.ground r)) f a x) (hq : q.Flexible)
    (hUnify : Unify.within fuel f (.fn a (.var x)) call ⟨q, sink⟩ = .ok (ds.head?, s))
    (hType : s.vars.generalize (.mono (.var x)) = (u, v)) (hQuiet : v.Quiet w)
    (hAfter : w.leave.Quiet z) :
    Judged p z u (fun r => (Expr.call info callee arg).typings (scope.ground r)) ds := by
  cases ds with
  -- a report of unification leaves no solution of the equation
  | cons d ds =>
    refine .refuted fun r hr => call_refuted h (fun r hr => ?_) hr
    exact Unify.within_refutes hUnify h.narrows.wellFormed hq h.function h.applied hr
  | nil =>
    obtain ⟨hRefines, hFlexible, -⟩ := Unify.within_refines hUnify h.narrows.wellFormed h.function
      h.applied (p.level + 1)
    have hNarrows := (Unify.within_narrows hUnify h.narrows.wellFormed h.function h.applied
      (p.level + 1)).1
    have hOpens := call_opens info h hRefines hNarrows
    refine judged_of_opens hReady.wellFormed hOpens (fun r r' hSame => ?_) (hFlexible hq) hType hQuiet
      hAfter
    rw [hReady.scopeOver.ground_congr hSame]

/-! ## Local definitions -/

/-- A local definition whose parts have types: under the solutions of the value, its name stands for
all ground types that the value can have, and so the body is typed in the scope that the meaning of
a definition asks for. -/
theorem let_typed {value body : Program} {valueType : Polytype} (hScope : scope.Over p)
    (hNarrows : ∀ k, Narrows k p p₁ Set.univ)
    (hValue : Typed p p₁ valueType fun r => value.typings (scope.ground r))
    (hBody : Typed p₁ q t fun r => body.typings (Scope.ground (NameMap.insert scope x valueType) r)) :
    Typed p q t fun r => (Expr.letIn info x value body).typings (scope.ground r) := by
  -- in the solutions of the value, its name stands for what the value can be
  have hGround {r : Valuation} (hr : p₁.IsSolution r) :
      Scope.ground (NameMap.insert scope x valueType) r =
        Function.update (scope.ground r) x (value.typings (scope.ground r)) := by
    rw [Scope.ground_insert, hValue.inst r hr]
  -- in the solutions of the body, what it can be is what the definition can be
  have hSame {r : Valuation} (hr : q.IsSolution r) :
      t.Inst r = (Expr.letIn info x value body).typings (scope.ground r) := by
    have hr₁ := ((hBody.refines 0).sound r hr).1
    have hSome := ((hValue.refines 0).sound r hr₁).2
    rw [hBody.inst r hr, hGround hr₁]
    ext g
    exact ⟨fun hg => ⟨hSome, hg⟩, fun hg => hg.2⟩
  refine ⟨fun k => ⟨fun r hr => ?_, ?_, ?_⟩, fun r => hSame⟩
  · refine ⟨((hValue.refines k).sound r ((hBody.refines k).sound r hr).1).1, ?_⟩
    rw [← hSame hr]
    exact t.Inst_nonempty r
  · -- a solution for the value, and then one for the body
    rintro r hr ⟨g, hSome, hg⟩
    obtain ⟨r₁, hSame₁, hr₁⟩ := (hValue.refines k).complete r hr hSome
    rw [← hScope.ground_congr hSame₁, ← hGround hr₁] at hg
    obtain ⟨r₂, hSame₂, hr₂⟩ := (hBody.refines k).complete r₁ hr₁ ⟨g, hg⟩
    exact ⟨r₂, fun y hy => (hSame₂ y ((hNarrows 0).binds hy)).trans (hSame₁ y hy), hr₂⟩
  · exact (hValue.refines k).determines.trans (hBody.refines k).determines fun r hr =>
      ((hBody.refines k).sound r hr).1

theorem let_refuted {value body : Program} {valueType : Polytype} (hScope : scope.Over p)
    (hValue : Typed p p₁ valueType fun r => value.typings (scope.ground r))
    (hBody : ∀ r, p₁.IsSolution r →
      body.typings (Scope.ground (NameMap.insert scope x valueType) r) = ∅) (hr : p.IsSolution r) :
    (Expr.letIn info x value body).typings (scope.ground r) = ∅ := by
  rw [Set.eq_empty_iff_forall_notMem]
  rintro g ⟨hSome, hg⟩
  obtain ⟨r₁, hSame, hr₁⟩ := (hValue.refines 0).complete r hr hSome
  have hNone := hBody r₁ hr₁
  -- in the body, the ground types of the name are those of the value
  rw [Scope.ground_insert, hValue.inst r₁ hr₁, hScope.ground_congr hSame] at hNone
  rw [hNone] at hg
  exact hg

/-! ## Runs -/

/-- What a run on a part of a program finds out about it. -/
theorem Run.judged {fuel : Nat} {scope : Scope} {e : Program} {s s' : Session}
    {out : Expr Stamp × Polytype} (h : Run fuel scope e s out s') (he : e.Unannotated)
    (hReady : Ready scope s.vars) :
    ∃ ds : List Diagnostic, s'.sink = ds.foldl .report s.sink ∧
      Judged s.vars s'.vars out.2 (fun r => e.typings (scope.ground r)) ds := by
  induction h with
  | missing => exact he.elim
  | unknown => exact he.elim
  | @var scope info x t s hx =>
    refine ⟨[], rfl, .typed (.refl _ fun r => ?_) hReady.flexible (hReady.types x t hx)⟩
    simp only [Expr.typings, Scope.ground, hx]
  | @unbound scope info x s hx =>
    refine ⟨[.unbound x], rfl, .refuted fun r _ => ?_⟩
    simp only [Expr.typings, Scope.ground, hx]
  | const scope info v s =>
    exact ⟨[], rfl, .typed (.refl _ fun r => rfl) hReady.flexible trivial⟩
  | @func scope info x param body s s₁ tree t u m p q v hParam hBody hResult hType ih =>
    have hNew := param_opens hReady.wellFormed hParam
    have hInner := (hReady.enter.mono hNew.narrows (newType_flexible hReady.enter.flexible
      hReady.enter.level hParam)).insert x hNew.covers trivial
    have hKept := hInner.keeps hBody
    obtain ⟨ds, hSink, hJudged⟩ := ih he hInner
    refine ⟨ds, hSink, ?_⟩
    cases hJudged with
    -- a body that cannot be typed
    | refuted hNone => exact .refuted fun r hr => func_refuted hReady.scopeOver hNew hNone hr
    | typed hTyped hq ht =>
      have hOpens := func_opens info hReady.scopeOver hNew hTyped hKept.narrows hKept.covers hResult
      have hLevel := (hKept.narrows 0).one_le_level hInner.level
      refine judged_of_opens hReady.wellFormed hOpens (fun r r' hSame => ?_)
        (monomorphized_flexible hq hLevel ht hResult).1 hType (settled_quiet _ tree) (quiet_note _ _)
      rw [hReady.scopeOver.ground_congr hSame]
  | @call scope info callee arg s s₁ s₂ s₃ calleeTree argTree calleeType argType u f a x p₁ p₂ p₃ q
      verdict hCallee hArg hFunction hParam hResult hUnify hType ihCallee ihArg =>
    have hEnter := hReady.enter
    have hCalleeKept := hEnter.keeps hCallee
    have hLevel₁ := (hCalleeKept.narrows 0).one_le_level hEnter.level
    have hArgKept := hArg.keeps (hCalleeKept.narrows 0).wellFormed hLevel₁
      (hEnter.scopeOver.mono (hCalleeKept.narrows 0))
    obtain ⟨hOpens, -⟩ := applied_opens hCalleeKept.narrows hCalleeKept.covers hArgKept.narrows
      hArgKept.covers hFunction hParam hResult
    obtain ⟨-, ds₃, -, rfl, hSink₃⟩ := Unify.within_narrows hUnify hOpens.narrows.wellFormed
      hOpens.function hOpens.applied 0
    obtain ⟨ds₁, hSink₁, hJudged₁⟩ := ihCallee he.1 hEnter
    -- the reports of the callee come first, so a refuted callee refutes the call
    have hSinks {ds₂ : List Diagnostic} (hSink₂ : s₂.sink = ds₂.foldl .report s₁.sink) :
        s₃.sink = (ds₁ ++ ds₂ ++ ds₃).foldl .report s.sink := by
      rw [List.foldl_append, List.foldl_append, ← hSink₁, ← hSink₂]
      exact hSink₃
    cases hJudged₁ with
    | refuted hNone =>
      obtain ⟨ds₂, hSink₂, -⟩ := hArgKept.reports
      refine ⟨_, hSinks hSink₂, .refuted fun r hr => typings_call_eq_empty (Or.inl ?_)⟩
      exact hNone r (isSolution_enter.2 hr)
    | typed hTyped₁ hFlexible₁ ht₁ =>
      obtain ⟨ds₂, hSink₂, hJudged₂⟩ := ihArg he.2 (hEnter.mono (hCalleeKept.narrows 0) hFlexible₁)
      refine ⟨_, hSinks hSink₂, ?_⟩
      cases hJudged₂ with
      | refuted hNone =>
        refine .refuted fun r hr => typings_call_eq_empty ?_
        -- a solution under which the callee has a type extends to one for the argument
        by_cases hSome : (callee.typings (scope.ground r)).Nonempty
        · obtain ⟨r₁, hSame, hr₁⟩ := (hTyped₁.refines 0).complete r (isSolution_enter.2 hr) hSome
          rw [← hEnter.scopeOver.ground_congr hSame]
          exact Or.inr (hNone r₁ hr₁)
        · exact Or.inl (Set.not_nonempty_iff_eq_empty.1 hSome)
      | typed hTyped₂ hFlexible₂ ht₂ =>
        have hParts := CallOpens.of_typed hEnter.scopeOver hTyped₁ hCalleeKept.narrows
          hCalleeKept.covers hTyped₂ hArgKept.narrows hOpens
        have hq := applied_flexible hFlexible₂ ((hArgKept.narrows 0).one_le_level hLevel₁) ht₁ ht₂
          hFunction hParam hResult
        exact call_judged hReady hParts hq hUnify hType
          ((settled_quiet q calleeTree).trans (settled_quiet _ argTree)) (quiet_note _ _)
  | @letIn scope info x value body s s₁ s₂ valueTree bodyTree valueType t hValue hBody ihValue
      ihBody =>
    -- the value refines the variables in play, and the body is judged in what is left
    have hValueKept := hReady.keeps hValue
    have hLevel₁ := (hValueKept.narrows 0).one_le_level hReady.level
    obtain ⟨ds₁, hSink₁, hJudged₁⟩ := ihValue he.1 hReady
    have hSinks {ds₂ : List Diagnostic} (hSink₂ : s₂.sink = ds₂.foldl .report s₁.sink) :
        s₂.sink = (ds₁ ++ ds₂).foldl .report s.sink := by
      rw [List.foldl_append, ← hSink₁, ← hSink₂]
    cases hJudged₁ with
    | refuted hNone =>
      obtain ⟨ds₂, hSink₂, -⟩ := (hBody.keeps (hValueKept.narrows 0).wellFormed hLevel₁
        ((hReady.scopeOver.mono (hValueKept.narrows 0)).insert x hValueKept.covers)).reports
      refine ⟨_, hSinks hSink₂, .refuted fun r hr => Set.eq_empty_iff_forall_notMem.2 ?_⟩
      rintro g ⟨hSome, -⟩
      exact hSome.ne_empty (hNone r hr)
    | typed hTyped₁ hFlexible₁ ht₁ =>
      obtain ⟨ds₂, hSink₂, hJudged₂⟩ := ihBody he.2
        ((hReady.mono (hValueKept.narrows 0) hFlexible₁).insert x hValueKept.covers ht₁)
      refine ⟨_, hSinks hSink₂, ?_⟩
      cases hJudged₂ with
      | refuted hNone => exact .refuted fun r hr => let_refuted hReady.scopeOver hTyped₁ hNone hr
      | typed hTyped₂ hFlexible₂ ht₂ =>
        exact .typed (let_typed hReady.scopeOver hValueKept.narrows hTyped₁ hTyped₂) hFlexible₂ ht₂
  | annot => exact he.elim
  | errorAlone => exact he.elim
  | error => exact he.elim

/-- What is known after a run on a part of a program that has a type in a solution. -/
theorem Run.typed {fuel : Nat} {s s' : Session} {tree : Expr Stamp}
    (h : Run fuel scope e s (tree, t) s') (he : e.Unannotated) (hReady : Ready scope s.vars)
    (hr : s.vars.IsSolution r) (hSome : (e.typings (scope.ground r)).Nonempty) :
    Typed s.vars s'.vars t (fun r => e.typings (scope.ground r)) ∧ Keeps e s t s' ∧
      Ready scope s'.vars ∧ t.Flexible ∧
      ∃ r', s'.vars.IsSolution r' ∧ scope.ground r' = scope.ground r := by
  have hKept := hReady.keeps h
  obtain ⟨ds, -, hJudged⟩ := h.judged he hReady
  -- a ground type in a solution rules out that something is reported
  obtain ⟨-, hTyped, hFlexible, ht⟩ := hJudged.of_nonempty hr hSome
  obtain ⟨r', hSame, hr'⟩ := (hTyped.refines 0).complete r hr hSome
  exact ⟨hTyped, hKept, hReady.mono (hKept.narrows 0) hFlexible, ht, r', hr',
    hReady.scopeOver.ground_congr hSame⟩

/-- Inference ends where there is something to find, with fuel that depends only on what can be
found. -/
theorem returns (he : e.Unannotated) {G : GroundEnv} (hG : (e.typings G).Nonempty) :
    ∃ n, ∀ fuel ≥ n, ∀ (scope : Scope) (s : Session) (r : Valuation), Ready scope s.vars →
      s.vars.IsSolution r → scope.ground r = G → ∃ out s', Run fuel scope e s out s' := by
  induction e generalizing G with
  | missing => exact he.elim
  | unknown => exact he.elim
  | var info x =>
    refine ⟨0, fun fuel _ scope s r _ _ hGround => ?_⟩
    subst hGround
    cases hx : scope.find? x with
    | some t => exact ⟨_, _, .var s hx⟩
    | none => exact ⟨_, _, .unbound s hx⟩
  | const info v => exact ⟨0, fun fuel _ scope s _ _ _ _ => ⟨_, _, .const scope info v s⟩⟩
  | func info x body ih =>
    obtain ⟨_, g, h, rfl, hMem⟩ := hG
    -- the fuel for the body does not depend on the name of the parameter
    obtain ⟨n, hn⟩ := ih he ⟨h, hMem⟩
    refine ⟨n, fun fuel hFuel scope s r hReady hr hGround => ?_⟩
    obtain ⟨param, p, hParam⟩ : ∃ param p, s.vars.enter.newType .unbounded = (param, p) := ⟨_, _, rfl⟩
    have hNew := param_opens hReady.wellFormed hParam
    have hInner := (hReady.enter.mono hNew.narrows (newType_flexible hReady.enter.flexible
      hReady.enter.level hParam)).insert x hNew.covers trivial
    obtain ⟨r₁, hSame, hr₁, hg⟩ := hNew.complete r (isSolution_enter.2 hr) g trivial
    obtain ⟨out, s₁, hBody⟩ := hn fuel hFuel _ ⟨p, s.sink⟩ r₁ hInner hr₁ (by
      rw [ground_param, hReady.enter.scopeOver.ground_congr hSame, hGround, show r₁ param = g from hg])
    exact ⟨_, _, .func hParam hBody Prod.mk.eta.symm Prod.mk.eta.symm⟩
  | call info callee arg ihCallee ihArg =>
    obtain ⟨g, h, hh, hg⟩ := hG
    obtain ⟨n₁, hn₁⟩ := ihCallee he.1 ⟨_, hg⟩
    obtain ⟨n₂, hn₂⟩ := ihArg he.2 ⟨_, hh⟩
    -- fuel for both parts, and for an equation whose solution has the height of the function
    refine ⟨max (max n₁ n₂) (2 * (Ground.fn h g).height + 2),
      fun fuel hFuel scope s r hReady hr hGround => ?_⟩
    subst hGround
    have hEnter := hReady.enter
    have hrEnter := isSolution_enter.2 hr
    obtain ⟨⟨calleeTree, calleeType⟩, s₁, hCallee⟩ := hn₁ fuel (by omega) scope
      ⟨s.vars.enter, s.sink⟩ r hEnter hrEnter rfl
    obtain ⟨hTyped₁, hKept₁, hReady₁, ht₁, r₁, hr₁, hGround₁⟩ := hCallee.typed he.1 hEnter hrEnter
      ⟨_, hg⟩
    obtain ⟨⟨argTree, argType⟩, s₂, hArg⟩ := hn₂ fuel (by omega) scope s₁ r₁ hReady₁ hr₁ hGround₁
    obtain ⟨hTyped₂, hKept₂, hReady₂, ht₂, -⟩ := hArg.typed he.2 hReady₁ hr₁ ⟨h, hGround₁ ▸ hh⟩
    obtain ⟨f, p₁, hFunction⟩ : ∃ f p₁, s₂.vars.monomorphized calleeType .flexible = (f, p₁) :=
      ⟨_, _, rfl⟩
    obtain ⟨a, p₂, hParam⟩ : ∃ a p₂, p₁.monomorphized argType .flexible = (a, p₂) := ⟨_, _, rfl⟩
    obtain ⟨y, p₃, hResult⟩ : ∃ y p₃, p₂.newType .unbounded = (y, p₃) := ⟨_, _, rfl⟩
    obtain ⟨hOpens, -⟩ := applied_opens hKept₁.narrows hKept₁.covers hKept₂.narrows hKept₂.covers
      hFunction hParam hResult
    have hParts := CallOpens.of_typed hEnter.scopeOver hTyped₁ hKept₁.narrows hKept₁.covers hTyped₂
      hKept₂.narrows hOpens
    -- the types of the parts make a solution of the equation that is to be solved
    obtain ⟨r₃, -, hr₃, hf, ha, hy⟩ := hParts.complete r hrEnter _ hg h hh g
    obtain ⟨s₃, hUnify⟩ : ∃ s₃, unifyCall fuel f (.fn a (.var y)) ⟨p₃, s₂.sink⟩ = .ok (none, s₃) :=
      Unify.within_returns hParts.narrows.wellFormed
        (applied_flexible hReady₂.flexible hReady₂.level ht₁ ht₂ hFunction hParam hResult)
        hParts.function hParts.applied hr₃ (by rw [hf, Monotype.eval, ha, Monotype.eval, hy])
        (by rw [hf]; omega) true
    exact ⟨_, _, .call hCallee hArg hFunction hParam hResult hUnify Prod.mk.eta.symm⟩
  | letIn info x value body ihValue ihBody =>
    obtain ⟨g, hSome, hg⟩ := hG
    obtain ⟨n₁, hn₁⟩ := ihValue he.1 hSome
    obtain ⟨n₂, hn₂⟩ := ihBody he.2 ⟨g, hg⟩
    refine ⟨max n₁ n₂, fun fuel hFuel scope s r hReady hr hGround => ?_⟩
    subst hGround
    obtain ⟨⟨valueTree, valueType⟩, s₁, hValue⟩ := hn₁ fuel (by omega) scope s r hReady hr rfl
    obtain ⟨hTyped₁, hKept₁, hReady₁, ht₁, r₁, hr₁, hGround₁⟩ := hValue.typed he.1 hReady hr hSome
    -- the name stands for the ground types of the value, which is what the fuel for the body was
    -- chosen by
    obtain ⟨⟨bodyTree, t⟩, s₂, hBody⟩ := hn₂ fuel (by omega) _ s₁ r₁
      (hReady₁.insert x hKept₁.covers ht₁) hr₁ (by
        rw [Scope.ground_insert, hTyped₁.inst r₁ hr₁, hGround₁])
    exact ⟨_, _, .letIn hValue hBody⟩
  | annot => exact he.elim
  | error => exact he.elim

/-! ## Whole programs -/

theorem declare_flexible (hp : p.Flexible) (hLevel : 1 ≤ p.level) (xs : List String) :
    (p.declare xs).Flexible := by
  induction xs generalizing p with
  | nil => exact hp
  | cons x xs ih =>
    have hFirst : (p.add x .unbounded).Flexible := by
      intro y e he
      rw [add_eq_place hLevel, find?_place] at he
      split_ifs at he with hyx
      · obtain rfl := Option.some.inj he
        exact ⟨rfl, trivial⟩
      · exact hp y e he
    have hNext : 1 ≤ (p.add x .unbounded).level := by
      rw [add_eq_place hLevel, level_place]
      exact hLevel
    exact ih hFirst hNext

theorem ready_root (hTypes : ∀ x t, scope.find? x = some t → t.Flexible) :
    Ready scope (Prefix.empty.enter.declare scope.freeVars.sorted) := by
  obtain ⟨hNarrows, hOver⟩ := scope_over scope
  have hNone : Prefix.empty.enter.Flexible := by
    intro x e he
    cases he
  exact ⟨hNarrows.wellFormed, hNarrows.one_le_level (one_le_level_enter _), hOver,
    declare_flexible hNone (one_le_level_enter _) _, hTypes⟩

theorem info?_map {α β : Type} (f : α → β) (e : Expr α) : (e.map f).info? = e.info?.map f := by
  cases e <;> rfl

/-- The type of a node without free variables is final. -/
theorem info?_settle {tree : Expr Stamp}
    (h : tree.info? = some (.of t) ∨ tree.info? = some (.settled t)) (ht : t.Closed) :
    ((tree.map p.settle).map (·.type)).info? = some t := by
  have hSize : t.freeVars.size = 0 :=
    List.length_eq_zero_iff.2 (List.eq_nil_iff_forall_not_mem.2 ht)
  rw [info?_map, info?_map]
  rcases h with h | h
  · simp [h, Prefix.settle, Stamp.of, hSize]
  · simp [h, Prefix.settle, Stamp.settled]

theorem freeVars_of_closed (h : ∀ x t, scope.find? x = some t → t.Closed) :
    scope.freeVars.sorted = [] := by
  refine List.eq_nil_iff_forall_not_mem.2 fun y hy => ?_
  obtain ⟨t, ht, hyt⟩ := NameSet.mem_foldr_union.1 (NameSet.mem_sorted.1 hy)
  obtain ⟨⟨x, t⟩, hMem, rfl⟩ := List.mem_map.1 ht
  exact h x t (NameMap.find?_of_mem hMem) y hyt

/-- In a closed scope a whole program leaves no variables, not even before its level is left. -/
theorem Run.unbinds {fuel : Nat} {sink : Sink} {s' : Session} {out : Expr Stamp × Polytype}
    (hScope : ∀ x t, scope.find? x = some t → t.Closed)
    (h : Run fuel scope e ⟨Prefix.empty.enter.declare scope.freeVars.sorted, sink⟩ out s') :
    (∀ x, ¬ s'.vars.Binds x) ∧ out.2.Closed := by
  obtain ⟨hDeclared, hOver⟩ := scope_over scope
  have hKept := h.keeps hDeclared.wellFormed (hDeclared.one_le_level (one_le_level_enter _)) hOver
  have hNone (x : String) : ¬ s'.vars.Binds x := by
    rintro ⟨e', he'⟩
    have hLevel : s'.vars.level = 1 := (hKept.narrows 0).level.trans hDeclared.level
    have hLe := (hKept.narrows 0).wellFormed.owned.level_le he'
    obtain ⟨y, e, hy, -⟩ := (hKept.narrows 2).older x e' he' (by omega)
    rw [freeVars_of_closed hScope] at hy
    cases hy
  exact ⟨hNone, fun x hx => hNone x (hKept.covers x hx)⟩

/-- Inference finds the principal type of a program without annotations, in a scope of closed types
without rigid bounds. What it finds is measured by the ground types that the program can have. * If
there are some, inference ends and reports nothing, however much fuel it has beyond what it takes. *
If there are none, something is reported. Inference need not end then, but what it has reported by
the time it is out of fuel is there as well. * Whenever inference ends, it has reported nothing
exactly if the program has ground types, and then these are the instances of the type at the root.
-/
theorem infer_principal {scope : Scope}
    (hScope : ∀ x t, scope.find? x = some t → t.Closed ∧ t.Flexible) {e : Program}
    (he : e.Unannotated) (fatal : Bool) (ds : List Diagnostic) (r : Valuation) :
    ((e.typings (scope.ground r)).Nonempty → ∃ n, ∀ fuel ≥ n, ∃ out,
      infer ⟨fatal, fuel⟩ (.collect ds) scope e = .ok out ∧ out.sink = .collect ds) ∧
    (¬ (e.typings (scope.ground r)).Nonempty → ∃ n, ∀ fuel ≥ n, ∃ more ≠ [],
      (∃ out, infer ⟨fatal, fuel⟩ (.collect ds) scope e = .ok out ∧
        out.sink = .collect (ds ++ more)) ∨
      infer ⟨fatal, fuel⟩ (.collect ds) scope e = .error (.outOfFuel (.collect (ds ++ more)))) ∧
    ∀ fuel out, infer ⟨fatal, fuel⟩ (.collect ds) scope e = .ok out →
      (out.sink = .collect ds ↔ (e.typings (scope.ground r)).Nonempty) ∧
      (out.sink = .collect ds →
        ∃ t, out.tree.info? = some t ∧ t.Inst r = e.typings (scope.ground r)) := by
  have hClosed (x : String) (t : Polytype) (hx : scope.find? x = some t) := (hScope x t hx).1
  have hMissing : e ≠ .missing := by
    rintro rfl
    exact he
  have hReady := ready_root fun x t hx => (hScope x t hx).2
  -- no variables are in play at either end, so every valuation is a solution there
  have hr : (Prefix.empty.enter.declare scope.freeVars.sorted).IsSolution r := by
    rw [freeVars_of_closed hClosed]
    intro x e hx
    cases hx
  have hFatal (fuel : Nat) := infer_fatal he.faults ⟨fatal, fuel⟩ (.collect ds) scope
  -- a run that ends, with what it has reported
  have hEnd {fuel : Nat} {out : Inferred}
      (h : infer ⟨fatal, fuel⟩ (.collect ds) scope e = .ok out) : ∃ more,
        out.sink = .collect (ds ++ more) ∧ (more = [] ↔ (e.typings (scope.ground r)).Nonempty) ∧
        (more = [] → ∃ t, out.tree.info? = some t ∧ t.Inst r = e.typings (scope.ground r)) := by
    obtain ⟨out', s', hRun, hTree, hSink⟩ :=
      (infer_eq_ok_iff hMissing).1 ⟨out.events, (hFatal fuel).symm.trans h⟩
    obtain ⟨more, hReports, hJudged⟩ := hRun.judged he hReady
    obtain ⟨hNone, hType⟩ := hRun.unbinds hClosed
    have hr' : s'.vars.IsSolution r := fun x e hx => absurd ⟨e, hx⟩ (hNone x)
    refine ⟨more, by rw [hSink, hReports, foldl_report_collect],
      ⟨fun hEmpty => ?_, fun hSome => (hJudged.of_nonempty hr hSome).1⟩, fun hEmpty => ?_⟩
    · subst hEmpty
      obtain ⟨hTyped⟩ := hJudged
      exact ((hTyped.refines 0).sound r hr').2
    · subst hEmpty
      obtain ⟨hTyped⟩ := hJudged
      rw [hTree]
      exact ⟨out'.2, info?_settle (hRun.info hMissing) hType, hTyped.inst r hr'⟩
  refine ⟨fun hSome => ?_, fun hNone => ?_, fun fuel out h => ?_⟩
  · obtain ⟨n, hn⟩ := returns he hSome
    refine ⟨n, fun fuel hFuel => ?_⟩
    obtain ⟨out, s', hRun⟩ := hn fuel hFuel scope ⟨_, .collect ds⟩ r hReady hr rfl
    obtain ⟨events, hInfer⟩ := (infer_eq_ok_iff hMissing).2 ⟨out, s', hRun, rfl, rfl⟩
    obtain ⟨more, hSink, hIff, -⟩ := hEnd ((hFatal fuel).trans hInfer)
    rw [hIff.2 hSome, List.append_nil] at hSink
    exact ⟨_, (hFatal fuel).trans hInfer, hSink⟩
  · obtain ⟨n, hn⟩ := infer_speaks scope e (.collect ds)
    refine ⟨n, fun fuel hFuel => ?_⟩
    rcases hn fuel hFuel with ⟨out, hOk⟩ | ⟨more, hMore, hStuck⟩
    · obtain ⟨more, hSink, hIff, -⟩ := hEnd ((hFatal fuel).trans hOk)
      exact ⟨more, fun hNil => hNone (hIff.1 hNil), Or.inl ⟨out, (hFatal fuel).trans hOk, hSink⟩⟩
    · rw [foldl_report_collect] at hStuck
      exact ⟨more, hMore, Or.inr ((hFatal fuel).trans hStuck)⟩
  · obtain ⟨more, hSink, hIff, hInst⟩ := hEnd h
    have hSame : out.sink = .collect ds ↔ more = [] := by
      rw [hSink]
      simp
    exact ⟨hSame.trans hIff, fun hKept => hInst (hSame.1 hKept)⟩

/-- The identity is called with itself and the result with a truth value, which takes two instances
of its type. A truth value that is called has no type, and something is reported. -/
theorem infer_principal_identity : ∃ scope : Scope, ∃ e e' : Program, ∃ out,
    scope.find? "id" = some (.all "a" .flexible .bottom (.mono (.fn (.var "a") (.var "a")))) ∧
    e = .call () (.call () (.var () "id") (.var () "id")) (.const () (.boolean true)) ∧
    infer ⟨true, 8⟩ (.collect []) scope e = .ok out ∧ out.sink = .collect [] ∧
    (∀ r, ∃ t, out.tree.info? = some t ∧ t.Inst r = e.typings (scope.ground r)) ∧
    e' = .call () (.const () (.boolean true)) (.var () "id") ∧
    ∃ n, ∀ fuel ≥ n, ∃ more ≠ [],
      (∃ out, infer ⟨true, fuel⟩ (.collect []) scope e' = .ok out ∧ out.sink = .collect more) ∨
      infer ⟨true, fuel⟩ (.collect []) scope e' = .error (.outOfFuel (.collect more)) := by
  let scope : Scope :=
    ⟨[("id", .all "a" .flexible .bottom (.mono (.fn (.var "a") (.var "a"))))], by simp⟩
  let e : Program := .call () (.call () (.var () "id") (.var () "id")) (.const () (.boolean true))
  -- this fuel is enough for the call
  obtain ⟨tree, events, hRun⟩ : ∃ tree events,
      infer ⟨true, 8⟩ (.collect []) scope e = .ok ⟨tree, .collect [], events⟩ :=
    ⟨_, _, by unfold infer Infer.root; cbv⟩
  have hScope (x : String) (t : Polytype) (hx : scope.find? x = some t) : t.Closed ∧ t.Flexible := by
    obtain ⟨-, rfl⟩ := Prod.mk.inj (List.mem_singleton.mp (NameMap.mem_toList_of_find? hx))
    refine ⟨fun y hy => ?_, rfl, trivial, trivial⟩
    simp [Polytype.freeVars, Monotype.freeVars] at hy
  let e' : Program := .call () (.const () (.boolean true)) (.var () "id")
  refine ⟨scope, e, e', _, rfl, rfl, hRun, rfl, fun r => ?_, rfl, ?_⟩
  · have hUnannotated : e.Unannotated := by simp [e, Expr.Unannotated]
    exact ((infer_principal hScope hUnannotated true [] r).2.2 8 _ hRun).2 rfl
  · have hUnannotated : e'.Unannotated := by simp [e', Expr.Unannotated]
    refine (infer_principal hScope hUnannotated true [] fun _ => .const .number).2.1 ?_
    -- there is no typing, for no function is a truth value
    rintro ⟨g, param, -, hFn⟩
    cases hFn

end Infer

end Mlf
