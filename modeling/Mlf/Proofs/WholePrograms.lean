import Mlf.Proofs.Principality
import Mlf.Proofs.RunCopies

/-!
# Whole programs in a scope of closed types

In such a scope a program starts at a level without variables and ends without any. What inference
gives for it is what comes out of one run: the type found for the program, which is closed, and the
reports.

Main results:

* `declaredTypes`, `mapDeclared` — the types that are written in the annotations of a program;
* `infer_cases` — inference of a whole program in a scope of closed types;
* `alphaEq_of_copies`, `map_format_sink` — what two runs that are copies have in common.
-/

namespace Mlf

variable {s' : Session} {scope : Scope} {e : Program} {sink : Sink} {f : String → String}
/-! ## Declared types -/

namespace Expr

variable {α : Type}

/-- The declared types of the annotations of an expression, from left to right. -/
def declaredTypes : Expr α → List Polytype
  | .missing | .unknown | .var .. | .const .. => []
  | .func _ _ body => body.declaredTypes
  | .call _ callee arg => callee.declaredTypes ++ arg.declaredTypes
  | .letIn _ _ value body => value.declaredTypes ++ body.declaredTypes
  | .annot _ value declared => value.declaredTypes ++ [declared]
  | .error _ _ inner => inner.declaredTypes

/-- Changes the declared types of the annotations of an expression. -/
def mapDeclared (g : Polytype → Polytype) : Expr α → Expr α
  | .missing => .missing
  | .unknown => .unknown
  | .var a x => .var a x
  | .const a v => .const a v
  | .func a x body => .func a x (body.mapDeclared g)
  | .call a callee arg => .call a (callee.mapDeclared g) (arg.mapDeclared g)
  | .letIn a x value body => .letIn a x (value.mapDeclared g) (body.mapDeclared g)
  | .annot a value declared => .annot a (value.mapDeclared g) (g declared)
  | .error a d inner => .error a d (inner.mapDeclared g)

theorem mapDeclared_id (e : Expr α) : e.mapDeclared id = e := by
  induction e with
  | missing => rfl
  | unknown => rfl
  | var a x => rfl
  | const a v => rfl
  | func a x body ih => rw [mapDeclared, ih]
  | call a callee arg ihCallee ihArg => rw [mapDeclared, ihCallee, ihArg]
  | letIn a x value body ihValue ihBody => rw [mapDeclared, ihValue, ihBody]
  | annot a value declared ih => rw [mapDeclared, ih, id]
  | error a d inner ih => rw [mapDeclared, ih]

/-- Declared types have nothing to do with missing and unknown parts, since a change of them leaves
the form of the program as it is. -/
theorem faults_mapDeclared (g : Polytype → Polytype) (e : Expr α) :
    (e.mapDeclared g).faults = e.faults := by
  induction e with
  | missing => rfl
  | unknown => rfl
  | var a x => rfl
  | const a v => rfl
  | func a x body ih => exact ih
  | call a callee arg ihCallee ihArg => rw [mapDeclared, faults, ihCallee, ihArg, faults]
  | letIn a x value body ihValue ihBody => rw [mapDeclared, faults, ihValue, ihBody, faults]
  | annot a value declared ih => exact ih
  | error a d inner ih =>
    by_cases hInner : inner = .missing
    · rw [hInner]
      rfl
    · -- nothing becomes missing
      have hMapped : inner.mapDeclared g ≠ .missing := by
        cases inner with
        | missing => exact absurd rfl hInner
        | _ => simp [mapDeclared]
      rw [mapDeclared, faults_error hMapped, faults_error hInner, ih]

end Expr

namespace Infer

open Solve Prefix

theorem exprCopies_mapDeclared {g : Polytype → Polytype}
    (h : ∀ t ∈ e.declaredTypes, t.Copies f (g t)) : ExprCopies f e (e.mapDeclared g) := by
  induction e with
  | missing => exact .missing
  | unknown => exact .unknown
  | var i x => exact .var i x
  | const i v => exact .const i v
  | func i x body ih => exact .func (ih h)
  | call i callee arg ihCallee ihArg =>
    exact .call (ihCallee fun t ht => h t (List.mem_append_left _ ht))
      (ihArg fun t ht => h t (List.mem_append_right _ ht))
  | letIn i x value body ihValue ihBody =>
    exact .letIn (ihValue fun t ht => h t (List.mem_append_left _ ht))
      (ihBody fun t ht => h t (List.mem_append_right _ ht))
  | annot i value declared ih =>
    exact .annot (ih fun t ht => h t (List.mem_append_left _ ht))
      (h declared (List.mem_append_right _ (List.mem_singleton_self _)))
  | error i d inner ih => exact .error (ih h)

/-- A program is a copy of itself if the names that its annotations mention stay. -/
theorem exprCopies_of_fixed (h : ∀ t ∈ e.declaredTypes, ∀ y ∈ t.freeVars, f y = y) :
    ExprCopies f e e := by
  have hCopies := exprCopies_mapDeclared (g := id) fun t ht => Polytype.Copies.refl_of_fixed (h t ht)
  rwa [Expr.mapDeclared_id] at hCopies

theorem scopeCopies_of_closed (h : ∀ x t, scope.find? x = some t → t.Closed) :
    ScopeCopies f scope scope :=
  ⟨fun _ hx => hx, fun x t hx => ⟨t, hx, .refl_of_fixed fun y hy => absurd hy (h x t hx y)⟩⟩

/-! ## Whole programs -/

/-- In a scope of closed types a program starts at a level without variables. -/
theorem start_of_closed (h : ∀ x t, scope.find? x = some t → t.Closed) :
    Prefix.empty.enter.declare scope.freeVars.sorted = Prefix.empty.enter := by
  rw [freeVars_of_closed h]
  rfl

theorem closed_insert (h : ∀ x t, scope.find? x = some t → t.Closed) {t : Polytype}
    (ht : t.Closed) (x y : String) (u : Polytype) (hy : (scope.insert x t).find? y = some u) :
    u.Closed := by
  rw [NameMap.find?_insert] at hy
  split at hy
  · cases hy
    exact ht
  · exact h y u hy

theorem Run.unbinds_of_closed {fuel : Nat} (hScope : ∀ x t, scope.find? x = some t → t.Closed)
    {o : Expr Stamp × Polytype} (h : Run fuel scope e ⟨Prefix.empty.enter, sink⟩ o s') :
    (∀ x, ¬ s'.vars.Binds x) ∧ o.2.Closed := by
  rw [← start_of_closed hScope] at h
  exact h.unbinds hScope

/-- In a scope of closed types, inference of a whole program is a run from a level without
variables. -/
theorem infer_cases (hScope : ∀ x t, scope.find? x = some t → t.Closed) (he : e.faults = [])
    (config : Config) (sink : Sink) :
    (∃ halt, expr ⟨false, config.fuel⟩ scope e ⟨Prefix.empty.enter, sink⟩ = .error halt ∧
      infer config sink scope e = .error halt) ∨
    ∃ o s' out, Run config.fuel scope e ⟨Prefix.empty.enter, sink⟩ o s' ∧
      infer config sink scope e = .ok out ∧ out.tree.info? = some o.2 ∧ out.sink = s'.sink := by
  have hMissing : e ≠ .missing := by
    rintro rfl
    cases he
  -- whether faults stop a run makes no difference
  rw [infer_fatal he]
  cases hExpr : expr ⟨false, config.fuel⟩ scope e ⟨Prefix.empty.enter, sink⟩ with
  | error halt =>
    rw [← start_of_closed hScope] at hExpr
    refine Or.inl ⟨halt, rfl, ?_⟩
    rw [infer, StateT.run, root_of_error hMissing hExpr]
    rfl
  | ok out =>
    have hRun := run_of_expr_ok hExpr
    rw [← start_of_closed hScope] at hRun
    obtain ⟨events, hInfer⟩ := (infer_eq_ok_iff hMissing).2 ⟨out.1, out.2, hRun, rfl, rfl⟩
    -- the type of the program is closed, so there is nothing to resolve in it
    have hType := info?_settle (p := out.2.vars) (hRun.info hMissing) (hRun.unbinds hScope).2
    exact Or.inr ⟨out.1, out.2, _, run_of_expr_ok hExpr, hInfer, hType, rfl⟩

theorem run_of_infer (hScope : ∀ x t, scope.find? x = some t → t.Closed) (he : e.faults = [])
    {config : Config} {out : Inferred} (h : infer config sink scope e = .ok out) :
    ∃ o s', Run config.fuel scope e ⟨Prefix.empty.enter, sink⟩ o s' ∧
      out.tree.info? = some o.2 ∧ out.sink = s'.sink := by
  rcases infer_cases hScope he config sink with ⟨halt, -, hStop⟩ | ⟨o, s', out', hRun, hOk, hInfo⟩
  · cases hStop.symm.trans h
  · cases hOk.symm.trans h
    exact ⟨o, s', hRun, hInfo⟩

theorem infer_of_error (hScope : ∀ x t, scope.find? x = some t → t.Closed) (he : e.faults = [])
    {config : Config} {halt : Halt}
    (h : expr ⟨false, config.fuel⟩ scope e ⟨Prefix.empty.enter, sink⟩ = .error halt) :
    infer config sink scope e = .error halt := by
  rcases infer_cases hScope he config sink with ⟨halt', hStop, hError⟩ | ⟨o, s', out, hRun, -⟩
  · cases hStop.symm.trans h
    exact hError
  · cases (expr_ok_of_run hRun).symm.trans h

theorem infer_of_run (hScope : ∀ x t, scope.find? x = some t → t.Closed) (he : e.faults = [])
    {config : Config} {o : Expr Stamp × Polytype}
    (h : Run config.fuel scope e ⟨Prefix.empty.enter, sink⟩ o s') :
    ∃ out, infer config sink scope e = .ok out ∧ out.tree.info? = some o.2 ∧ out.sink = s'.sink := by
  rcases infer_cases hScope he config sink with ⟨halt, hStop, -⟩ | ⟨o', t', out, hRun, hOk, hInfo⟩
  · cases hStop.symm.trans (expr_ok_of_run h)
  · cases (expr_ok_of_run hRun).symm.trans (expr_ok_of_run h)
    exact ⟨out, hOk, hInfo⟩

/-! ## Types and reports -/

/-- Closed types that are copies agree up to the names of quantified variables. -/
theorem alphaEq_of_copies {t u : Polytype} (h : t.Copies f u) (ht : t.Closed) :
    u.alphaEq [] t = true := by
  rw [Polytype.alphaEq_iff, ← h]
  exact Polytype.nameless_congr fun x hx => absurd hx (ht x)

theorem map_format_of_copies (hf : Faithful f) {ds ds' : List Diagnostic}
    (h : List.Forall₂ (Diagnostic.Copies f) ds ds')
    (hFaults : ds.filterMap Diagnostic.fault? = []) :
    ds'.map Diagnostic.format = ds.map Diagnostic.format := by
  induction h with
  | nil => rfl
  | @cons d d' ds ds' hd _ ih =>
    obtain ⟨hNone, hRest⟩ := List.forall_mem_cons.1 (List.filterMap_eq_nil_iff.1 hFaults)
    have hPlain : d.Plain := by
      rintro fault rfl
      cases hNone
    rw [List.map_cons, List.map_cons, hd.format hf hPlain, ih (List.filterMap_eq_nil_iff.2 hRest)]

theorem map_code_of_copies {ds ds' : List Diagnostic}
    (h : List.Forall₂ (Diagnostic.Copies f) ds ds') :
    ds'.map Diagnostic.code = ds.map Diagnostic.code := by
  induction h with
  | nil => rfl
  | cons hd _ ih => rw [List.map_cons, List.map_cons, hd.code, ih]

/-- Copies of a run without faults that both collect their reports: the reports read the same. -/
theorem map_format_sink (hf : Faithful f) {c ℓ δ : Nat} {base : List Diagnostic} {s : Session}
    (h : Session.Copies f c ℓ δ (.collect []) (.collect base) s s')
    (hFaults : s.sink.toList.filterMap Diagnostic.fault? = []) :
    s'.sink.toList.map Diagnostic.format =
      base.map Diagnostic.format ++ s.sink.toList.map Diagnostic.format := by
  obtain ⟨ds, ds', hReports, hSink, hSink'⟩ := h.reports
  rw [foldl_report_collect, List.nil_append] at hSink
  rw [foldl_report_collect] at hSink'
  rw [hSink] at hFaults ⊢
  rw [hSink']
  -- what was collected before the second run stays in front
  show (base ++ ds').map Diagnostic.format = _
  rw [List.map_append, map_format_of_copies hf hReports hFaults]
  rfl

theorem Run.collects {fuel : Nat} (hScope : ∀ x t, scope.find? x = some t → t.Closed)
    (he : e.faults = []) {o : Expr Stamp × Polytype}
    (h : Run fuel scope e ⟨Prefix.empty.enter, .collect []⟩ o s') :
    ∃ ds, s'.sink = .collect ds ∧ ds.filterMap Diagnostic.fault? = [] := by
  have hKept := h.keeps wellFormed_empty.enter (one_le_level_enter _)
    fun x t hx y hy => absurd hy (hScope x t hx y)
  obtain ⟨ds, hSink, hFaults⟩ := hKept.reports
  exact ⟨ds, hSink.trans (foldl_report_collect [] ds), hFaults.trans he⟩

end Infer

end Mlf
