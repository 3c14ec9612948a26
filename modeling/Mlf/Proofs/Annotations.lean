import Mathlib
import Mlf.Proofs.RigidBounds
import Mlf.Proofs.WholePrograms

/-!
# Annotations

An annotation is checked by unification: a variable for the type of the value meets a rigid variable
for the declared type. If nothing is reported the declared type claims no more than the value has,
that is, each of its instances is one of the type of the value.

The rigid variable carries the argument. Its bound is not narrowed, so after unification each
instance of the declared type is still a value of that variable in some solution; and in every
solution the two sides have the same value, which is an instance of the type of the value.

The value is typed one level deeper under its annotation than alone, which makes no difference to its
type.

Main results:

* `Holds.exists_solution` — a rigid variable can have every instance of its bound;
* `accepted_subset` — what the check of an annotation guarantees;
* `annotation_claims_no_more` — the same for inference.
-/

namespace Mlf

open Relation

variable {p : Prefix} {t : Polytype} {r : Valuation}

namespace Prefix

/-! ## Values of a rigid variable -/

/-- A variable can have every instance that its bound has in a solution. -/
theorem IsSolution.exists_value (hp : p.Acyclic) (hr : p.IsSolution r) {x : String} {e : Entry}
    (hx : p.find? x = some e) {g : Ground} (hg : g ∈ e.bound.type.Inst r) :
    ∃ r', p.IsSolution r' ∧ r' x = g := by
  -- what the variable reaches keeps its values, since none of it leads back
  have hApart {y z : String} (hy : p.Reaches x y) (hyz : p.Mentions y z) : z ≠ x := by
    rintro rfl
    exact hp z (TransGen.tail' hy hyz)
  have hSolved : p.SolvedOn (Function.update r x g) {y | p.Reaches x y} := by
    intro y hy e' he'
    have hInst : e'.bound.type.Inst (Function.update r x g) = e'.bound.type.Inst r :=
      Polytype.Inst_congr fun z hz => Function.update_of_ne (hApart hy ⟨e', he', hz⟩) _ _
    rw [hInst]
    by_cases hyx : y = x
    · subst hyx
      obtain rfl := Option.some.inj (hx.symm.trans he')
      rwa [Function.update_self]
    · rw [Function.update_of_ne hyx]
      exact hr y e' he'
  obtain ⟨r', hSame, hr'⟩ := hSolved.exists_solution hp fun y hy z hyz => ReflTransGen.tail hy hyz
  refine ⟨r', hr', ?_⟩
  rw [hSame x (Or.inl .refl), Function.update_self]

theorem IsSolution.eq_of_links (hr : p.IsSolution r) {x y : String} (h : ReflTransGen p.Links x y) :
    r x = r y := by
  induction h with
  | refl => rfl
  | tail _ hLink ih =>
    obtain ⟨e, he, ht⟩ := solution?_eq_some.1 hLink
    have hValue := hr _ e he
    rw [ht] at hValue
    exact ih.trans hValue

/-- A rigid variable can have every instance of the type that it holds, as far as that type is
closed. -/
theorem Holds.exists_solution (hp : p.Acyclic) {x : String} (h : p.Holds x t) (ht : t.Closed)
    {g : Ground} (hg : g ∈ t.Inst r) : ∃ r', p.IsSolution r' ∧ r' x = g := by
  obtain ⟨y, e, hLinks, hy, -, -, hEquiv⟩ := h
  obtain ⟨r₁, hr₁⟩ := hp.exists_isSolution
  -- the bound that is held is equivalent to the type, which is closed
  have hBound : e.bound.type.Inst r₁ = t.Inst r := by
    rw [← hr₁.Inst_resolved hp, ← Polytype.Inst_eq_of_equivalent hEquiv, hr₁.Inst_resolved hp]
    exact Polytype.Inst_congr fun z hz => absurd hz (ht z)
  obtain ⟨r₂, hr₂, hValue⟩ := hr₁.exists_value hp hy (hBound ▸ hg)
  exact ⟨r₂, hr₂, (hr₂.eq_of_links hLinks).trans hValue⟩

/-- A closed type has no wildcards. -/
theorem wildcards_of_closed (p : Prefix) (h : t.Closed) : p.wildcards t = [] := by
  have hSorted : t.freeVars.sorted = [] :=
    List.eq_nil_iff_forall_not_mem.2 fun x hx => h x (NameSet.mem_sorted.1 hx)
  rw [wildcards, hSorted]
  rfl

end Prefix

namespace Infer

open Solve Prefix

/-! ## The check of an annotation -/

/-- A monotype that stands rigidly for a closed type can have each instance of it later on. -/
theorem rigid_exists_solution {p' q : Prefix} (hLevel : 1 ≤ p.level) (ht : t.Closed)
    {m : Monotype} (h : p.monomorphized t .rigid = (m, p')) (hFixes : p'.Fixes q) (hq : q.Acyclic)
    {g : Ground} (hg : g ∈ t.Inst r) : ∃ r', q.IsSolution r' ∧ m.eval r' = g := by
  have hNormal : t.normal.Closed := fun x hx => ht x (Polytype.freeVars_normal hx)
  rw [← Polytype.Inst_normal] at hg
  unfold monomorphized at h
  split at h
  · next m' hMono =>
    -- a monotype without variables has one value
    obtain ⟨rfl, rfl⟩ := Prod.mk.inj h
    obtain ⟨r', hr'⟩ := hq.exists_isSolution
    rw [hMono] at hg hNormal
    refine ⟨r', hr', ?_⟩
    rw [show g = m'.eval r from hg]
    exact Monotype.eval_congr fun x hx => absurd hx (hNormal x)
  · next hNotMono =>
    obtain ⟨rfl, rfl⟩ := Prod.mk.inj h
    -- the bound of the new variable is held by what is left, so its instances are open
    have hGrows := newType_grows hLevel ⟨.rigid, t.normal⟩
    have hBound := (hGrows.find? (p.newType ⟨.rigid, t.normal⟩).1).trans (if_pos rfl)
    have hHolds := hFixes.rigid _ _ hBound rfl (Polytype.mono?_eq_none.2 hNotMono)
    exact hHolds.exists_solution hq hNormal hg

/-- Where the type of a value and a declared type are unified without a report, the instances of the
declared type are instances of the type of the value. -/
theorem accepted_subset {p₁ p₂ : Prefix} (hp : p.WellFormed) (hLevel : 1 ≤ p.level)
    {declared : Polytype} (ht : t.Closed) (hDeclared : declared.Closed) {a e : Monotype}
    (hActual : p.monomorphized t .flexible = (a, p₁))
    (hExpected : p₁.monomorphized declared .rigid = (e, p₂)) {fuel : Nat} {sink : Sink}
    {s : Session} (hUnify : unify fuel a e ⟨p₂, sink⟩ = .ok (none, s)) (r : Valuation) :
    declared.Inst r ⊆ t.Inst r := by
  intro g hg
  -- closed types are over any names in play
  have hCovers {t : Polytype} (ht : t.Closed) (p : Prefix) : p.Covers t := by
    intro x hx
    exact absurd hx (ht x)
  have hFirst := monomorphized_opens hp hLevel (hCovers ht p) hActual
  have hLevel₁ := hFirst.narrows.one_le_level hLevel
  have hSecond := monomorphized_opens hFirst.narrows.wellFormed hLevel₁ (hCovers hDeclared p₁)
    hExpected
  have hp₂ := hSecond.narrows.wellFormed
  have ha := hSecond.narrows.covers hFirst.covers
  -- the declared type can have the instance after unification
  have hFixes := Unify.within_fixes hUnify hp₂ ha hSecond.covers
  have hAcyclic := (Unify.within_narrows hUnify hp₂ ha hSecond.covers 0).1.wellFormed.acyclic
  obtain ⟨r', hr', heg⟩ := rigid_exists_solution hLevel₁ hDeclared hExpected hFixes hAcyclic hg
  -- and what it has there is an instance of the type of the value
  obtain ⟨hr₂, hSame⟩ := (Unify.within_refines hUnify hp₂ ha hSecond.covers 0).1.sound r' hr'
  obtain ⟨hr₁, -⟩ := hSecond.sound r' hr₂
  obtain ⟨-, hInst⟩ := hFirst.sound r' hr₁
  rw [hSame, heg] at hInst
  rwa [Polytype.Inst_congr fun x hx => absurd hx (ht x)] at hInst

/-! ## Programs without faults -/

/-- Where faults stop a run, a run that ends has met none. -/
theorem faults_of_expr_ok {fuel : Nat} {scope : Scope} {e : Program} {s s' : Session}
    {out : Expr Stamp × Polytype} (h : expr ⟨true, fuel⟩ scope e s = .ok (out, s')) :
    e.faults = [] := by
  induction e generalizing scope s s' out with
  -- a missing or unknown part is a fault itself, so the run has stopped there
  | missing => cases h
  | unknown => cases h
  | var info x => rfl
  | const info v => rfl
  | func info x body ih =>
    rw [expr_func] at h
    obtain ⟨_, _, hLevel, -⟩ := of_bind_ok h
    obtain ⟨_, hAct, -⟩ := of_atLevel_ok hLevel
    obtain ⟨_, _, -, hAct⟩ := of_bind_ok hAct
    obtain ⟨_, _, hBody, -⟩ := of_bind_ok hAct
    exact ih hBody
  | call info callee arg ihCallee ihArg =>
    rw [expr_call] at h
    obtain ⟨_, _, hLevel, -⟩ := of_bind_ok h
    obtain ⟨_, hAct, -⟩ := of_atLevel_ok hLevel
    obtain ⟨_, _, hCallee, hAct⟩ := of_bind_ok hAct
    obtain ⟨_, _, hArg, -⟩ := of_bind_ok hAct
    rw [Expr.faults, ihCallee hCallee, ihArg hArg, List.append_nil]
  | letIn info x value body ihValue ihBody =>
    rw [expr_letIn] at h
    obtain ⟨_, _, hValue, h⟩ := of_bind_ok h
    obtain ⟨_, _, hBody, -⟩ := of_bind_ok h
    rw [Expr.faults, ihValue hValue, ihBody hBody, List.append_nil]
  | annot info value declared ih =>
    rw [expr_annot] at h
    obtain ⟨_, _, hLevel, -⟩ := of_bind_ok h
    obtain ⟨_, hAct, -⟩ := of_atLevel_ok hLevel
    obtain ⟨_, _, -, hAct⟩ := of_bind_ok hAct
    obtain ⟨_, _, hValue, -⟩ := of_bind_ok hAct
    exact ih hValue
  | error info d inner ih =>
    -- an error that stands alone has nothing inside that could be missing
    by_cases hInner : inner = .missing
    · subst hInner
      rfl
    · rw [Expr.faults_error hInner]
      rw [expr_error _ _ _ _ hInner] at h
      obtain ⟨_, _, hLevel, -⟩ := of_bind_ok h
      obtain ⟨_, hAct, -⟩ := of_atLevel_ok hLevel
      obtain ⟨_, _, hRun, -⟩ := of_bind_ok hAct
      exact ih hRun

/-- A program that is typed without a report has no faults. -/
theorem faults_of_infer_ok {config : Config} {ds : List Diagnostic} {scope : Scope} {e : Program}
    {out : Inferred} (h : infer config (.collect ds) scope e = .ok out)
    (hClean : out.sink = .collect ds) : e.faults = [] := by
  obtain ⟨fatal, fuel⟩ := config
  by_cases hMissing : e = .missing
  · subst hMissing
    cases fatal with
    | true => cases h
    | false =>
      cases h
      simp [Sink.report] at hClean
  · cases fatal with
    | true =>
      cases hExpr : expr ⟨true, fuel⟩ scope e
          ⟨Prefix.empty.enter.declare scope.freeVars.sorted, .collect ds⟩ with
      | error halt =>
        rw [infer, StateT.run, root_of_error hMissing hExpr] at h
        cases h
      | ok out => exact faults_of_expr_ok hExpr
    | false =>
      -- faults are reported, so there are none
      obtain ⟨_, s', hRun, -, hSink⟩ := (infer_eq_ok_iff hMissing).1 ⟨out.events, h⟩
      obtain ⟨-, -, -, es, hReports, hFaults⟩ := hRun.clean
      rw [← hSink, hClean] at hReports
      rw [← hFaults, foldl_report_eq_iff.1 hReports.symm]
      rfl

/-! ## Inference -/

/-- A program and the same program under an annotation, both typed without a report. -/
theorem Run.annot_subset {fuel : Nat} {scope : Scope}
    (hScope : ∀ x t, scope.find? x = some t → t.Closed) {e : Program} {ds : List Diagnostic}
    {o o' : Expr Stamp × Polytype} {s s' : Session}
    (h : Run fuel scope e ⟨Prefix.empty.enter, .collect ds⟩ o s) (ht : o.2.Closed)
    {declared : Polytype} (hDeclared : declared.Closed) (hClean : s.sink = .collect ds)
    (h' : Run fuel scope (.annot () e declared) ⟨Prefix.empty.enter, .collect ds⟩ o' s')
    (hClean' : s'.sink = .collect ds) (r : Valuation) : declared.Inst r ⊆ o.2.Inst r := by
  cases h' with
  | @annot _ _ _ _ valueType _ _ s₁ s₂ tree a m p₁ p₂ q verdict hValue hActual hExpected hUnify hType =>
  rw [show (⟨Prefix.empty.enter, .collect ds⟩ : Session).vars = Prefix.empty.enter from rfl,
    wildcards_of_closed _ hDeclared] at hValue
  -- the value has the same type one level deeper
  have hStart : Session.Copies id 0 1 1 (.collect ds) (.collect ds)
      ⟨Prefix.empty.enter, .collect ds⟩ ⟨Prefix.empty.enter.enter, .collect ds⟩ :=
    ⟨copies_of_unbound wellFormed_empty.enter.owned wellFormed_empty.enter.enter.owned
      (one_le_level_enter _) rfl rfl not_binds_empty not_binds_empty, [], [], .nil, rfl, rfl⟩
  rcases expr_mirrors ⟨Function.injective_id, fun _ => rfl⟩ ⟨false, fuel⟩
      (scopeCopies_of_closed hScope) (exprCopies_of_fixed fun _ _ _ _ => rfl) _ _ hStart with
    ⟨halt, -, hStop, -⟩ | ⟨a, t, a', t', hRun, hRun', hCopies, hEnd⟩
  · cases hStop.symm.trans (expr_ok_of_run h)
  cases hRun.symm.trans (expr_ok_of_run h)
  cases hRun'.symm.trans (expr_ok_of_run hValue)
  have hSame : valueType.shape = o.2.shape := hCopies.symm
  have hInst : valueType.Inst r = o.2.Inst r := by
    rw [← Polytype.Inst_shape, hSame, Polytype.Inst_shape]
  have hClosed : valueType.Closed := by
    intro y hy
    obtain ⟨x, hx, -⟩ := (hCopies.mem_freeVars Function.injective_id).1 hy
    exact ht x hx
  -- nothing is reported, so unification succeeds
  obtain ⟨es, -, hVerdict, hReports⟩ := Unify.run_of_within_ok hUnify
  obtain rfl : verdict = none := by
    obtain ⟨ds₁, ds₂, hPairs, hSink, hSink'⟩ := hEnd.reports
    rw [hClean, eq_comm, foldl_report_eq_iff] at hSink
    subst hSink
    cases hPairs
    rw [show s₂.sink = .collect ds from hClean', hSink'] at hReports
    rw [hVerdict, foldl_report_eq_iff.1 hReports.symm]
    rfl
  -- from here it is about two types that were unified, one of them rigid
  have hKept := hValue.keeps wellFormed_empty.enter.enter (one_le_level_enter _)
    fun x t hx y hy => absurd hy (hScope x t hx y)
  rw [← hInst]
  exact accepted_subset (hKept.narrows 0).wellFormed
    ((hKept.narrows 0).one_le_level (one_le_level_enter _)) hClosed hDeclared hActual hExpected
    hUnify r

/-- An accepted annotation claims no more than the value has. In a scope of closed types, let a
program be typed without a report, and also under an annotation by a closed type. Then the instances
of the declared type are instances of the type of the program. -/
theorem annotation_claims_no_more {scope : Scope}
    (hScope : ∀ x t, scope.find? x = some t → t.Closed) (config : Config) (ds : List Diagnostic)
    {e : Program} {out : Inferred} (h : infer config (.collect ds) scope e = .ok out)
    (hClean : out.sink = .collect ds) {t : Polytype} (ht : out.tree.info? = some t)
    {declared : Polytype} (hDeclared : declared.Closed) {out' : Inferred}
    (h' : infer config (.collect ds) scope (.annot () e declared) = .ok out')
    (hClean' : out'.sink = .collect ds) (r : Valuation) : declared.Inst r ⊆ t.Inst r := by
  have hFaults := faults_of_infer_ok h hClean
  have hMissing : e ≠ .missing := by
    rintro rfl
    cases hFaults
  rw [infer_fatal hFaults] at h
  rw [infer_fatal (e := .annot () e declared) hFaults] at h'
  obtain ⟨o, s, hRun, hTree, hSink⟩ := (infer_eq_ok_iff hMissing).1 ⟨out.events, h⟩
  obtain ⟨o', s', hRun', -, hSink'⟩ :=
    (infer_eq_ok_iff (e := .annot () e declared) nofun).1 ⟨out'.events, h'⟩
  -- the root of the program carries the type that was found for it
  obtain ⟨-, hClosed⟩ := hRun.unbinds hScope
  obtain rfl : o.2 = t := by
    rw [hTree, info?_settle (hRun.info hMissing) hClosed] at ht
    exact Option.some.inj ht
  rw [freeVars_of_closed hScope] at hRun hRun'
  exact hRun.annot_subset hScope hClosed hDeclared (hSink.symm.trans hClean) hRun'
    (hSink'.symm.trans hClean') r

/-- The identity is declared to take functions to functions, which is less than it does. -/
theorem annotation_claims_no_more_identity : ∃ e : Program, ∃ declared t out out',
    e = .func () "x" (.var () "x") ∧
    declared = .all "b" .flexible .bottom (.mono (.fn (.fn (.var "b") (.const .number))
      (.fn (.var "b") (.const .number)))) ∧
    infer ⟨true, 8⟩ (.collect []) ∅ e = .ok out ∧ out.sink = .collect [] ∧
    out.tree.info? = some t ∧
    infer ⟨true, 8⟩ (.collect []) ∅ (.annot () e declared) = .ok out' ∧ out'.sink = .collect [] ∧
    ∀ r, declared.Inst r ⊆ t.Inst r := by
  let e : Program := .func () "x" (.var () "x")
  let declared : Polytype := .all "b" .flexible .bottom (.mono (.fn (.fn (.var "b") (.const .number))
      (.fn (.var "b") (.const .number))))
  obtain ⟨tree, events, t, hRun, ht⟩ : ∃ tree events t,
      infer ⟨true, 8⟩ (.collect []) ∅ e = .ok ⟨tree, .collect [], events⟩ ∧ tree.info? = some t :=
    ⟨_, _, _, by unfold infer Infer.root; cbv, by cbv⟩
  obtain ⟨tree', events', hRun'⟩ : ∃ tree' events',
      infer ⟨true, 8⟩ (.collect []) ∅ (.annot () e declared) = .ok ⟨tree', .collect [], events'⟩ :=
    ⟨_, _, by unfold infer Infer.root; cbv⟩
  -- the scope is empty
  have hScope (x : String) (u : Polytype) (hx : (∅ : Scope).find? x = some u) : u.Closed := by
    cases hx
  have hDeclared : declared.Closed := by
    intro y hy
    simp [declared, Polytype.freeVars, Monotype.freeVars] at hy
  refine ⟨e, declared, t, _, _, rfl, rfl, hRun, rfl, ht, hRun', rfl, ?_⟩
  exact annotation_claims_no_more hScope ⟨true, 8⟩ [] hRun rfl ht hDeclared hRun' rfl

end Infer

end Mlf
