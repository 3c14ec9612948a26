import Mathlib
import Mlf.Proofs.Annotations
import Mlf.Proofs.CopyRuns
import Mlf.Proofs.Termination

/-!
# A variable annotated with its own type

A variable may be annotated with the very type that it is declared with. Inference then unifies a
flexible variable and a rigid one that both have this type as their bound, and finds the common
instances of the type with itself. Their type has its quantifiers listed anew, and the rigid variable
accepts it only if it is equivalent to the bound.

Equivalence does not take quantifiers for each other. So the annotation is accepted exactly if the
quantifiers of the type are in order already, and otherwise there is one report. The type of the
annotation is the declared one in both cases.

Main results:

* `TieRun.reports_of_self` — a flexible and a rigid variable with one bound;
* `unify_self` — unification of a type with itself;
* `infer_annot_self` — a variable annotated with its own type.
-/

namespace Mlf

open Polytype

variable {p : Prefix} {t : Polytype}

namespace Polytype

theorem equivalent_iff_shape_eq {u : Polytype} (ht : t.IsNormal) (hu : u.IsNormal) :
    t.equivalent u = true ↔ t.shape = u.shape := by
  rw [equivalent, normal_eq_self.2 ht, normal_eq_self.2 hu, alphaEq_iff]

theorem equivalent_normal (t : Polytype) : t.normal.equivalent t = true := by
  rw [equivalent, normal_eq_self.2 (isNormal_normal t), alphaEq_iff]

theorem Closed.freeVars_toList (h : t.Closed) : t.freeVars.toList = [] :=
  List.eq_nil_iff_forall_not_mem.2 h

end Polytype

namespace Prefix

/-- Where no name is moved, there are no pairs. -/
theorem twins_id (p : Prefix) : p.Twins id :=
  ⟨fun _ => rfl, fun _ _ hy => absurd rfl hy, fun _ hy => absurd rfl hy⟩

theorem resolved_of_closed (p : Prefix) (h : t.Closed) : p.resolved t = t := by
  rw [resolved, h.freeVars_toList, resolution, subst_empty]

theorem monomorphized_of_mono {m : Monotype} (h : t.normal = mono m) (kind : BoundKind) :
    p.monomorphized t kind = (m, p) := by
  simp only [monomorphized, h]

theorem monomorphized_of_not_mono (h : t.normal.mono? = none) (kind : BoundKind) :
    p.monomorphized t kind =
      (.var (p.newType ⟨kind, t.normal⟩).1, (p.newType ⟨kind, t.normal⟩).2) := by
  unfold monomorphized
  split
  · next m hm =>
    rw [hm] at h
    cases h
  · rfl

theorem generalize_of_closed (p : Prefix) (h : t.Closed) : p.generalize t = (t, p) := by
  have hOccurrences : t.occurrences = [] :=
    List.eq_nil_iff_forall_not_mem.2 fun x hx => h x (mem_occurrences.1 hx)
  rw [generalize, generalizable, hOccurrences, List.map_nil, gather]
  rfl

end Prefix

/-- Moving no name changes nothing. -/
theorem Monotype.rename_id (m : Monotype) : m.rename id = m := by
  induction m with
  | var x => rfl
  | const c => rfl
  | fn p b ihp ihb => rw [Monotype.rename, ihp, ihb]

namespace Unify

open Solve Prefix

variable {p q : Prefix} {n : Polytype}

/-! ## The common instances of a type with itself -/

/-- A type is a copy of itself. -/
theorem alike_self (hClosed : n.Closed) (hFlexible : n.Flexible) :
    Alike id ⟨.flexible, n⟩ ⟨.flexible, n⟩ :=
  ⟨rfl, ⟨hFlexible, hFlexible⟩, .refl_of_fixed fun _ _ => rfl, fun x hx => absurd hx (hClosed x)⟩

/-- A flexible and a rigid variable with one bound are made one if the bound is in order, and
otherwise there is one report. -/
theorem TieRun.reports_of_self {R : Behavior} (hSafe : Safe R) (hExact : Exact R) (hR : Tidying R)
    {x y : String} {k l : Nat} {ds : List Diagnostic}
    (h : TieRun R p (.merge x y ⟨.flexible, n⟩ ⟨.rigid, n⟩) (some (q, ds))) (hp : p.WellFormed)
    (hx : p.find? x = some ⟨k, ⟨.flexible, n⟩⟩) (hy : p.find? y = some ⟨l, ⟨.rigid, n⟩⟩) (hne : x ≠ y)
    (hClosed : n.Closed) (hFlexible : n.Flexible) (hNotMono : n.mono? = none) {r : Valuation}
    (hr : p.IsSolution r) (hEq : r x = r y) :
    (n.InOrder → ds = []) ∧ (¬ n.InOrder → ∃ d, ds = [d]) := by
  have hNormal : n.IsNormal := hp.normal x _ hx
  have hCovers : p.Covers n := fun z hz => absurd hz (hClosed z)
  have hFits := Tie.merge_fits hp hne hx hy (closed_univ _) trivial trivial
  have hOpen : (Tie.merge x y ⟨.flexible, n⟩ ⟨.rigid, n⟩).Open := Tie.merge_open hNotMono hNotMono
  have hSolved := Tie.merge_solved hr hx hy hEq
  -- the run on the bounds reports nothing, and lists the quantifiers anew
  have hPoly {q : Prefix} {ds : List Diagnostic} {t : Polytype}
      (h : PolyRun R p n n (some (q, ds, t))) : ds = [] ∧ Relists id p q n t :=
    PolyRun.tidies hSafe hR (b := ⟨.flexible, n⟩) (c := ⟨.flexible, n⟩) h hp (twins_id p)
      (alike_self hClosed hFlexible) ⟨hCovers, hNormal⟩ ⟨hCovers, hNormal⟩ hNotMono hr hSolved.actual
      hSolved.expected
  -- what is left after the run on the bounds is the question whether the quantifiers stay as they are
  have hAgrees {q q' : Prefix} {t : Polytype} (h : PolyRun R p n n (some (q, [], t))) :
      (q'.resolved t).equivalent (q'.resolved n) = true ↔ n.InOrder := by
    obtain ⟨-, hRelists⟩ := hPoly h
    have ht : t.IsNormal := (h.narrows hSafe hp hCovers hCovers hNormal hNormal (closed_univ _)
      (fun _ _ => trivial) (fun _ _ => trivial) 0).normal
    have htClosed : t.Closed := by
      intro z hz
      obtain ⟨w, hwz, hEq, -⟩ := hRelists.names z hz
      exact hwz hEq
    rw [resolved_of_closed q' htClosed, resolved_of_closed q' hClosed,
      equivalent_iff_shape_eq ht hNormal]
    exact ⟨fun hShape => (inOrder_iff_of_shape_eq hShape).1 hRelists.inOrder, hRelists.same⟩
  cases h with
  | clash _ _ _ _ hBounds =>
    -- only rigid bounds clash as they stand
    cases hBounds ⟨.flexible, n⟩ (by simp [Tie.merge])
  | cycle hx hOccurs => exact absurd hOccurs (hSolved.not_cycle hp hFits hOpen hr hx)
  | failed hRun => cases (hPoly hRun).1
  | @rigid q _ d t hRun _ hDiffer =>
    obtain ⟨b, hb, -, hDiffer⟩ := hDiffer
    have hType : b.type = n := by
      obtain rfl | rfl : b = ⟨.flexible, n⟩ ∨ b = ⟨.rigid, n⟩ := by simpa [Tie.merge] using hb
      · rfl
      · rfl
    rw [hType, ← Bool.not_eq_true] at hDiffer
    exact ⟨fun hInOrder => absurd ((hAgrees hRun).2 hInOrder) hDiffer, fun _ => ⟨d, rfl⟩⟩
  | knot hRun hx hOccurs =>
    exact absurd hOccurs (hSolved.not_knot hSafe hExact hRun hp hFits hOpen hr hx)
  | tied _ hRun _ _ hSame =>
    have hInOrder : n.InOrder := (hAgrees hRun).1 (hSame ⟨.rigid, n⟩ (by simp [Tie.merge]) rfl)
    exact ⟨fun _ => rfl, fun hNot => absurd hInOrder hNot⟩

/-- A run that ends, outside of calls. -/
theorem forward_of_ok {fuel : Nat} {a e : Monotype} {s s' : Session} {verdict : Verdict}
    (h : within fuel a e false s = .ok (verdict, s')) :
    ∃ ds, Forward fuel s.vars a e (some (s'.vars, ds)) ∧ s'.sink = ds.foldl .report s.sink := by
  obtain ⟨ds, hRun, rfl, hSink⟩ := run_of_within_ok h
  refine ⟨ds, ⟨hRun, s.sink, [], ?_⟩, hSink⟩
  rw [Outcome.result, ← hSink]
  exact h

/-! ## Unification of a type with itself -/

/-- Unification of two variables without solutions makes them one. -/
theorem forward_merge {fuel : Nat} {x y : String} {ex ey : Entry} {s s' : Session} {verdict : Verdict}
    (h : within fuel (.var x) (.var y) false s = .ok (verdict, s')) (hx : s.vars.find? x = some ex)
    (hy : s.vars.find? y = some ey) (hne : x ≠ y) (hxOpen : ex.bound.type.mono? = none)
    (hyOpen : ey.bound.type.mono? = none) :
    ∃ m q ds, s.vars.Quiet q ∧
      TieRun (Forward m) q (.merge x y ex.bound ey.bound) (some (s'.vars, ds)) ∧
      s'.sink = ds.foldl .report s.sink := by
  cases fuel with
  | zero => cases h
  | succ m =>
    have hQuiet := quiet_followed s.vars (.var x) (.var y)
    -- the two are their own tops, so the step ties them
    have hTops := step_of_vars (top_of_solution?_none ((solution?_eq_none hx).2 hxOpen))
      (top_of_solution?_none ((solution?_eq_none hy).2 hyOpen)) hne (within m) false
    generalize followed s.vars (.var x) (.var y) = q at hQuiet hTops
    obtain ⟨o, lost, hTie, hResult⟩ := mergeVars_forward m (s := ⟨q, s.sink⟩) (hQuiet.find? x ▸ hx)
      (hQuiet.find? y ▸ hy)
    have hOutcome : Outcome.result ⟨q, s.sink⟩ lost o = .ok (verdict, s') :=
      hResult.symm.trans (hTops.symm.trans h)
    rcases o with _ | ⟨q', ds⟩
    · cases hOutcome
    · cases hOutcome
      exact ⟨m, q, ds, hQuiet, hTie, rfl⟩

/-- Two monotypes that stand for one closed type can have one and the same instance. -/
theorem monomorphized_twice {p₁ p₂ : Prefix} (hp : p.WellFormed) (hLevel : 1 ≤ p.level)
    (hClosed : t.Closed) {a e : Monotype} {k l : BoundKind}
    (hActual : p.monomorphized t k = (a, p₁)) (hExpected : p₁.monomorphized t l = (e, p₂)) :
    1 ≤ p₁.level ∧ p₂.WellFormed ∧ p₂.Covers a ∧ p₂.Covers e ∧
      ∃ r, p₂.IsSolution r ∧ a.eval r = e.eval r := by
  have hCovers (p : Prefix) : p.Covers t := fun x hx => absurd hx (hClosed x)
  have hFirst := monomorphized_opens hp hLevel (hCovers p) hActual
  have hLevel₁ := hFirst.narrows.one_le_level hLevel
  have hSecond := monomorphized_opens hFirst.narrows.wellFormed hLevel₁ (hCovers p₁) hExpected
  refine ⟨hLevel₁, hSecond.narrows.wellFormed, hSecond.narrows.covers hFirst.covers, hSecond.covers, ?_⟩
  -- an instance of the type is a value for the first, and still one where the second is made
  obtain ⟨r₀, hr₀⟩ := hp.acyclic.exists_isSolution
  obtain ⟨g, hg⟩ := t.Inst_nonempty r₀
  obtain ⟨r₁, -, hr₁, hga⟩ := hFirst.complete r₀ hr₀ g hg
  rw [Inst_congr fun x hx => absurd hx (hClosed x)] at hg
  obtain ⟨r₂, hSame, hr₂, hge⟩ := hSecond.complete r₁ hr₁ g hg
  exact ⟨r₂, hr₂, by rw [hFirst.covers.eval_congr hSame, hga, hge]⟩

/-- Monotypes that stand for a closed type, one flexibly and one rigidly. Unification of the two
ends, without a report if the quantifiers of the type are in order, and otherwise with one. -/
theorem unify_self {p₁ p₂ : Prefix} (hp : p.WellFormed) (hLevel : 1 ≤ p.level)
    (hClosed : t.Closed) (hFlexible : t.Flexible) {a e : Monotype}
    (hActual : p.monomorphized t .flexible = (a, p₁))
    (hExpected : p₁.monomorphized t .rigid = (e, p₂)) (sink : Sink) :
    Ends a e false ⟨p₂, sink⟩ ∧
      ∀ fuel verdict s, within fuel a e false ⟨p₂, sink⟩ = .ok (verdict, s) →
        ∃ ds, s.sink = ds.foldl .report sink ∧ (t.normal.InOrder → ds = []) ∧
          (¬ t.normal.InOrder → ∃ d, ds = [d]) := by
  obtain ⟨hLevel₁, hp₂, ha, he, r, hr, hEq⟩ := monomorphized_twice hp hLevel hClosed hActual hExpected
  refine ⟨ends_of_solution hp₂ ha he hr hEq, fun fuel verdict s h => ?_⟩
  have hNormal : t.normal.Closed := fun x hx => hClosed x (freeVars_normal hx)
  by_cases hMono : t.normal.mono? = none
  · -- a variable of each kind with the type as its bound
    rw [monomorphized_of_not_mono hMono] at hActual hExpected
    have hGrows := newType_grows hLevel ⟨.flexible, t.normal⟩
    have hGrows' := newType_grows hLevel₁ ⟨.rigid, t.normal⟩
    obtain ⟨rfl, rfl⟩ := Prod.mk.inj hActual
    obtain ⟨rfl, rfl⟩ := Prod.mk.inj hExpected
    generalize p.newType ⟨.flexible, t.normal⟩ = made at *
    generalize made.2.newType ⟨.rigid, t.normal⟩ = made' at *
    have hx : made.2.find? made.1 = some ⟨p.level, ⟨.flexible, t.normal⟩⟩ := by
      rw [hGrows.find?, if_pos rfl]
    have hne : made.1 ≠ made'.1 := fun hSame => hGrows'.fresh (hSame ▸ ⟨_, hx⟩)
    have hx' : made'.2.find? made.1 = some ⟨p.level, ⟨.flexible, t.normal⟩⟩ := by
      rw [hGrows'.find?, if_neg hne, hx]
    have hy : made'.2.find? made'.1 = some ⟨made.2.level, ⟨.rigid, t.normal⟩⟩ := by
      rw [hGrows'.find?, if_pos rfl]
    -- unification comes down to making them one
    obtain ⟨m, q, ds, hQuiet, hTie, hSink⟩ := forward_merge h hx' hy hne hMono hMono
    refine ⟨ds, hSink, hTie.reports_of_self (forward_safe m) (forward_exact m) (forward_tidies m)
      (hQuiet.wellFormed hp₂).1 (hQuiet.find? _ ▸ hx') (hQuiet.find? _ ▸ hy) hne hNormal
      (flexible_normal hFlexible) hMono (hQuiet.isSolution_iff.2 hr) hEq⟩
  · -- a monotype without variables
    obtain ⟨m, hm⟩ : ∃ m, t.normal = mono m := by
      rw [mono?_eq_none] at hMono
      push Not at hMono
      exact hMono
    rw [monomorphized_of_mono hm] at hActual hExpected
    obtain ⟨rfl, rfl⟩ := Prod.mk.inj hActual
    obtain ⟨rfl, rfl⟩ := Prod.mk.inj hExpected
    rw [hm] at hNormal ⊢
    obtain ⟨ds, hForward, hSink⟩ := forward_of_ok h
    obtain ⟨rfl, -, -⟩ := forward_tidies fuel hForward hp (twins_id p) (Monotype.rename_id m)
      (fun y hy => absurd hy (hNormal y)) r hr rfl
    exact ⟨[], hSink, fun _ => rfl, fun hNot => absurd trivial hNot⟩

end Unify

namespace Infer

open Solve Prefix

variable {scope : Scope} {x : String} {t : Polytype}

/-! ## Inference -/

/-- With enough fuel there is a run. -/
theorem exists_run_annot_self (hx : scope.find? x = some t) (hClosed : t.Closed)
    (hFlexible : t.Flexible) (hp : p.WellFormed) (sink : Sink) :
    ∃ n, ∀ fuel, n ≤ fuel →
      ∃ out s', Run fuel scope (.annot () (.var () x) t) ⟨p, sink⟩ out s' := by
  obtain ⟨⟨n, ⟨verdict, s₂⟩, hEnds⟩, -⟩ := Unify.unify_self hp.enter (one_le_level_enter p) hClosed
    hFlexible Prod.mk.eta.symm Prod.mk.eta.symm sink
  refine ⟨n, fun fuel hFuel => ?_⟩
  have hValue : Run fuel scope (.var () x)
      ⟨p.enter.declare (p.enter.wildcards t), sink⟩ (.var (.of t) x, t) ⟨p.enter, sink⟩ := by
    rw [wildcards_of_closed _ hClosed]
    exact .var _ hx
  exact ⟨_, _, .annot hValue Prod.mk.eta.symm Prod.mk.eta.symm (hEnds fuel hFuel)
    (generalize_of_closed _ hClosed)⟩

/-- The type of such a run and its reports. -/
theorem Run.annot_self {fuel : Nat} {sink : Sink} {out : Expr Stamp × Polytype} {s' : Session}
    (h : Run fuel scope (.annot () (.var () x) t) ⟨p, sink⟩ out s') (hx : scope.find? x = some t)
    (hClosed : t.Closed) (hFlexible : t.Flexible) (hp : p.WellFormed) :
    out.2 = t.normal ∧ ∃ ds, s'.sink = ds.foldl .report sink ∧ (t.normal.InOrder → ds = []) ∧
      (¬ t.normal.InOrder → ∃ d, ds = [d]) := by
  cases h with
  | annot hValue hActual hExpected hUnify hType =>
  -- a closed type has nothing to generalize
  rw [generalize_of_closed _ hClosed] at hType
  cases hType
  refine ⟨rfl, ?_⟩
  cases hValue with
  | unbound _ hNone =>
    rw [hx] at hNone
    cases hNone
  | var _ hSome =>
    -- the value has the declared type, and there are no wildcards to add
    obtain rfl := Option.some.inj (hx.symm.trans hSome)
    rw [show (⟨p, sink⟩ : Session).vars = p from rfl, wildcards_of_closed _ hClosed] at hActual
    obtain ⟨-, hReports⟩ := Unify.unify_self hp.enter (one_le_level_enter p) hClosed hFlexible hActual
      hExpected sink
    obtain ⟨ds, hSink, hOrder⟩ := hReports fuel _ _ hUnify
    exact ⟨ds, hSink, hOrder⟩

/-- Let a variable be declared with a closed type without rigid quantifiers, and let it be annotated
with this type. Inference returns, and the type that it finds is equivalent to the declared one. If
the quantifiers of the type are in order, then nothing is reported, and otherwise there is one
report. -/
theorem infer_annot_self (hx : scope.find? x = some t) (hClosed : t.Closed) (hFlexible : t.Flexible)
    (fatal : Bool) :
    (∃ n, ∀ fuel, n ≤ fuel →
      ∃ out, infer ⟨fatal, fuel⟩ (.collect []) scope (.annot () (.var () x) t) = .ok out) ∧
    ∀ fuel out, infer ⟨fatal, fuel⟩ (.collect []) scope (.annot () (.var () x) t) = .ok out →
      (∃ u, out.tree.info? = some u ∧ u.equivalent t = true) ∧
      (t.normal.InOrder → out.sink = .collect []) ∧
      (¬ t.normal.InOrder → ∃ d, out.sink = .collect [d]) := by
  have hStart := (scope_over scope).1.wellFormed
  have hFatal (fuel : Nat) :=
    infer_fatal (e := .annot () (.var () x) t) rfl ⟨fatal, fuel⟩ (.collect []) scope
  constructor
  · obtain ⟨n, hRuns⟩ := exists_run_annot_self hx hClosed hFlexible hStart (.collect [])
    refine ⟨n, fun fuel hFuel => ?_⟩
    obtain ⟨o, s', hRun⟩ := hRuns fuel hFuel
    obtain ⟨events, hInfer⟩ := (infer_eq_ok_iff (by nofun)).2 ⟨o, s', hRun, rfl, rfl⟩
    exact ⟨_, (hFatal fuel).trans hInfer⟩
  · -- what a run returns and reports does not depend on how much fuel it had left
    intro fuel out h
    rw [hFatal] at h
    obtain ⟨o, s', hRun, hTree, hSink⟩ := (infer_eq_ok_iff (by nofun)).1 ⟨out.events, h⟩
    obtain ⟨hType, ds, hReports, hInOrder, hOutOfOrder⟩ := hRun.annot_self hx hClosed hFlexible hStart
    -- the reports of the run are all that there are
    rw [foldl_report_collect, List.nil_append] at hReports
    rw [hTree, hSink, hReports]
    have hNormal : o.2.Closed := by
      rw [hType]
      exact fun y hy => hClosed y (freeVars_normal hy)
    refine ⟨⟨o.2, info?_settle (hRun.info (by nofun)) hNormal, by rw [hType, equivalent_normal]⟩,
      fun h => by rw [hInOrder h], fun h => ?_⟩
    obtain ⟨d, rfl⟩ := hOutOfOrder h
    exact ⟨d, rfl⟩

/-- The first quantifier is in the bound of the second, which stands first in the body. -/
theorem infer_annot_self_bounded : ∃ (scope : Scope) (t u : Polytype) (out : Inferred),
    t = .all "a" .flexible .bottom (.all "b" .flexible
      (.all "c" .flexible .bottom (.mono (.fn (.var "c") (.var "a"))))
      (.mono (.fn (.var "b") (.var "a")))) ∧
    scope.find? "x" = some t ∧ t.normal.InOrder ∧
    infer ⟨true, 12⟩ (.collect []) scope (.annot () (.var () "x") t) = .ok out ∧
    out.tree.info? = some u ∧ u.equivalent t = true ∧ out.sink = .collect [] := by
  let t : Polytype := .all "a" .flexible .bottom (.all "b" .flexible
    (.all "c" .flexible .bottom (.mono (.fn (.var "c") (.var "a"))))
    (.mono (.fn (.var "b") (.var "a"))))
  have hClosed : t.Closed := by
    intro y hy
    simp [t, Polytype.freeVars, Monotype.freeVars] at hy
    tauto
  have hFlexible : t.Flexible := by simp [t, Polytype.Flexible]
  let scope : Scope := NameMap.insert ∅ "x" t
  obtain ⟨out, hOk⟩ : ∃ out,
      infer ⟨true, 12⟩ (.collect []) scope (.annot () (.var () "x") t) = .ok out :=
    ⟨_, by unfold infer Infer.root; cbv⟩
  have hInOrder : t.normal.InOrder := by
    rw [show t.normal = t by cbv]
    decide
  obtain ⟨-, hResult⟩ := infer_annot_self (show scope.find? "x" = some t from rfl) hClosed hFlexible
    true
  obtain ⟨⟨u, hu, hEquivalent⟩, hAccepted, -⟩ := hResult 12 out hOk
  exact ⟨scope, t, u, out, rfl, rfl, hInOrder, hOk, hu, hEquivalent, hAccepted hInOrder⟩

/-- Quantifiers that are not in the order of their use: the type is no annotation for a variable
that is declared with it. -/
theorem infer_annot_self_unordered :
    ∃ (scope : Scope) (t : Polytype) (out : Inferred) (d : Diagnostic),
    t = .all "a" .flexible .bottom (.all "b" .flexible .bottom (.mono (.fn (.var "b") (.var "a")))) ∧
    scope.find? "x" = some t ∧ t.Closed ∧ t.Flexible ∧
    infer ⟨true, 8⟩ (.collect []) scope (.annot () (.var () "x") t) = .ok out ∧
    out.sink = .collect [d] := by
  let t : Polytype :=
    .all "a" .flexible .bottom (.all "b" .flexible .bottom (.mono (.fn (.var "b") (.var "a"))))
  have hClosed : t.Closed := by
    intro y hy
    simp [t, Polytype.freeVars, Monotype.freeVars] at hy
    tauto
  have hFlexible : t.Flexible := by simp [t, Polytype.Flexible]
  let scope : Scope := NameMap.insert ∅ "x" t
  -- a run with this fuel comes to its end, and has one report
  obtain ⟨out, d, hOk, hSink⟩ : ∃ out d,
      infer ⟨true, 8⟩ (.collect []) scope (.annot () (.var () "x") t) = .ok out ∧
        out.sink = .collect [d] :=
    ⟨_, _, by unfold infer Infer.root; cbv, by cbv⟩
  exact ⟨scope, t, out, d, rfl, rfl, hClosed, hFlexible, hOk, hSink⟩

end Infer

end Mlf
