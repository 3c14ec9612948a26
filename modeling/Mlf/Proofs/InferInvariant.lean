import Mlf.Proofs.InferRun

/-!
# What inference keeps

Inference never finds its own state inconsistent. Every part of a run narrows the variables in play
and leaves a type over them, so that nothing is asked of a variable that is not there: the levels are
left as they were entered, no misuse is recorded, and nothing is left over at the end. The faults
that are reported are those of the program, its missing and unknown parts.

Narrowing is measured from the outside. What a form does at a level of its own is seen from there
only after the level is left, so the variables that it made up are gone, and a type that mentions
older variables at most is what remains of them.

Main results:

* `Run.keeps` — what a run on a part of a program keeps;
* `Run.clean` — a whole run ends as clean as it began;
* `infer_eq_ok_iff` — what inference returns is what a run leaves behind;
* `infer_consistent` — a whole program, whatever faults do.
-/

namespace Mlf

open Solve

variable {p q : Prefix} {scope : Scope} {e : Program} {a : Monotype} {t : Polytype} {x : String}

theorem NameSet.nodup_sorted (s : NameSet) : s.sorted.Nodup :=
  (List.mergeSort_perm _ _).nodup_iff.2 s.nodup

namespace Prefix

/-- New names without bounds narrow nothing. -/
theorem declare_narrows (hp : p.WellFormed) (hLevel : 1 ≤ p.level) {xs : List String}
    (hNodup : xs.Nodup) (hFresh : ∀ x ∈ xs, ¬ p.Binds x) :
    Narrows p.level p (p.declare xs) Set.univ ∧ ∀ x ∈ xs, (p.declare xs).Binds x := by
  induction xs generalizing p with
  | nil => exact ⟨.refl hp _ p.closed_univ, by simp⟩
  | cons x xs ih =>
    obtain ⟨hx, hNodup⟩ := List.nodup_cons.1 hNodup
    have hGrows := add_grows hLevel (hFresh x (by simp)) .unbounded
    have hFirst := hGrows.narrows (hp.add ⟨hLevel, hFresh x (by simp), trivial, covers_unbounded p⟩)
      p.closed_univ fun _ _ => trivial
    -- the other names are still new when the first one is in play
    obtain ⟨hRest, hBinds⟩ := ih hFirst.wellFormed (by rw [hGrows.level]; exact hLevel) hNodup
      fun y hy => by
        have hne : y ≠ x := fun hyx => hx (hyx ▸ hy)
        rw [Binds, hGrows.find?, if_neg hne]
        exact hFresh y (by simp [hy])
    rw [hGrows.level] at hRest
    refine ⟨hFirst.trans_univ hRest, fun y hy => ?_⟩
    rcases List.mem_cons.1 hy with rfl | hy
    · exact hRest.binds ⟨_, by rw [hGrows.find?, if_pos rfl]⟩
    · exact hBinds y hy

theorem wildcards_narrows (hp : p.WellFormed) (hLevel : 1 ≤ p.level) (t : Polytype) :
    Narrows p.level p (p.declare (p.wildcards t)) Set.univ ∧ (p.declare (p.wildcards t)).Covers t := by
  -- the wildcards are the free names that are not in play
  have hMem {x : String} : x ∈ p.wildcards t ↔ x ∈ t.freeVars ∧ ¬ p.Binds x := by
    simp [wildcards, Binds, find?, NameMap.contains, Option.eq_none_iff_forall_ne_some]
  obtain ⟨hNarrows, hBinds⟩ := declare_narrows hp hLevel
    (t.freeVars.nodup_sorted.filter _) fun x hx => (hMem.1 hx).2
  refine ⟨hNarrows, fun x hx => ?_⟩
  by_cases hb : p.Binds x
  · exact hNarrows.binds hb
  · exact hBinds x (hMem.2 ⟨hx, hb⟩)

theorem monomorphized_opens (hp : p.WellFormed) (hLevel : 1 ≤ p.level) {kind : BoundKind}
    {m : Monotype} (ht : p.Covers t) (h : p.monomorphized t kind = (m, q)) :
    Opens p q Set.univ m t.Inst := by
  have hInst : t.normal.Inst = t.Inst := funext (Polytype.Inst_normal t)
  have hCovers : p.Covers t.normal := fun x hx => ht x (Polytype.freeVars_normal hx)
  -- the normal form has the same instances
  rw [← hInst]
  unfold monomorphized at h
  split at h
  · next m' hMono =>
    obtain ⟨rfl, rfl⟩ := Prod.mk.inj h
    rw [hMono] at hCovers ⊢
    refine ⟨.refl hp _ p.closed_univ, hCovers, fun _ _ _ => trivial, fun r hr => ⟨hr, rfl⟩,
      fun r hr g hg => ?_, .refl _ p⟩
    exact ⟨r, fun _ _ => rfl, hr, hg.symm⟩
  · obtain ⟨rfl, rfl⟩ := Prod.mk.inj h
    exact newType_opens hp hLevel p.closed_univ (b := ⟨kind, t.normal⟩)
      (Polytype.isNormal_normal t) hCovers fun _ _ => trivial

theorem settled_quiet (p : Prefix) (e : Expr Stamp) : p.Quiet (p.settled e) := by
  refine quiet_failAll p _ fun hAcyclic => List.flatMap_eq_nil_iff.2 fun s _ => ?_
  unfold settleFailures
  split_ifs
  · exact hAcyclic.resolution_failures _
  · rfl

theorem Quiet.find?_leave (h : p.Quiet q) (x : String) : q.leave.find? x = p.leave.find? x := by
  refine find?_congr ?_ x
  unfold leave
  rw [h.levels]
  cases p.levels with
  | nil => exact h.entries
  | cons top rest => simp only [h.entries]

theorem Narrows.quiet {k : Nat} {w : Prefix} (h : Narrows k p q Set.univ) (hQuiet : q.Quiet w) :
    Narrows k p w Set.univ :=
  h.trans_univ (hQuiet.narrows h.wellFormed k q.closed_univ)

/-- A type made up at a level of its own is over older variables when the level is left. -/
theorem Narrows.close {v w z : Prefix} (hp : p.WellFormed)
    (h : Narrows (p.level + 1) p.enter q Set.univ) {u : Polytype} (hCovers : q.Covers t)
    (hType : q.generalize t = (u, v)) (hQuiet : v.Quiet w) (hAfter : w.leave.Quiet z) :
    v = q ∧ (∀ k, Narrows k p z Set.univ) ∧ z.Covers u := by
  -- generalizing changes nothing in play, since the type is over it
  obtain rfl : q = v := by
    rw [generalize_eq h.wellFormed.scoping hCovers] at hType
    exact (Prod.mk.inj hType).2
  refine ⟨rfl, fun k => ((h.quiet hQuiet).leave hp.owned k).quiet hAfter, hAfter.covers fun x hx => ?_⟩
  have hu := covers_generalize h.wellFormed (h.one_le_level (one_le_level_enter p)) hCovers
  rw [hType] at hu
  rw [Binds, hQuiet.find?_leave]
  exact hu x hx

/-- What is made up at the current level comes on top of a narrowing. -/
theorem Narrows.opens {k : Nat} {s : Prefix} {m : Monotype} {inst : Valuation → Set Ground}
    (h : Narrows k p q Set.univ) (hk : q.level = k) (hOpens : Opens q s Set.univ m inst) :
    Narrows k p s Set.univ :=
  h.trans_univ (hk ▸ hOpens.narrows)

end Prefix

namespace Infer

open Prefix

/-! ## What a function takes and returns -/

/-- The parameter of a function is a new variable at a level of its own. -/
theorem param_opens (hp : p.WellFormed) (h : p.enter.newType .unbounded = (x, q)) :
    Opens p.enter q Set.univ (.var x) Polytype.bottom.Inst := by
  have hNew := newType_opens hp.enter (one_le_level_enter p) (closed_univ _) (b := .unbounded) trivial
    (covers_unbounded _) fun _ _ => trivial
  rwa [h] at hNew

/-- The type of a function, at the level of its parameter. -/
theorem result_opens {p₁ p₂ : Prefix} {m : Monotype}
    (hParam : Opens p.enter p₁ Set.univ (.var x) Polytype.bottom.Inst)
    (hBody : ∀ k, Narrows k p₁ p₂ Set.univ) (ht : p₂.Covers t)
    (hResult : p₂.monomorphized t .flexible = (m, q)) :
    Opens p₂ q Set.univ m t.Inst ∧ Narrows (p.level + 1) p.enter q Set.univ ∧
      q.Covers (.fn (.var x) m : Monotype) := by
  have hNarrows := hParam.narrows.trans_univ (hBody _)
  have hLevel : p₂.level = p.level + 1 := hNarrows.level
  have hOpens := monomorphized_opens hNarrows.wellFormed (by omega) ht hResult
  refine ⟨hOpens, hNarrows.opens hLevel hOpens, fun y hy => ?_⟩
  simp only [Polytype.freeVars, Monotype.freeVars, NameSet.mem_union] at hy
  rcases hy with hy | hy
  · exact hOpens.narrows.binds ((hBody 0).binds (hParam.covers y hy))
  · exact hOpens.covers y hy

/-! ## What is called, and with what -/

/-- Monotypes that stand for given functions and arguments and a variable for the result, made up at
the current level. -/
structure CallOpens (p q : Prefix) (functions args : Valuation → Set Ground) (f a : Monotype)
    (x : String) : Prop where
  narrows : Narrows p.level p q Set.univ
  function : q.Covers f
  applied : q.Covers (.fn a (.var x) : Monotype)
  sound : ∀ r, q.IsSolution r →
    p.IsSolution r ∧ f.eval r ∈ functions r ∧ a.eval r ∈ args r
  complete : ∀ r, p.IsSolution r → ∀ g ∈ functions r, ∀ h ∈ args r, ∀ i,
    ∃ r', (∀ y, p.Binds y → r' y = r y) ∧ q.IsSolution r' ∧ f.eval r' = g ∧ a.eval r' = h ∧ r' x = i
  determines : Determines p.level p q

/-- What a call puts in play: a monotype for the function, one for the argument, and a variable for
the result. -/
theorem callOpens {p₁ p₂ : Prefix} {callee arg : Polytype} {f : Monotype} (hp : p.WellFormed)
    (hLevel : 1 ≤ p.level) (hCallee : p.Covers callee) (hArg : p.Covers arg)
    (hFunction : p.monomorphized callee .flexible = (f, p₁))
    (hParam : p₁.monomorphized arg .flexible = (a, p₂)) (hResult : p₂.newType .unbounded = (x, q)) :
    CallOpens p q callee.Inst arg.Inst f a x := by
  have hFirst := monomorphized_opens hp hLevel hCallee hFunction
  have hLevel₁ : p₁.level = p.level := hFirst.narrows.level
  have hSecond := monomorphized_opens hFirst.narrows.wellFormed (by omega)
    (hFirst.narrows.covers hArg) hParam
  have hLevel₂ : p₂.level = p₁.level := hSecond.narrows.level
  have hThird := newType_opens hSecond.narrows.wellFormed (by omega) (closed_univ _)
    (b := .unbounded) trivial (covers_unbounded _) fun _ _ => trivial
  rw [hResult] at hThird
  have hNarrows₂ := hFirst.narrows.opens hLevel₁ hSecond
  have hNarrows := hNarrows₂.opens (hLevel₂.trans hLevel₁) hThird
  -- the parts of each fact come from the three steps, in their order
  refine ⟨hNarrows, hThird.narrows.covers (hSecond.narrows.covers hFirst.covers), fun y hy => ?_,
    fun r hr => ?_, fun r hr g hg h hh i => ?_, ?_⟩
  · simp only [Polytype.freeVars, Monotype.freeVars, NameSet.mem_union] at hy
    rcases hy with hy | hy
    · exact hThird.narrows.binds (hSecond.covers y hy)
    · exact hThird.covers y hy
  · obtain ⟨hr₂, -⟩ := hThird.sound r hr
    obtain ⟨hr₁, ha⟩ := hSecond.sound r hr₂
    obtain ⟨hr₀, hf⟩ := hFirst.sound r hr₁
    exact ⟨hr₀, hf, ha⟩
  · -- a solution is extended three times; what was chosen before stays, since only new variables
    -- change
    obtain ⟨r₁, hSame₁, hr₁, hf⟩ := hFirst.complete r hr g hg
    rw [← hArg.Inst_congr hSame₁] at hh
    obtain ⟨r₂, hSame₂, hr₂, ha⟩ := hSecond.complete r₁ hr₁ h hh
    obtain ⟨r₃, hSame₃, hr₃, hx⟩ := hThird.complete r₂ hr₂ i trivial
    have hOld (y : String) (hy : p₁.Binds y) : r₃ y = r₁ y :=
      (hSame₃ y (hSecond.narrows.binds hy)).trans (hSame₂ y hy)
    refine ⟨r₃, fun y hy => ?_, hr₃, ?_, ?_, hx⟩
    · exact (hOld y (hFirst.narrows.binds hy)).trans (hSame₁ y hy)
    · rw [hFirst.covers.eval_congr hOld, hf]
    · rw [hSecond.covers.eval_congr hSame₃, ha]
  · have hDetermines₂ := hSecond.determines
    have hDetermines₃ := hThird.determines
    rw [hLevel₁] at hDetermines₂
    rw [hLevel₂, hLevel₁] at hDetermines₃
    refine (hFirst.determines.trans hDetermines₂ fun r hr => ?_).trans hDetermines₃ fun r hr => ?_
    · exact (hSecond.sound r hr).1
    · exact (hThird.sound r hr).1

theorem CallOpens.covers_result {functions args : Valuation → Set Ground} {f : Monotype}
    (h : CallOpens p q functions args f a x) : q.Covers (.var x : Monotype) := by
  intro y hy
  refine h.applied y ?_
  simp only [Polytype.freeVars, Monotype.freeVars, NameSet.mem_union] at hy ⊢
  exact Or.inr hy

/-- A function and its argument, one after the other at a level of their own. -/
theorem applied_opens {p₁ p₂ p₃ p₄ : Prefix} {callee arg : Polytype} {f : Monotype}
    (hCallee : ∀ k, Narrows k p.enter p₁ Set.univ) (hCalleeCovers : p₁.Covers callee)
    (hArg : ∀ k, Narrows k p₁ p₂ Set.univ) (hArgCovers : p₂.Covers arg)
    (hFunction : p₂.monomorphized callee .flexible = (f, p₃))
    (hParam : p₃.monomorphized arg .flexible = (a, p₄)) (hResult : p₄.newType .unbounded = (x, q)) :
    CallOpens p₂ q callee.Inst arg.Inst f a x ∧ Narrows (p.level + 1) p.enter q Set.univ := by
  have hBoth := (hCallee (p.level + 1)).trans_univ (hArg _)
  have hLevel : p₂.level = p.level + 1 := hBoth.level
  have hOpens := callOpens hBoth.wellFormed (by omega) ((hArg 0).covers hCalleeCovers) hArgCovers
    hFunction hParam hResult
  exact ⟨hOpens, hBoth.trans_univ (hLevel ▸ hOpens.narrows)⟩

/-! ## What is annotated -/

/-- Monotypes for the type of a value and for its declared type, at a level of their own. -/
theorem annotated_narrows {p₁ p₂ : Prefix} {declared : Polytype} {e : Monotype}
    (h : Narrows (p.level + 1) p.enter p₁ Set.univ) (ht : p₁.Covers t)
    (hDeclared : p₁.Covers declared) (hActual : p₁.monomorphized t .flexible = (a, p₂))
    (hExpected : p₂.monomorphized declared .rigid = (e, q)) :
    Narrows (p.level + 1) p.enter q Set.univ ∧ q.Covers a ∧ q.Covers e ∧ q.Covers declared := by
  have hLevel : p₁.level = p.level + 1 := h.level
  have hFirst := monomorphized_opens h.wellFormed (by omega) ht hActual
  have hLevel' : p₂.level = p.level + 1 := hFirst.narrows.level.trans hLevel
  have hSecond := monomorphized_opens hFirst.narrows.wellFormed (by omega)
    (hFirst.narrows.covers hDeclared) hExpected
  exact ⟨(h.opens hLevel hFirst).opens hLevel' hSecond, hSecond.narrows.covers hFirst.covers,
    hSecond.covers, hSecond.narrows.covers (hFirst.narrows.covers hDeclared)⟩

end Infer

/-- The types of a scope are over the variables in play. -/
def Scope.Over (scope : Scope) (p : Prefix) : Prop :=
  ∀ x t, scope.find? x = some t → p.Covers t

theorem Scope.Over.mono {k : Nat} (h : scope.Over p) (hNarrows : Prefix.Narrows k p q Set.univ) :
    scope.Over q :=
  fun x t hx => hNarrows.covers (h x t hx)

theorem Scope.Over.enter (h : scope.Over p) : scope.Over p.enter :=
  fun x t hx y hy => by
    rw [Prefix.Binds, Prefix.find?_enter]
    exact h x t hx y hy

theorem Scope.Over.insert (h : scope.Over p) (x : String) (ht : p.Covers t) :
    Scope.Over (NameMap.insert scope x t) p := by
  intro y u hy
  rw [NameMap.find?_insert] at hy
  split_ifs at hy with hyx
  · exact Option.some.inj hy ▸ ht
  · exact h y u hy

/-! ## Faults that are reported -/

/-- The fault that a report is about, if it is about one. -/
def Diagnostic.fault? : Diagnostic → Option Fault
  | .internal f => some f
  | _ => none

theorem Diagnostic.Plain.fault? {d : Diagnostic} (h : d.Plain) : d.fault? = none := by
  cases d with
  | internal f => exact absurd rfl (h f)
  | unbound x => rfl
  | incompatible a e => rfl
  | infinite x t => rfl
  | host c s => rfl

/-- Reports come in, and those about faults are about the given ones. -/
def Sink.Gains (before after : Sink) (faults : List Fault) : Prop :=
  ∃ ds : List Diagnostic, after = ds.foldl .report before ∧
    ds.filterMap Diagnostic.fault? = faults

theorem Sink.Gains.refl (sink : Sink) : sink.Gains sink [] := ⟨[], rfl, rfl⟩

theorem Sink.Gains.trans {a b c : Sink} {fs gs : List Fault} (h : a.Gains b fs) (h' : b.Gains c gs) :
    a.Gains c (fs ++ gs) := by
  obtain ⟨ds, rfl, rfl⟩ := h
  obtain ⟨es, rfl, rfl⟩ := h'
  exact ⟨ds ++ es, List.foldl_append.symm, List.filterMap_append⟩

theorem Sink.Gains.report (sink : Sink) (d : Diagnostic) :
    sink.Gains (sink.report d) d.fault?.toList := by
  refine ⟨[d], rfl, ?_⟩
  cases hd : d.fault? with
  | none => simp [hd]
  | some f => simp [hd]

namespace Unify

open Prefix

theorem within_keeps {fuel : Nat} {e : Monotype} {call : Bool} {s s' : Session}
    {verdict : Verdict} (h : within fuel a e call s = .ok (verdict, s')) (hp : s.vars.WellFormed)
    (ha : s.vars.Covers a) (he : s.vars.Covers e) (k : Nat) :
    Narrows k s.vars s'.vars Set.univ ∧ s.sink.Gains s'.sink [] := by
  obtain ⟨hNarrows, ds, hPlain, -, hSink⟩ := within_narrows h hp ha he k
  exact ⟨hNarrows, ds, hSink, List.filterMap_eq_nil_iff.2 fun d hd => (hPlain d hd).fault?⟩

end Unify

namespace Infer

open Prefix

/-! ## Runs -/

/-- What a run on a part of a program keeps: the state is narrowed, the type that comes out is over
the variables in play, and the faults reported are those of the part. -/
structure Keeps (e : Program) (s : Session) (t : Polytype) (s' : Session) : Prop where
  narrows : ∀ k, Narrows k s.vars s'.vars Set.univ
  covers : s'.vars.Covers t
  reports : s.sink.Gains s'.sink e.faults

/-- A run on a part of a program keeps the state consistent, if it starts from a consistent one, at
a level and in a scope over the variables in play. -/
theorem Run.keeps {fuel : Nat} {s s' : Session} {out : Expr Stamp × Polytype}
    (h : Run fuel scope e s out s') (hp : s.vars.WellFormed) (hLevel : 1 ≤ s.vars.level)
    (hScope : scope.Over s.vars) : Keeps e s out.2 s' := by
  -- nothing happens to the variables in play, and the type is closed
  have idle {e : Program} {s : Session} {t : Polytype} {sink : Sink} (hp : s.vars.WellFormed)
      (ht : t.freeVars = ∅) (hReports : s.sink.Gains sink e.faults) : Keeps e s t ⟨s.vars, sink⟩ :=
    ⟨fun k => .refl hp k (closed_univ _), by simp [Covers, ht], hReports⟩
  induction h with
  | missing scope s => exact idle hp rfl (.report _ (.internal .emptyExpression))
  | unknown scope s => exact idle hp rfl (.report _ (.internal .unknownExpression))
  | var s hx => exact ⟨fun k => .refl hp k (closed_univ _), hScope _ _ hx, .refl _⟩
  | unbound s hx => exact idle hp rfl (.report _ (.unbound _))
  | const scope info v s => exact idle hp rfl (.refl _)
  | @func _ _ x _ _ _ _ tree _ _ _ _ _ _ hParam _ hResult hType ih =>
    have hNew := param_opens hp hParam
    -- the body is typed under the new variable, and the level is left with a type over older ones
    have hBody := ih hNew.narrows.wellFormed (hNew.narrows.one_le_level (one_le_level_enter _))
      ((hScope.enter.mono hNew.narrows).insert x hNew.covers)
    obtain ⟨-, hNarrows, hCovers⟩ := result_opens hNew hBody.narrows hBody.covers hResult
    obtain ⟨-, hAll, hu⟩ := hNarrows.close hp hCovers hType (settled_quiet _ tree) (quiet_note _ _)
    exact ⟨hAll, hu, hBody.reports⟩
  -- the function, the argument, the monotypes for them, unification, and the end of the level
  | @call _ _ _ _ s s₁ _ _ calleeTree argTree _ _ _ _ _ _ _ _ _ q _ _ _ hFunction hParam hResult
      hUnify hType ihCallee ihArg =>
    have hCallee := ihCallee hp.enter (one_le_level_enter _) hScope.enter
    have hArg := ihArg (hCallee.narrows 0).wellFormed
      ((hCallee.narrows 0).one_le_level (one_le_level_enter _))
      (hScope.enter.mono (hCallee.narrows 0))
    obtain ⟨hOpens, hNarrows⟩ := applied_opens hCallee.narrows hCallee.covers hArg.narrows hArg.covers
      hFunction hParam hResult
    obtain ⟨hUnified, hReports⟩ := Unify.within_keeps hUnify hOpens.narrows.wellFormed hOpens.function
      hOpens.applied (s.vars.level + 1)
    obtain ⟨-, hAll, hu⟩ := (hNarrows.trans_univ hUnified).close hp
      (hUnified.covers hOpens.covers_result) hType
      ((settled_quiet q calleeTree).trans (settled_quiet _ argTree)) (quiet_note _ _)
    have hReported := (hCallee.reports.trans hArg.reports).trans hReports
    rw [List.append_nil] at hReported
    exact ⟨hAll, hu, hReported⟩
  | letIn _ _ ihValue ihBody =>
    have hValue := ihValue hp hLevel hScope
    have hBody := ihBody (hValue.narrows 0).wellFormed
      ((hValue.narrows 0).one_le_level hLevel)
      ((hScope.mono (hValue.narrows 0)).insert _ hValue.covers)
    exact ⟨fun k => (hValue.narrows k).trans_univ (hBody.narrows k), hBody.covers,
      hValue.reports.trans hBody.reports⟩
  | @annot _ _ _ declared _ _ s _ _ tree _ _ _ _ _ _ _ hActual hExpected hUnify hType ih =>
    -- the names of the annotation that are not in play belong to the level
    obtain ⟨hNames, hDeclared⟩ := wildcards_narrows hp.enter (one_le_level_enter _) declared
    have hValue := ih hNames.wellFormed (hNames.one_le_level (one_le_level_enter _))
      (hScope.enter.mono hNames)
    obtain ⟨hNarrows, ha, he, hCovers⟩ := annotated_narrows (hNames.trans_univ (hValue.narrows _))
      hValue.covers ((hValue.narrows 0).covers hDeclared) hActual hExpected
    obtain ⟨hUnified, hReports⟩ := Unify.within_keeps hUnify hNarrows.wellFormed ha he
      (s.vars.level + 1)
    obtain ⟨-, hAll, hu⟩ := (hNarrows.trans_univ hUnified).close hp (hUnified.covers hCovers) hType
      (settled_quiet _ tree) (.refl _)
    have hReported := hValue.reports.trans hReports
    rw [List.append_nil] at hReported
    exact ⟨hAll, fun y hy => hu y (Polytype.freeVars_normal hy), hReported⟩
  | errorAlone scope info d s => exact idle hp rfl (.refl _)
  | @error _ _ _ _ _ _ tree _ hInner _ ih =>
    have hKept := ih hp.enter (one_le_level_enter _) hScope.enter
    refine ⟨fun k => ((hKept.narrows _).quiet (settled_quiet _ tree)).leave hp.owned k, ?_, ?_⟩
    · simp [Covers, Polytype.freeVars]
    · rw [Expr.faults_error hInner]
      exact hKept.reports

/-! ## Whole programs -/

/-- The level that owns the free type variables of a scope. -/
theorem scope_over (scope : Scope) :
    Narrows 1 Prefix.empty.enter (Prefix.empty.enter.declare scope.freeVars.sorted) Set.univ ∧
      scope.Over (Prefix.empty.enter.declare scope.freeVars.sorted) := by
  obtain ⟨hNarrows, hBinds⟩ := declare_narrows wellFormed_empty.enter (one_le_level_enter _)
    scope.freeVars.nodup_sorted fun x _ => not_binds_empty x
  refine ⟨hNarrows, fun x t hx y hy => hBinds y ?_⟩
  rw [NameSet.mem_sorted]
  exact NameSet.mem_foldr_union.2 ⟨t, NameMap.mem_values_of_find? hx, hy⟩

theorem size_eq_zero (h : ∀ x, ¬ p.Binds x) : p.size = 0 := by
  have hKeys : p.entries.keys = [] :=
    List.eq_nil_iff_forall_not_mem.2 fun x hx => h x (mem_keys_iff.1 hx)
  rw [size, NameMap.size, ← List.length_map (f := Prod.fst)]
  exact congrArg List.length hKeys

/-- A whole run ends as clean as it began. -/
theorem Run.clean {fuel : Nat} {sink : Sink} {s' : Session} {out : Expr Stamp × Polytype}
    (h : Run fuel scope e ⟨Prefix.empty.enter.declare scope.freeVars.sorted, sink⟩ out s') :
    (s'.vars.settled out.1).leave.level = 0 ∧ (s'.vars.settled out.1).leave.size = 0 ∧
      (s'.vars.settled out.1).leave.failures = [] ∧ sink.Gains s'.sink e.faults := by
  obtain ⟨hDeclared, hScope⟩ := scope_over scope
  have hKept := h.keeps hDeclared.wellFormed (hDeclared.one_le_level (one_le_level_enter _)) hScope
  have hClean : Narrows 0 .empty (s'.vars.settled out.1).leave Set.univ :=
    ((hDeclared.trans_univ (hKept.narrows 1)).quiet (settled_quiet _ out.1)).leave
      wellFormed_empty.owned 0
  have hLevel : (s'.vars.settled out.1).leave.level = 0 := hClean.level
  refine ⟨hLevel, size_eq_zero fun x hx => ?_, hClean.failures, hKept.reports⟩
  -- a variable that is left would belong to a level from one to zero
  obtain ⟨e', he'⟩ := hx
  have hPos := hClean.wellFormed.owned.level_pos he'
  have hLe := hClean.wellFormed.owned.level_le he'
  omega

theorem treeIn_of_ne {m : Type → Type} [Monad m] [Stage m] {σ : Type} (marks : Marking m σ)
    (config : Config) (scope : Scope) (he : e ≠ .missing) :
    treeIn marks config scope e = atLevel (do
      perform (changeVars (·.declare scope.freeVars.sorted))
      let (e, _) ← exprIn marks config scope e
      marks.settle e) := by
  rw [treeIn]
  · rfl
  · exact he

theorem treeIn_eq (config : Config) (scope : Scope) (he : e ≠ .missing) :
    treeIn stamps config scope e = atLevel (do
      changeVars (·.declare scope.freeVars.sorted)
      let (e, _) ← expr config scope e
      settle e) :=
  treeIn_of_ne stamps config scope he

theorem root_missing (config : Config) (scope : Scope) :
    root config scope .missing = (do
      fault config .emptyExpression
      return .missing) := by
  rw [root, treeIn]
  simp only [perform_solve, bind_assoc, pure_bind, Expr.map]

theorem root_eq_conclude (config : Config) (scope : Scope) (he : e ≠ .missing) :
    root config scope e = (do
      let tree := (← treeIn stamps config scope e).map (·.type)
      conclude config tree) := by
  cases e with
  | missing => exact absurd rfl he
  | _ => rfl

/-- A run on a program that ends clean: nothing is found after it, and what it returns are the types
of the nodes. -/
theorem root_of_ok {config : Config} (he : e ≠ .missing) {sink : Sink} {tree : Expr Stamp}
    {s' : Session}
    (h : expr config scope e ⟨Prefix.empty.enter.declare scope.freeVars.sorted, sink⟩ =
      .ok ((tree, t), s')) (hLevel : (s'.vars.settled tree).leave.level = 0)
    (hSize : (s'.vars.settled tree).leave.size = 0)
    (hFailures : (s'.vars.settled tree).leave.failures = []) :
    root config scope e ⟨.empty, sink⟩ = .ok ((tree.map s'.vars.settle).map (·.type),
      ⟨(s'.vars.settled tree).leave.note (.inferred
        (((tree.map s'.vars.settle).map (·.type)).info?.getD .bottom) s'.sink.toList), s'.sink⟩) := by
  rw [root_eq_conclude config scope he, treeIn_eq config scope he]
  refine (atLevel_bind (tree.map s'.vars.settle) ⟨s'.vars.settled tree, s'.sink⟩ ?_).trans ?_
  · -- up to the end of the level
    rw [bind_of_ok (changeVars_apply _ _)]
    exact (bind_of_ok h).trans (settle_apply _ _)
  · -- after it: no misuse, no variable and no level is left
    unfold conclude
    rw [bind_of_ok (get_apply _)]
    dsimp only
    rw [hFailures]
    simp only [List.forIn_nil, pure_bind]
    rw [bind_of_ok (get_apply _)]
    dsimp only
    rw [hSize, hLevel]
    rfl

theorem root_of_error {config : Config} (he : e ≠ .missing) {sink : Sink} {halt : Halt}
    (h : expr config scope e ⟨Prefix.empty.enter.declare scope.freeVars.sorted, sink⟩ =
      .error halt) : root config scope e ⟨.empty, sink⟩ = .error halt := by
  rw [root_eq_conclude config scope he, treeIn_eq config scope he]
  refine bind_of_error (atLevel_of_error ?_)
  rw [bind_of_ok (changeVars_apply _ _)]
  exact bind_of_error h

/-- For a program without faults it makes no difference whether faults stop a run, since none comes
up. -/
theorem root_fatal {program : Program} (h : program.faults = []) (fuel : Nat) (scope : Scope)
    (sink : Sink) :
    root ⟨true, fuel⟩ scope program ⟨.empty, sink⟩ = root ⟨false, fuel⟩ scope program ⟨.empty, sink⟩ ∧
      ∀ f, root ⟨false, fuel⟩ scope program ⟨.empty, sink⟩ ≠ .error (.fatal f) := by
  -- a program that is missing would be a fault
  have hRoot : program ≠ .missing := by
    rintro rfl
    cases h
  have hSame := expr_fatal h fuel scope
  cases hExpr : expr ⟨false, fuel⟩ scope program
      ⟨Prefix.empty.enter.declare scope.freeVars.sorted, sink⟩ with
  | error halt =>
    rw [root_of_error hRoot hExpr, root_of_error hRoot (hSame ▸ hExpr)]
    refine ⟨rfl, fun f hEq => ?_⟩
    cases hEq
    exact expr_neverFatal fuel scope program _ f hExpr
  | ok out =>
    -- nothing is found at the end, so there is nothing to report
    obtain ⟨hLevel, hSize, hFailures, -⟩ := (run_of_expr_ok hExpr).clean
    rw [root_of_ok hRoot hExpr hLevel hSize hFailures,
      root_of_ok hRoot (hSame ▸ hExpr) hLevel hSize hFailures]
    exact ⟨rfl, nofun⟩

/-- What inference does with a program at hand is a run on it. -/
theorem infer_eq_ok_iff {fuel : Nat} {sink : Sink} (he : e ≠ .missing) {tree : Expr Polytype}
    {after : Sink} :
    (∃ events, infer ⟨false, fuel⟩ sink scope e = .ok ⟨tree, after, events⟩) ↔
      ∃ out s', Run fuel scope e ⟨Prefix.empty.enter.declare scope.freeVars.sorted, sink⟩ out s' ∧
        tree = (out.1.map s'.vars.settle).map (·.type) ∧ after = s'.sink := by
  -- a run is followed by a clean end
  have ends {out : Expr Stamp × Polytype} {s' : Session}
      (h : Run fuel scope e ⟨Prefix.empty.enter.declare scope.freeVars.sorted, sink⟩ out s') :
      ∃ events, infer ⟨false, fuel⟩ sink scope e =
        .ok ⟨(out.1.map s'.vars.settle).map (·.type), s'.sink, events⟩ := by
    obtain ⟨hLevel, hSize, hFailures, -⟩ := h.clean
    have hRoot := root_of_ok he (expr_ok_of_run h) hLevel hSize hFailures
    exact ⟨_, by rw [infer, StateT.run, hRoot]; rfl⟩
  constructor
  · -- a result comes from a run that has ended, and it is the result of that run
    rintro ⟨events, h⟩
    cases hExpr : expr ⟨false, fuel⟩ scope e
        ⟨Prefix.empty.enter.declare scope.freeVars.sorted, sink⟩ with
    | error halt =>
      rw [infer, StateT.run, root_of_error he hExpr] at h
      cases h
    | ok out =>
      have hRun := run_of_expr_ok hExpr
      obtain ⟨events', h'⟩ := ends hRun
      rw [h] at h'
      cases h'
      exact ⟨out.1, out.2, hRun, rfl, rfl⟩
  · rintro ⟨out, s', hRun, rfl, rfl⟩
    exact ends hRun

theorem infer_fatal (he : e.faults = []) (config : Config) (sink : Sink) (scope : Scope) :
    infer config sink scope e = infer ⟨false, config.fuel⟩ sink scope e := by
  obtain ⟨fatal, fuel⟩ := config
  cases fatal with
  | false => rfl
  | true => simp only [infer, StateT.run, (root_fatal he fuel scope sink).1]

/-- Inference never finds its own state inconsistent: at the end no level and no variable is left
and no misuse is recorded, and the faults that were reported are the missing and unknown parts of
the program. Without such parts it makes no difference whether faults stop a run. -/
theorem infer_consistent (fuel : Nat) (scope : Scope) (program : Program) (sink : Sink) :
    (∀ tree s, root ⟨false, fuel⟩ scope program ⟨.empty, sink⟩ = .ok (tree, s) →
      s.vars.level = 0 ∧ s.vars.size = 0 ∧ s.vars.failures = [] ∧
        ∃ ds : List Diagnostic, s.sink = ds.foldl .report sink ∧
          ds.filterMap Diagnostic.fault? = program.faults) ∧
    (program.faults = [] →
      infer ⟨true, fuel⟩ sink scope program = infer ⟨false, fuel⟩ sink scope program ∧
        ∀ f, infer ⟨true, fuel⟩ sink scope program ≠ .error (.fatal f)) := by
  refine ⟨fun tree s h => ?_, fun hFaults => ?_⟩
  · by_cases hRoot : program = .missing
    · subst hRoot
      cases h
      exact ⟨rfl, rfl, rfl, [.internal .emptyExpression], rfl, rfl⟩
    · cases hExpr : expr ⟨false, fuel⟩ scope program
          ⟨Prefix.empty.enter.declare scope.freeVars.sorted, sink⟩ with
      | error halt =>
        rw [root_of_error hRoot hExpr] at h
        cases h
      | ok out =>
        -- the run of the whole leaves nothing behind, so what follows it reports nothing
        obtain ⟨hLevel, hSize, hFailures, hReports⟩ := (run_of_expr_ok hExpr).clean
        rw [root_of_ok hRoot hExpr hLevel hSize hFailures] at h
        cases h
        exact ⟨hLevel, hSize, hFailures, hReports⟩
  · -- without faults the choice makes no difference, and where faults are reported none stops a run
    have hSame := infer_fatal hFaults ⟨true, fuel⟩ sink scope
    refine ⟨hSame, fun f => ?_⟩
    rw [hSame, infer, StateT.run]
    cases hResult : root ⟨false, fuel⟩ scope program ⟨.empty, sink⟩ with
    | ok out => exact nofun
    | error halt =>
      intro hEq
      cases hEq
      exact (root_fatal hFaults fuel scope sink).2 f hResult

/-- A call with nothing gives one fault, and that a truth value is called gives another report. -/
theorem infer_consistent_broken_call : ∃ tree vars d d',
    root ⟨false, 4⟩ ⟨[("f", .mono (.fn (.var "a") (.var "a")))], by simp⟩
      (.call () (.const () (.boolean true)) (.call () (.var () "f") .missing)) ⟨.empty, .empty⟩ =
        .ok (tree, ⟨vars, .collect [d, d']⟩) ∧
    vars.level = 0 ∧ vars.size = 0 ∧ vars.failures = [] ∧
      ∃ ds : List Diagnostic, Sink.collect [d, d'] = ds.foldl .report .empty ∧
        ds.filterMap Diagnostic.fault? = [.emptyExpression] := by
  obtain ⟨tree, vars, d, d', hRun⟩ : ∃ tree vars d d',
      root ⟨false, 4⟩ ⟨[("f", .mono (.fn (.var "a") (.var "a")))], by simp⟩
        (.call () (.const () (.boolean true)) (.call () (.var () "f") .missing)) ⟨.empty, .empty⟩ =
          .ok (tree, ⟨vars, .collect [d, d']⟩) := ⟨_, _, _, _, by unfold root; cbv⟩
  exact ⟨tree, vars, d, d', hRun, (infer_consistent _ _ _ _).1 tree _ hRun⟩

end Infer

end Mlf
