import Mathlib
import Mlf.Proofs.WholePrograms

/-!
# The names of wildcards

A free variable of a declared type that is not in play stands for any type. Its name only ties it to
the other places where it is written. To write another name in all of these places is to swap two
names throughout the run, so that nothing but names changes.

Names of the form that inference makes up are no such names: they may be in play by the time that the
annotation is met, and then they stand for the variable that has the name.

Main results:

* `copies_subst_insert` — the substitution of a new name for a wildcard is a swap of the two;
* `infer_renameWildcard` — reports and types do not depend on the names of wildcards;
* `infer_captured_wildcard` — but for those that name a variable which inference made.
-/

namespace Mlf

/-- Writes another name for a wildcard in the annotations of a program. -/
def Expr.renameWildcard {α : Type} (x y : String) (e : Expr α) : Expr α :=
  e.mapDeclared (·.subst (NameMap.insert ∅ x (.var y)))

/-- In a type that does not mention the new name, to substitute it is to swap the two. -/
theorem Polytype.copies_subst_insert {x y : String} {t : Polytype} (hy : y ∉ t.freeVars) :
    t.Copies (Equiv.swap x y) (t.subst (NameMap.insert ∅ x (.var y))) := by
  rw [Polytype.Copies, Polytype.shape, nameless_subst, Subst.nameless_insert]
  refine nameless_congr fun z hz => ?_
  have hzy : z ≠ y := by
    rintro rfl
    exact hy hz
  by_cases hzx : z = x
  · rw [hzx, Equiv.swap_apply_left, Function.update_self]
    rfl
  · rw [Equiv.swap_apply_of_ne_of_ne hzx hzy, Function.update_of_ne hzx]
    rfl

namespace Infer

open Prefix

theorem shifts_swap {x y : String} (hx : ∀ i, Supply.numbered i ≠ x)
    (hy : ∀ i, Supply.numbered i ≠ y) : Shifts (Equiv.swap x y) 0 :=
  ⟨(Equiv.swap x y).injective, fun i => Equiv.swap_apply_of_ne_of_ne (hx i) (hy i)⟩

theorem copies_empty_enter (f : String → String) :
    Prefix.Copies f 0 1 0 Prefix.empty.enter Prefix.empty.enter :=
  copies_of_unbound wellFormed_empty.enter.owned wellFormed_empty.enter.owned (one_le_level_enter _)
    rfl rfl not_binds_empty not_binds_empty

/-- The names of wildcards do not matter. In a scope of closed types, let a program without missing
and unknown parts be given another name for a wildcard, one that is free in none of its annotations.
Unless one of the two names has the form that inference makes up, inference of both programs is out
of fuel or inference of both ends. Either way it has reported the same kinds of errors in the same
order, and if it ends it finds the same type up to the names of quantified variables. -/
theorem infer_renameWildcard {scope : Scope} (hScope : ∀ x t, scope.find? x = some t → t.Closed)
    {e : Program} (he : e.faults = []) {x y : String} (hx : ∀ i, Supply.numbered i ≠ x)
    (hy : ∀ i, Supply.numbered i ≠ y) (hFresh : ∀ t ∈ e.declaredTypes, y ∉ t.freeVars)
    (config : Config) :
    (∃ sink sink', infer config (.collect []) scope e = .error (.outOfFuel sink) ∧
      infer config (.collect []) scope (e.renameWildcard x y) = .error (.outOfFuel sink') ∧
      sink'.toList.map Diagnostic.code = sink.toList.map Diagnostic.code) ∨
    ∃ out out' t t', infer config (.collect []) scope e = .ok out ∧
      infer config (.collect []) scope (e.renameWildcard x y) = .ok out' ∧
      out.tree.info? = some t ∧ out'.tree.info? = some t' ∧ t'.alphaEq [] t = true ∧
      out'.sink.toList.map Diagnostic.code = out.sink.toList.map Diagnostic.code := by
  have he' : (e.renameWildcard x y).faults = [] := by
    rw [Expr.renameWildcard, Expr.faults_mapDeclared, he]
  have hTypes : ScopeCopies (Equiv.swap x y) scope scope := scopeCopies_of_closed hScope
  have hExpr : ExprCopies (Equiv.swap x y) e (e.renameWildcard x y) :=
    exprCopies_mapDeclared fun t ht => Polytype.copies_subst_insert (hFresh t ht)
  have hStart : Session.Copies (Equiv.swap x y) 0 1 0 (.collect []) (.collect [])
      ⟨Prefix.empty.enter, .collect []⟩ ⟨Prefix.empty.enter, .collect []⟩ :=
    ⟨copies_empty_enter _, [], [], .nil, rfl, rfl⟩
  -- states that are alike have reports of the same kinds
  have hCodes {s s' : Session}
      (h : Session.Copies (Equiv.swap x y) 0 1 0 (.collect []) (.collect []) s s') :
      s'.sink.toList.map Diagnostic.code = s.sink.toList.map Diagnostic.code := by
    obtain ⟨ds, ds', hReports, hCollect, hCollect'⟩ := h.reports
    rw [hCollect, hCollect', foldl_report_collect, foldl_report_collect]
    exact map_code_of_copies hReports
  rcases expr_mirrors (shifts_swap hx hy) ⟨false, config.fuel⟩ hTypes hExpr _ _ hStart with
    ⟨halt, halt', hStop, hStop', hAlike⟩ | ⟨a, s, a', s', hRun, hRun', hCopies, hEnd⟩
  · cases hAlike with
    | outOfFuel hStuck =>
      exact Or.inl ⟨_, _, infer_of_error hScope he hStop, infer_of_error hScope he' hStop',
        hCodes hStuck⟩
    | fatal fault => exact absurd hStop (expr_neverFatal config.fuel scope e _ fault)
  · obtain ⟨out, hOk, hType, hSink⟩ := infer_of_run hScope he (run_of_expr_ok hRun)
    obtain ⟨out', hOk', hType', hSink'⟩ := infer_of_run hScope he' (run_of_expr_ok hRun')
    refine Or.inr ⟨out, out', a.2, a'.2, hOk, hOk', hType, hType',
      alphaEq_of_copies hCopies ((run_of_expr_ok hRun).unbinds_of_closed hScope).2, ?_⟩
    rw [hSink, hSink']
    exact hCodes hEnd

/-- A text is given to a function whose parameter is declared to take values of any type to values
of that type: one report, with either name for the type. -/
theorem infer_renameWildcard_once : ∃ (e e' : Program) (out out' : Inferred) (t t' : Polytype),
    e = .call () (.func () "z" (.annot () (.var () "z") (.mono (.fn (.var "T") (.var "T")))))
      (.const () (.string "s")) ∧
    e' = .call () (.func () "z" (.annot () (.var () "z") (.mono (.fn (.var "U") (.var "U")))))
      (.const () (.string "s")) ∧
    infer ⟨true, 8⟩ (.collect []) ∅ e = .ok out ∧ infer ⟨true, 8⟩ (.collect []) ∅ e' = .ok out' ∧
    out.tree.info? = some t ∧ out'.tree.info? = some t' ∧ t'.alphaEq [] t = true ∧
    out.sink.toList.length = 1 ∧
    out'.sink.toList.map Diagnostic.code = out.sink.toList.map Diagnostic.code := by
  let e : Program := .call ()
    (.func () "z" (.annot () (.var () "z") (.mono (.fn (.var "T") (.var "T")))))
    (.const () (.string "s"))
  obtain ⟨tree, ds, events, hOk, hLength⟩ : ∃ tree ds events,
      infer ⟨true, 8⟩ (.collect []) ∅ e = .ok ⟨tree, .collect ds, events⟩ ∧ ds.length = 1 :=
    ⟨_, _, _, by unfold infer Infer.root; cbv, by cbv⟩
  have hScope (x : String) (t : Polytype) (hx : (∅ : Scope).find? x = some t) : t.Closed := by
    cases hx
  have hWritten (x : String) (hx : Supply.isGenerated x = false) (i : Nat) : Supply.numbered i ≠ x :=
    Supply.ne_numbered_of_written hx i
  -- the new name is not in use yet
  have hFresh : ∀ t ∈ e.declaredTypes, "U" ∉ t.freeVars := by
    intro t ht hU
    obtain rfl : t = .mono (.fn (.var "T") (.var "T")) := List.mem_singleton.1 ht
    simp [Polytype.freeVars, Monotype.freeVars] at hU
  rcases infer_renameWildcard hScope (e := e) rfl (x := "T") (y := "U")
    (hWritten _ (by decide +kernel)) (hWritten _ (by decide +kernel)) hFresh ⟨true, 8⟩ with
    ⟨sink, -, hStop, -⟩ | ⟨out, out', t, t', hEnd, hOk', ht, ht', hAlpha, hCodes⟩
  · cases hOk.symm.trans hStop
  · cases hOk.symm.trans hEnd
    exact ⟨e, e.renameWildcard "T" "U", _, out', t, t', rfl, by cbv, hOk, hOk', ht, ht', hAlpha,
      hLength, hCodes⟩

/-- A wildcard with the name of a variable that inference made is taken for that variable. Under a
parameter of any type, a number is annotated with a wildcard: the function takes every type to
numbers. With the name of the variable of the parameter, it takes numbers only. -/
theorem infer_captured_wildcard : ∃ (e : Program) (out out' : Inferred) (t t' : Polytype),
    e = .func () "x" (.annot () (.const () (.number (.finite false 5 0))) (.mono (.var "T"))) ∧
    (∀ t ∈ e.declaredTypes, "$1" ∉ t.freeVars) ∧
    infer ⟨true, 8⟩ (.collect []) ∅ e = .ok out ∧
    infer ⟨true, 8⟩ (.collect []) ∅ (e.renameWildcard "T" "$1") = .ok out' ∧
    out.tree.info? = some t ∧ out'.tree.info? = some t' ∧
    t = .all "$1" .flexible .bottom (.mono (.fn (.var "$1") (.const .number))) ∧
    t' = .mono (.fn (.const .number) (.const .number)) ∧ t'.alphaEq [] t = false := by
  let e : Program :=
    .func () "x" (.annot () (.const () (.number (.finite false 5 0))) (.mono (.var "T")))
  have hFresh : ∀ t ∈ e.declaredTypes, "$1" ∉ t.freeVars := by
    intro t ht hMem
    obtain rfl : t = .mono (.var "T") := List.mem_singleton.1 ht
    simp [Polytype.freeVars, Monotype.freeVars] at hMem
  obtain ⟨out, hOk, ht⟩ : ∃ out, infer ⟨true, 8⟩ (.collect []) ∅ e = .ok out ∧ out.tree.info? =
      some (.all "$1" .flexible .bottom (.mono (.fn (.var "$1") (.const .number)))) :=
    ⟨_, by unfold infer Infer.root; cbv, by cbv⟩
  obtain ⟨out', hOk', ht'⟩ : ∃ out, infer ⟨true, 8⟩ (.collect []) ∅ (e.renameWildcard "T" "$1") =
      .ok out ∧ out.tree.info? = some (.mono (.fn (.const .number) (.const .number))) :=
    ⟨_, by unfold infer Infer.root; cbv, by cbv⟩
  exact ⟨e, out, out', _, _, rfl, hFresh, hOk, hOk', ht, ht', rfl, rfl, by cbv⟩

end Infer

end Mlf
