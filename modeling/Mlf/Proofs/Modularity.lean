import Mathlib
import Mlf.Proofs.WholePrograms

/-!
# Local definitions, one after the other

To infer a local definition is to infer its value, and then its body in a scope that has the type of
the value. The two are one run, so the body starts with a counter that the value has moved. In a
scope of closed types that is all it inherits: no variable of the value is in play any more. The body
takes the same course as it does alone, with other names for the variables that are made up.

Names of that form must not be written in the annotations of the body, since there they would mean
whatever variable has the name by then.

Main results:

* `shift` — moves the names that inference makes up, and is faithful;
* `Run.mirrored` — what follows a whole program does the same as it does alone;
* `infer_letIn` — a local definition is checked part by part.
-/

namespace Mlf

/-! ## Moving the names that inference makes up -/

namespace Supply

/-- Moves the names that inference makes up by a distance, and leaves all others. -/
noncomputable def shift (c : Nat) : String → String :=
  Function.extend numbered (fun i => numbered (i + c)) id

theorem shift_numbered (c i : Nat) : shift c (numbered i) = numbered (i + c) :=
  numbered_injective.extend_apply _ _ i

theorem shift_of_ne {c : Nat} {x : String} (h : ∀ i, numbered i ≠ x) : shift c x = x :=
  Function.extend_apply' _ _ x (not_exists.2 h)

theorem shift_injective (c : Nat) : Function.Injective (shift c) := by
  intro x y h
  by_cases hx : ∃ i, numbered i = x <;> by_cases hy : ∃ j, numbered j = y
  · obtain ⟨i, rfl⟩ := hx
    obtain ⟨j, rfl⟩ := hy
    rw [shift_numbered, shift_numbered] at h
    have hij := numbered_injective h
    rw [show i = j by omega]
  · -- a name that is moved keeps its form
    obtain ⟨i, rfl⟩ := hx
    rw [shift_numbered, shift_of_ne (not_exists.1 hy)] at h
    exact absurd ⟨i + c, h⟩ hy
  · obtain ⟨j, rfl⟩ := hy
    rw [shift_numbered, shift_of_ne (not_exists.1 hx)] at h
    exact absurd ⟨j + c, h.symm⟩ hx
  · rwa [shift_of_ne (not_exists.1 hx), shift_of_ne (not_exists.1 hy)] at h

theorem shifts_shift (c : Nat) : Shifts (shift c) c := ⟨shift_injective c, shift_numbered c⟩

theorem faithful_shift (c : Nat) : Faithful (shift c) where
  generated x := by
    by_cases hx : ∃ i, numbered i = x
    · obtain ⟨i, rfl⟩ := hx
      rw [shift_numbered, isGenerated_numbered, isGenerated_numbered]
    · rw [shift_of_ne (not_exists.1 hx)]
  written _ hx := shift_of_ne (ne_numbered_of_written hx)

end Supply

namespace Infer

open Solve Prefix

/-! ## After a whole program -/

/-- After a run in a scope of closed types nothing is in play, but the counter has moved. -/
theorem Run.copies_start {fuel : Nat} {scope : Scope}
    (hScope : ∀ x t, scope.find? x = some t → t.Closed) {e : Program} {sink : Sink} {s' : Session}
    {o : Expr Stamp × Polytype} (h : Run fuel scope e ⟨Prefix.empty.enter, sink⟩ o s') :
    Prefix.Copies (Supply.shift s'.vars.counter) s'.vars.counter 1 0 Prefix.empty.enter s'.vars := by
  have hKept := h.keeps wellFormed_empty.enter (one_le_level_enter _)
    fun x t hx y hy => absurd hy (hScope x t hx y)
  exact copies_of_unbound wellFormed_empty.enter.owned (hKept.narrows 0).wellFormed.owned
    (one_le_level_enter _) (Nat.zero_add _).symm (hKept.narrows 0).level not_binds_empty
    (h.unbinds_of_closed hScope).1

/-- What follows a whole program does the same as it does alone, and ends alike. -/
theorem Run.mirrored {fuel : Nat} {scope scope' : Scope}
    (hScope : ∀ x t, scope.find? x = some t → t.Closed)
    (hScope' : ∀ x t, scope'.find? x = some t → t.Closed) {v b : Program} {sink : Sink} {s' : Session}
    {o : Expr Stamp × Polytype} (h : Run fuel scope v ⟨Prefix.empty.enter, sink⟩ o s')
    (hWritten : ∀ t ∈ b.declaredTypes, ∀ y ∈ t.freeVars, Supply.isGenerated y = false) :
    (∃ halt halt', expr ⟨false, fuel⟩ scope' b ⟨Prefix.empty.enter, .collect []⟩ = .error halt ∧
      expr ⟨false, fuel⟩ scope' b s' = .error halt' ∧
      halt.Alike (Session.Copies (Supply.shift s'.vars.counter) s'.vars.counter 1 0 (.collect [])
        s'.sink) halt') ∨
    ∃ a t a' t', expr ⟨false, fuel⟩ scope' b ⟨Prefix.empty.enter, .collect []⟩ = .ok (a, t) ∧
      expr ⟨false, fuel⟩ scope' b s' = .ok (a', t') ∧
      a.2.Copies (Supply.shift s'.vars.counter) a'.2 ∧
      Session.Copies (Supply.shift s'.vars.counter) s'.vars.counter 1 0 (.collect []) s'.sink t t' := by
  -- the body is a copy of itself, for the shift moves no name that was written
  have hBody : ExprCopies (Supply.shift s'.vars.counter) b b := exprCopies_of_fixed fun t ht y hy =>
    Supply.shift_of_ne (Supply.ne_numbered_of_written (hWritten t ht y hy))
  exact expr_mirrors (Supply.shifts_shift s'.vars.counter) ⟨false, fuel⟩
    (scopeCopies_of_closed hScope') hBody _ _ ⟨h.copies_start hScope, [], [], .nil, rfl, rfl⟩

/-- A local definition is checked part by part. In a scope of closed types, let neither part have
missing or unknown parts, and let no annotation of the body mention a name of the form that
inference makes up. Then inference of the definition ends exactly if inference of the value ends and
inference of the body ends in the scope that has the type of the value. Its type is that of the
body, up to the names of quantified variables, and the formatted reports are those about the value
followed by those about the body. -/
theorem infer_letIn {scope : Scope} (hScope : ∀ x t, scope.find? x = some t → t.Closed)
    {value body : Program} (hValue : value.faults = []) (hBody : body.faults = [])
    (hWritten : ∀ t ∈ body.declaredTypes, ∀ y ∈ t.freeVars, Supply.isGenerated y = false)
    (x : String) (config : Config) :
    (∀ out, infer config (.collect []) scope (.letIn () x value body) = .ok out →
      ∃ first t second, infer config (.collect []) scope value = .ok first ∧
        first.tree.info? = some t ∧
        infer config (.collect []) (scope.insert x t) body = .ok second) ∧
    ∀ first t second, infer config (.collect []) scope value = .ok first →
      first.tree.info? = some t →
      infer config (.collect []) (scope.insert x t) body = .ok second →
      ∃ out u w, infer config (.collect []) scope (.letIn () x value body) = .ok out ∧
        out.tree.info? = some u ∧ second.tree.info? = some w ∧ u.alphaEq [] w = true ∧
        out.sink.toList.map Diagnostic.format =
          first.sink.toList.map Diagnostic.format ++ second.sink.toList.map Diagnostic.format := by
  have hWhole : (Expr.letIn () x value body).faults = [] := by
    rw [Expr.faults, hValue, hBody, List.nil_append]
  constructor
  · intro out hOut
    -- the run of the definition has a run of the value and one of the body, which comes after it
    obtain ⟨o, s', hRun, -, -⟩ := run_of_infer hScope hWhole hOut
    cases hRun with
    | @letIn _ _ _ _ _ _ s₁ _ _ _ valueType _ hFirst hSecond =>
      obtain ⟨first, hOk, hType, -⟩ := infer_of_run hScope hValue hFirst
      have hTypes := closed_insert hScope (hFirst.unbinds_of_closed hScope).2 x
      rcases hFirst.mirrored hScope hTypes hWritten with
        ⟨-, halt', -, hStop, -⟩ | ⟨a, t, a', t', hAlone, -, -, -⟩
      · -- the body cannot stop alone if it ended after the value
        cases hStop.symm.trans (expr_ok_of_run hSecond)
      · obtain ⟨second, hOk', -, -⟩ := infer_of_run hTypes hBody (run_of_expr_ok hAlone)
        exact ⟨first, valueType, second, hOk, hType, hOk'⟩
  · intro first t second hFirst hType hSecond
    obtain ⟨⟨tree, valueType⟩, s₁, hRun₁, hType₁, hSink₁⟩ := run_of_infer hScope hValue hFirst
    cases hType.symm.trans hType₁
    -- the type of the value is closed, so the scope of the body is one of closed types
    have hTypes := closed_insert hScope (hRun₁.unbinds_of_closed hScope).2 x
    obtain ⟨o₂, s₂, hRun₂, hType₂, hSink₂⟩ := run_of_infer hTypes hBody hSecond
    rcases hRun₁.mirrored hScope hTypes hWritten with
      ⟨halt, -, hStop, -⟩ | ⟨a, t, ⟨tree', u⟩, t', hAlone, hAfter, hCopies, hEnd⟩
    · cases hStop.symm.trans (expr_ok_of_run hRun₂)
    · cases hAlone.symm.trans (expr_ok_of_run hRun₂)
      obtain ⟨out, hOut, hType', hSink'⟩ :=
        infer_of_run hScope hWhole (.letIn hRun₁ (run_of_expr_ok hAfter))
      refine ⟨out, u, o₂.2, hOut, hType', hType₂,
        alphaEq_of_copies hCopies (hRun₂.unbinds_of_closed hTypes).2, ?_⟩
      -- the reports of the body after the value are copies of those of the body alone, and they are
      -- printed alike
      obtain ⟨ds₁, hCollect₁, -⟩ := hRun₁.collects hScope hValue
      obtain ⟨ds₂, hCollect₂, hFaults⟩ := hRun₂.collects hTypes hBody
      rw [hCollect₁] at hEnd
      rw [hSink', hSink₁, hSink₂, hCollect₁]
      refine map_format_sink (Supply.faithful_shift _) hEnd ?_
      rw [hCollect₂]
      exact hFaults

/-- A value that is called with a text for a number, and a body whose annotation names a wildcard
and declares a text where there is a number: one report from each part. -/
theorem infer_letIn_twice : ∃ (scope : Scope) (value body : Program) (first second out : Inferred)
    (u w : Polytype),
    scope = NameMap.insert ∅ "f" (.mono (.fn (.const .number) (.const .number))) ∧
    value = .call () (.var () "f") (.const () (.string "s")) ∧
    body = .annot () (.func () "y" (.var () "x")) (.mono (.fn (.var "T") (.const .string))) ∧
    infer ⟨true, 8⟩ (.collect []) scope value = .ok first ∧
    infer ⟨true, 8⟩ (.collect []) (scope.insert "x" (.mono (.const .number))) body = .ok second ∧
    infer ⟨true, 8⟩ (.collect []) scope (.letIn () "x" value body) = .ok out ∧
    out.tree.info? = some u ∧ second.tree.info? = some w ∧ u.alphaEq [] w = true ∧
    first.sink.toList.length = 1 ∧ second.sink.toList.length = 1 ∧
    out.sink.toList.map Diagnostic.format =
      first.sink.toList.map Diagnostic.format ++ second.sink.toList.map Diagnostic.format := by
  let scope : Scope := NameMap.insert ∅ "f" (.mono (.fn (.const .number) (.const .number)))
  let value : Program := .call () (.var () "f") (.const () (.string "s"))
  let body : Program :=
    .annot () (.func () "y" (.var () "x")) (.mono (.fn (.var "T") (.const .string)))
  obtain ⟨tree, ds, events, hFirst, hType, hLength⟩ : ∃ tree ds events,
      infer ⟨true, 8⟩ (.collect []) scope value = .ok ⟨tree, .collect ds, events⟩ ∧
        tree.info? = some (.mono (.const .number)) ∧ ds.length = 1 :=
    ⟨_, _, _, by unfold infer Infer.root; cbv, by cbv, by cbv⟩
  obtain ⟨tree', ds', events', hSecond, hLength'⟩ : ∃ tree ds events,
      infer ⟨true, 8⟩ (.collect []) (scope.insert "x" (.mono (.const .number))) body =
        .ok ⟨tree, .collect ds, events⟩ ∧ ds.length = 1 :=
    ⟨_, _, _, by unfold infer Infer.root; cbv, by cbv⟩
  have hScope (x : String) (t : Polytype) (hx : scope.find? x = some t) : t.Closed := by
    have hEmpty (y : String) (u : Polytype) (hy : (∅ : Scope).find? y = some u) : u.Closed := by
      cases hy
    refine closed_insert hEmpty (fun y hy => ?_) "f" x t hx
    simp [Polytype.freeVars, Monotype.freeVars] at hy
  -- the wildcard is a name that somebody wrote
  have hWritten : ∀ t ∈ body.declaredTypes, ∀ y ∈ t.freeVars, Supply.isGenerated y = false := by
    intro t ht y hy
    obtain rfl : t = .mono (.fn (.var "T") (.const .string)) := List.mem_singleton.1 ht
    obtain rfl : y = "T" := by simpa [Polytype.freeVars, Monotype.freeVars] using hy
    decide +kernel
  obtain ⟨out, u, w, hOut, hu, hw, hAlpha, hReports⟩ :=
    (infer_letIn hScope (show value.faults = [] from rfl) (show body.faults = [] from rfl) hWritten
      "x" ⟨true, 8⟩).2 _ _ _ hFirst hType hSecond
  exact ⟨scope, value, body, _, _, out, u, w, rfl, rfl, rfl, hFirst, hSecond, hOut, hu, hw, hAlpha,
    hLength, hLength', hReports⟩

end Infer

end Mlf
