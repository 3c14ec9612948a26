import Mathlib
import Mlf.Proofs.Equivalence
import Mlf.Proofs.RigidBounds
import Mlf.Proofs.Termination

/-!
# Types that agree

Unification makes two types agree: once solved variables are replaced, they are the same. The other
way round, it has nothing to do for types that agree already, and does nothing.

Both directions look at types through readings that see through solutions. Such a reading does not
tell a type from its top, so it goes along with the steps of a run; and solutions are only ever
added, so a reading for the variables that a run leaves behind is one for those at every point on
the way.

Main results:

* `resolvedMono_eq_iff` — types agree if they are read alike where solutions are seen through;
* `run_agreeing` — types agree after a run without reports;
* `within_of_resolved` — a run on types that agree changes nothing but the trace;
* `unify_agrees` — both for unification itself.
-/

namespace Mlf

open Prefix Relation

/-- The names themselves tell any two types apart. -/
theorem Monotype.nameless_var_injective {t u : Monotype}
    (h : t.nameless Nameless.Mono.var = u.nameless Nameless.Mono.var) : t = u :=
  eq_of_nameless_eq Function.injective_id h

namespace Prefix

variable {V : Type} {p q : Prefix} {ρ : Reading V} {x y : String} {t : Monotype}

/-! ## Readings that see through solutions -/

theorem Sees.of_fixes (h : q.Sees ρ) (hFixes : p.Fixes q) : p.Sees ρ :=
  fun x m hx => h x m (hFixes.solved x m hx)

/-- A variable that stands for a type is read as the type. -/
theorem Sees.of_updates {b : Bound} (h : q.Sees ρ) (hUpdates : p.Updates q x b) (hx : p.Binds x)
    (hb : b.type = .mono t) : ρ x = t.nameless ρ :=
  h x t (by rw [(hUpdates.has hx).solution?, hb]; rfl)

/-- Two variables that were made one are read alike. -/
theorem Sees.of_merge {b : Bound} (hx : p.Binds x) (hy : p.Binds y)
    (h : (p.merge x y b).2.Sees ρ) : ρ x = ρ y := by
  obtain ⟨stays, goes, hWhich, hEq⟩ := merge_eq hx hy b
  rw [hEq] at h
  -- one of them stands for the other
  have hLink (hStays : p.Binds stays) (hGoes : p.Binds goes) : ρ goes = ρ stays := by
    have hGoes' := ((update_updates hStays b).binds goes).2 hGoes
    exact h.of_updates (update_updates hGoes' _) hGoes' rfl
  rcases hWhich with ⟨rfl, rfl⟩ | ⟨rfl, rfl⟩
  · exact (hLink hx hy).symm
  · exact hLink hy hx

/-! ## Resolved monotypes -/

theorem Expands.nameless_resolvedMono {r : Reading V} (hp : p.Acyclic) (hρ : p.Expands r ρ)
    (t : Monotype) : (p.resolvedMono t).nameless r = t.nameless ρ := by
  have hMono := hρ.nameless_resolved hp.untangled (.mono t)
  exact Nameless.mono.inj hMono

/-- Types agree if they are read alike where only unsolved variables keep their names. -/
theorem resolvedMono_eq_iff {ρ : Reading String} (hp : p.Acyclic) (hρ : p.Expands .var ρ)
    {a e : Monotype} : p.resolvedMono a = p.resolvedMono e ↔ a.nameless ρ = e.nameless ρ := by
  rw [← hρ.nameless_resolvedMono hp a, ← hρ.nameless_resolvedMono hp e]
  exact ⟨fun h => by rw [h], Monotype.nameless_var_injective⟩

theorem Acyclic.resolvedMono_top (hp : p.Acyclic) (t : Monotype) :
    p.resolvedMono (p.top t) = p.resolvedMono t := by
  obtain ⟨ρ, hρ⟩ := hp.exists_expands .var
  exact (resolvedMono_eq_iff hp hρ).2 (Sees.nameless_top hρ.solved t)

theorem Acyclic.resolvedMono_var (hp : p.Acyclic) (h : p.solution? x = none) :
    p.resolvedMono (.var x) = .var x := by
  obtain ⟨ρ, hρ⟩ := hp.exists_expands .var
  apply Monotype.nameless_var_injective
  rw [hρ.nameless_resolvedMono hp]
  exact hρ.unsolved x h

theorem resolvedMono_const (c : BaseType) : p.resolvedMono (.const c) = .const c := rfl

theorem Acyclic.resolvedMono_fn (hp : p.Acyclic) (a b : Monotype) :
    p.resolvedMono (.fn a b) = .fn (p.resolvedMono a) (p.resolvedMono b) := by
  obtain ⟨ρ, hρ⟩ := hp.exists_expands .var
  apply Monotype.nameless_var_injective
  simp only [Monotype.nameless, hρ.nameless_resolvedMono hp]

/-- The resolved type has the shape of the top. -/
theorem Acyclic.resolvedMono_cases (hp : p.Acyclic) (t : Monotype) :
    (∃ x, p.top t = .var x ∧ p.resolvedMono t = .var x) ∨
    (∃ c, p.top t = .const c ∧ p.resolvedMono t = .const c) ∨
    ∃ a b, p.top t = .fn a b ∧ p.resolvedMono t = .fn (p.resolvedMono a) (p.resolvedMono b) := by
  rw [← hp.resolvedMono_top t]
  cases hTop : p.top t with
  | var x => exact Or.inl ⟨x, rfl, hp.resolvedMono_var (hp.solution?_top hTop)⟩
  | const c => exact Or.inr (Or.inl ⟨c, rfl, resolvedMono_const c⟩)
  | fn a b => exact Or.inr (Or.inr ⟨a, b, rfl, hp.resolvedMono_fn a b⟩)

theorem Acyclic.top_of_resolvedMono_var (hp : p.Acyclic) (h : p.resolvedMono t = .var x) :
    p.top t = .var x := by
  obtain ⟨y, hTop, hEq⟩ | ⟨c, -, hEq⟩ | ⟨a, b, -, hEq⟩ := hp.resolvedMono_cases t
  · rw [hTop, ← hEq, h]
  · cases hEq.symm.trans h
  · cases hEq.symm.trans h

theorem Acyclic.top_of_resolvedMono_const (hp : p.Acyclic) {c : BaseType}
    (h : p.resolvedMono t = .const c) : p.top t = .const c := by
  obtain ⟨y, -, hEq⟩ | ⟨d, hTop, hEq⟩ | ⟨a, b, -, hEq⟩ := hp.resolvedMono_cases t
  · cases hEq.symm.trans h
  · rw [hTop, ← hEq, h]
  · cases hEq.symm.trans h

theorem Acyclic.top_of_resolvedMono_fn (hp : p.Acyclic) {u v : Monotype}
    (h : p.resolvedMono t = .fn u v) :
    ∃ a b, p.top t = .fn a b ∧ p.resolvedMono a = u ∧ p.resolvedMono b = v := by
  obtain ⟨y, -, hEq⟩ | ⟨d, -, hEq⟩ | ⟨a, b, hTop, hEq⟩ := hp.resolvedMono_cases t
  · cases hEq.symm.trans h
  · cases hEq.symm.trans h
  · obtain ⟨ha, hb⟩ := Monotype.fn.inj (hEq.symm.trans h)
    exact ⟨a, b, hTop, ha, hb⟩

/-- Where solutions do not lead in a circle, no misuse is met on the way to the top. -/
theorem Acyclic.resolveTop_eq (hp : p.Acyclic) (t : Monotype) : p.resolveTop t = (p.top t, p) := by
  have hDone := hp.follow_done t
  unfold resolveTop top
  split
  · next hEq => rw [hEq]
  · next hEq =>
    rw [hEq] at hDone
    cases hDone

theorem quiet_trace (p : Prefix) (events : List Event) : p.Quiet { p with trace := events } :=
  ⟨rfl, rfl, fun _ => rfl⟩

theorem Quiet.resolvedMono (h : p.Quiet q) (t : Monotype) : q.resolvedMono t = p.resolvedMono t :=
  Polytype.mono.inj (h.resolved (.mono t))

end Prefix

namespace Unify

open Solve

/-! ## After a run without reports -/

/-- After runs without reports, the two types are read alike. -/
def Agreeing (R : Behavior) : Prop :=
  ∀ {p q : Prefix} {a e : Monotype}, R p a e (some (q, [])) → p.WellFormed → p.Covers a →
    p.Covers e → ∀ {V : Type} {ρ : Reading V}, q.Sees ρ → a.nameless ρ = e.nameless ρ

/-- Variables are tied where nothing was reported. -/
theorem TieRun.finish_of_nil {R : Behavior} (hSafe : Safe R) {T : Tie} {p q : Prefix}
    (h : TieRun R p T (some (q, []))) (hp : p.WellFormed) {Z : Set String} (hT : T.Fits p Z) :
    ∃ q' t, q = T.finish q' t ∧ ∀ x ∈ T.vars, p.Binds x → q'.Binds x := by
  cases h with
  | @tied q₁ q₂ t hBegins hPoly hQuiet =>
    refine ⟨q₂, t, rfl, fun x hx hBinds => ?_⟩
    obtain ⟨e, he⟩ := hBinds
    exact ⟨e, by rw [hQuiet.find?, hT.kept hSafe hp (hBegins.apart hp.acyclic) hPoly hx he]⟩

/-- A variable that was made one with another one is read like it. -/
theorem TieRun.merge_agrees {R : Behavior} (hSafe : Safe R) {p q : Prefix} {x y : String}
    {ex ey : Entry} (h : TieRun R p (.merge x y ex.bound ey.bound) (some (q, [])))
    (hp : p.WellFormed) (hne : x ≠ y) (hx : p.find? x = some ex) (hy : p.find? y = some ey)
    {V : Type} {ρ : Reading V} (hρ : q.Sees ρ) : ρ x = ρ y := by
  obtain ⟨q', t, rfl, hBinds⟩ := h.finish_of_nil hSafe hp
    (Tie.merge_fits hp hne hx hy (closed_univ _) trivial trivial)
  exact Sees.of_merge (hBinds x (by simp [Tie.merge]) ⟨ex, hx⟩)
    (hBinds y (by simp [Tie.merge]) ⟨ey, hy⟩) hρ

/-- A variable that was solved is read as its solution. -/
theorem TieRun.solve_agrees {R : Behavior} (hSafe : Safe R) {p q : Prefix} {x : String} {ex : Entry}
    {t : Monotype} {swapped : Bool} (h : TieRun R p (.solve x ex.bound t swapped) (some (q, [])))
    (hp : p.WellFormed) (hx : p.find? x = some ex) (ht : p.Covers t) {V : Type} {ρ : Reading V}
    (hρ : q.Sees ρ) : ρ x = t.nameless ρ := by
  obtain ⟨q', u, rfl, hBinds⟩ := h.finish_of_nil hSafe hp
    (Tie.solve_fits hp hx ht swapped (closed_univ _) trivial fun _ _ => trivial)
  have hxBinds := hBinds x (by simp [Tie.solve]) ⟨ex, hx⟩
  exact hρ.of_updates (update_updates hxBinds _) hxBinds rfl

/-- A step without reports leaves types that are read alike, if the runs on parts do. -/
theorem StepRun.agreeing {R : Behavior} (hSafe : Safe R) (hFixing : Fixing R) (hR : Agreeing R) :
    Agreeing (StepRun R) := by
  intro p q a e h hp ha he V ρ hρ
  -- the reading sees through the solutions before the step, so it is enough to look at the tops
  have hSees := hρ.of_fixes (StepRun.fixes hSafe hFixing h hp ha he)
  rw [← hSees.nameless_top a, ← hSees.nameless_top e]
  generalize hds : ([] : List Diagnostic) = ds at h
  cases h with
  | same hTop => rw [hTop]
  | unbound => cases hds
  | merge haTop heTop hne hQuiet hx hy hTie =>
    subst hds
    rw [haTop, heTop]
    exact hTie.merge_agrees hSafe (hQuiet.wellFormed hp).1 hne hx hy hρ
  | @solve _ _ _ _ swapped _ hTops _ hQuiet hx hTie =>
    subst hds
    have hp' := (hQuiet.wellFormed hp).1
    -- whichever side the variable is on
    cases swapped with
    | true =>
      obtain ⟨rfl, heTop⟩ := hTops
      rw [heTop]
      exact (hTie.solve_agrees hSafe hp' hx (hQuiet.covers (hp.scoping.covers_top ha)) hρ).symm
    | false =>
      obtain ⟨haTop, rfl⟩ := hTops
      rw [haTop]
      exact hTie.solve_agrees hSafe hp' hx (hQuiet.covers (hp.scoping.covers_top he)) hρ
  | clash => cases hds
  | fn haTop heTop hQuiet hPair hParam hBody =>
    obtain ⟨rfl, rfl⟩ := List.append_eq_nil_iff.1 hds.symm
    obtain ⟨hu, hv, ha₂, he₂⟩ := hQuiet.covers_parts hp ha he haTop heTop hPair
    have hp' := (hQuiet.wellFormed hp).1
    have hNarrows := hSafe.narrows hParam hp' hu hv 0
    have hp₁ := hNarrows.wellFormed
    -- what the parameters were tied to, they are still tied to after the bodies
    have hSees₁ := hρ.of_fixes (hFixing hBody hp₁ (hNarrows.covers ha₂) (hNarrows.covers he₂))
    have hParams := hR hParam hp' hu hv hSees₁
    have hBodies := hR hBody hp₁ (hNarrows.covers ha₂) (hNarrows.covers he₂) hρ
    rw [haTop, heTop, Monotype.nameless, Monotype.nameless, hBodies]
    rcases hPair with ⟨rfl, rfl⟩ | ⟨rfl, rfl⟩
    · rw [hParams]
    · rw [hParams]

theorem run_agreeing (fuel : Nat) : Agreeing (Run fuel) := by
  induction fuel with
  | zero => exact fun h => nomatch h
  | succ n ih => exact StepRun.agreeing (run_safe n) (run_fixes n) ih

variable {p : Prefix} {a e : Monotype} {call : Bool} {sink : Sink}

/-- Types are the same, once solved variables are replaced, after a run without reports. -/
theorem within_agrees (hp : p.WellFormed) (ha : p.Covers a) (he : p.Covers e) {fuel : Nat}
    {s : Session} (h : within fuel a e call ⟨p, sink⟩ = .ok (none, s)) :
    s.vars.resolvedMono a = s.vars.resolvedMono e := by
  obtain ⟨ds, hRun, hVerdict, -⟩ := run_of_within_ok h
  obtain rfl : ds = [] := List.head?_eq_none_iff.1 hVerdict.symm
  have hFinal := (Safe.narrows (run_safe fuel) hRun hp ha he 0).wellFormed.acyclic
  obtain ⟨ρ, hρ⟩ := hFinal.exists_expands .var
  exact (resolvedMono_eq_iff hFinal hρ).2 (run_agreeing fuel hRun hp ha he hρ.solved)

/-! ## Runs that have nothing to do -/

/-- A run on types that are the same, once solved variables are replaced, only leaves a trace. -/
theorem within_of_resolved (hp : p.Acyclic) (hEq : p.resolvedMono a = p.resolvedMono e) :
    ∃ n events, within n a e call ⟨p, sink⟩ = .ok (none, ⟨{ p with trace := events }, sink⟩) := by
  -- following types to their tops leaves a trace and nothing else
  have hTrace {p : Prefix} (hp : p.Acyclic) (a e : Monotype) :
      followed p a e = { p with trace := .unify (p.top a) (p.top e) :: p.trace } := by
    rw [followed, hp.resolveTop_eq, hp.resolveTop_eq]
    rfl
  -- the run goes down the resolved type, which is the same on both sides
  generalize ht : p.resolvedMono a = t at hEq
  induction t generalizing p a e call with
  | var x =>
    have hStep := step_of_var (s := ⟨p, sink⟩) (hp.top_of_resolvedMono_var ht)
      (hp.top_of_resolvedMono_var hEq.symm) (within 0) call
    rw [hTrace hp] at hStep
    exact ⟨1, _, hStep⟩
  | const c =>
    have hStep := step_of_const (s := ⟨p, sink⟩) (hp.top_of_resolvedMono_const ht)
      (hp.top_of_resolvedMono_const hEq.symm) (within 0) call
    rw [hTrace hp] at hStep
    exact ⟨1, _, hStep⟩
  | fn t₁ t₂ ih₁ ih₂ =>
    obtain ⟨a₁, a₂, haTop, ha₁, ha₂⟩ := hp.top_of_resolvedMono_fn ht
    obtain ⟨e₁, e₂, heTop, he₁, he₂⟩ := hp.top_of_resolvedMono_fn hEq.symm
    -- the parameters agree in either order, and the bodies are met with a longer trace
    have param {u v : Monotype} (hPair : (u = a₁ ∧ v = e₁) ∨ (u = e₁ ∧ v = a₁)) :
        ∃ n events, within n u v false ⟨followed p a e, sink⟩ =
          .ok (none, ⟨{ p with trace := events }, sink⟩) := by
      rw [hTrace hp]
      have hQuiet := quiet_trace p (.unify (p.top a) (p.top e) :: p.trace)
      apply ih₁ (hQuiet.acyclic.2 hp)
      · rw [hQuiet.resolvedMono]
        rcases hPair with ⟨rfl, rfl⟩ | ⟨rfl, rfl⟩ <;> assumption
      · rw [hQuiet.resolvedMono]
        rcases hPair with ⟨rfl, rfl⟩ | ⟨rfl, rfl⟩ <;> symm <;> assumption
    have body (events : List Event) : ∃ n events', within n a₂ e₂ false
        ⟨{ p with trace := events }, sink⟩ = .ok (none, ⟨{ p with trace := events' }, sink⟩) := by
      have hQuiet := quiet_trace p events
      apply ih₂ (hQuiet.acyclic.2 hp)
      · rw [hQuiet.resolvedMono, ha₂]
      · rw [hQuiet.resolvedMono, he₂]
    obtain hDone | ⟨u, v, hPair, hStep⟩ := step_parts haTop heTop call
    · have hStep := hDone (within 0) sink
      rw [hTrace hp] at hStep
      exact ⟨1, _, hStep⟩
    -- one fuel is enough for both parts
    obtain ⟨n, events, hParam⟩ := param hPair
    obtain ⟨m, events', hBody⟩ := body events
    refine ⟨max n m + 1, events', ?_⟩
    show step (within (max n m)) a e call ⟨p, sink⟩ = _
    rw [hStep, bind_of_ok (within_mono (Nat.le_max_left n m) hParam),
      bind_of_ok (within_mono (Nat.le_max_right n m) hBody)]
    rfl

/-- Unification and unification for a call are runs of one function. -/
theorem exists_call {run : Nat → Monotype → Monotype → Solve Verdict}
    (hRun : run = Mlf.unify ∨ run = Mlf.unifyCall) :
    ∃ call, run = fun n a e => within n a e call := by
  rcases hRun with rfl | rfl
  · exact ⟨false, rfl⟩
  · exact ⟨true, rfl⟩

/-- Unification leaves types that agree, once solved variables are replaced, if it reports nothing.
On types that agree already it reports nothing and leaves the variables, their levels and the supply
of names as they are; so does a call that is repeated after it has succeeded. -/
theorem unify_agrees {p : Prefix} (hp : p.WellFormed) {a e : Monotype} (ha : p.Covers a)
    (he : p.Covers e) (sink : Sink) {run : Nat → Monotype → Monotype → Solve Verdict}
    (hRun : run = Mlf.unify ∨ run = Mlf.unifyCall) :
    (∀ fuel s, run fuel a e ⟨p, sink⟩ = .ok (none, s) →
      s.vars.resolvedMono a = s.vars.resolvedMono e ∧
      ∃ n events, ∀ m, n ≤ m →
        run m a e s = .ok (none, ⟨{ s.vars with trace := events }, s.sink⟩)) ∧
    (p.resolvedMono a = p.resolvedMono e →
      ∃ n events, ∀ m, n ≤ m →
        run m a e ⟨p, sink⟩ = .ok (none, ⟨{ p with trace := events }, sink⟩)) := by
  obtain ⟨call, rfl⟩ := exists_call hRun
  -- what a run on types that agree does, before the call and after it
  have idle {q : Prefix} (sink : Sink) (hq : q.Acyclic)
      (hEq : q.resolvedMono a = q.resolvedMono e) : ∃ n events, ∀ m, n ≤ m →
        within m a e call ⟨q, sink⟩ = .ok (none, ⟨{ q with trace := events }, sink⟩) := by
    obtain ⟨n, events, hIdle⟩ := within_of_resolved hq hEq
    exact ⟨n, events, fun m hle => within_mono hle hIdle⟩
  refine ⟨fun fuel s hSuccess => ?_, idle sink hp.acyclic⟩
  have hAgree := within_agrees hp ha he hSuccess
  have hFinal := (within_narrows hSuccess hp ha he 0).1.wellFormed
  exact ⟨hAgree, idle s.sink hFinal.acyclic hAgree⟩

/-- A variable with a rigid bound and one that may be anything become one, and after that a call in
the other order has nothing to do. -/
theorem unify_agrees_rigid : ∃ p s,
    p = ((empty.enter.add "y" .unbounded).enter.add "x" ⟨.rigid, .all "b" .flexible .bottom
      (.mono (.fn (.var "b") (.var "b")))⟩) ∧
    Mlf.unify 4 (.var "x") (.var "y") ⟨p, .empty⟩ = .ok (none, s) ∧
    s.vars.resolvedMono (.var "x") = s.vars.resolvedMono (.var "y") ∧
    ∃ n events, ∀ m, n ≤ m → Mlf.unifyCall m (.var "y") (.var "x") s =
      .ok (none, ⟨{ s.vars with trace := events }, s.sink⟩) := by
  obtain ⟨p, s, hEq, hRun⟩ : ∃ p s,
      p = ((empty.enter.add "y" .unbounded).enter.add "x" ⟨.rigid, .all "b" .flexible .bottom
        (.mono (.fn (.var "b") (.var "b")))⟩) ∧
      Mlf.unify 4 (.var "x") (.var "y") ⟨p, .empty⟩ = .ok (none, s) := ⟨_, _, rfl, by cbv⟩
  have hp : p.WellFormed := by
    subst hEq
    exact (wellFormed_empty.enter.add (by decide)).enter.add (by decide)
  have hActual : p.Covers (Monotype.var "x") := by
    subst hEq
    decide
  have hExpected : p.Covers (Monotype.var "y") := by
    subst hEq
    decide
  have hAgree := ((unify_agrees hp hActual hExpected .empty (Or.inl rfl)).1 4 s hRun).1
  -- the call in the other order starts from what the first one left, which still covers both
  have hNarrows := (within_narrows hRun hp hActual hExpected 0).1
  exact ⟨p, s, hEq, hRun, hAgree, (unify_agrees hNarrows.wellFormed (hNarrows.covers hExpected)
    (hNarrows.covers hActual) s.sink (Or.inr rfl)).2 hAgree.symm⟩

end Unify

end Mlf
