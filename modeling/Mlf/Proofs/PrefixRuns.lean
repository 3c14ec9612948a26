import Mathlib
import Mlf.Proofs.UnifyInvariant

/-!
# Runs on a prefix

Whatever is done with a prefix by the rules, from the empty one on, it stays well-formed and no
misuse comes up. The rules are few: a level is left only where there is one, the other operations
need a level, new variables have bounds in normal form over the variables in play, and types are
over the variables in play when they are generalized or unified. Unification may fail.

Main results:

* `Move` — one operation by the rules;
* `Move.wellFormed` — one operation keeps a prefix well-formed;
* `moves_wellFormed` — every run does, and unification loses no variable and raises no level.
-/

namespace Mlf

open Relation

theorem Polytype.exists_of_mem_freeVars_chain {bs : List Binding} {t : Polytype} {x : String}
    (hx : x ∈ (chain bs t).freeVars) :
    (x ∈ t.freeVars) ∨ ∃ before b after, bs = before ++ b :: after ∧
      x ∈ b.bound.type.freeVars ∧ ∀ c ∈ before, c.name ≠ x := by
  induction bs with
  | nil => exact Or.inl hx
  | cons b bs ih =>
    simp only [chain_cons, freeVars, NameSet.mem_union, NameSet.mem_erase] at hx
    rcases hx with hx | ⟨hxb, hx⟩
    · exact Or.inr ⟨[], b, bs, rfl, hx, by simp⟩
    · rcases ih hx with hx | ⟨before, c, after, hEq, hc, hBefore⟩
      · exact Or.inl hx
      · exact Or.inr ⟨b :: before, c, after, by simp [hEq], hc, by simpa [Ne.symm hxb] using hBefore⟩

namespace Prefix

/-- An operation on a prefix by the rules. -/
inductive Move : Prefix → Prefix → Prop
  | enter (p : Prefix) : Move p p.enter
  | leave {p : Prefix} (hLevel : 1 ≤ p.level) : Move p p.leave
  | add {p : Prefix} {x : String} {b : Bound} (hLevel : 1 ≤ p.level) (hFresh : ¬ p.Binds x)
    (hNormal : b.type.IsNormal) (hCovers : p.Covers b.type) : Move p (p.add x b)
  | newType {p : Prefix} {b : Bound} (hLevel : 1 ≤ p.level) (hNormal : b.type.IsNormal)
    (hCovers : p.Covers b.type) : Move p (p.newType b).2
  /-- A bound may also mention earlier bindings. -/
  | instantiate {p : Prefix} {bs : List Binding} (hLevel : 1 ≤ p.level)
    (hNormal : ∀ b ∈ bs, b.bound.type.IsNormal)
    (hCovers : ∀ before b after, bs = before ++ b :: after → ∀ x ∈ b.bound.type.freeVars,
      p.Binds x ∨ ∃ c ∈ before, c.name = x) (body : Monotype) : Move p (p.instantiate bs body).2
  | generalize {p : Prefix} {t : Polytype} (hLevel : 1 ≤ p.level) (hCovers : p.Covers t) :
    Move p (p.generalize t).2
  | resolve {p : Prefix} (hLevel : 1 ≤ p.level) (t : Polytype) : Move p (p.resolve t).2
  | resolveMono {p : Prefix} (hLevel : 1 ≤ p.level) (t : Monotype) : Move p (p.resolveMono t).2
  /-- The occurs check only looks. -/
  | occurs {p : Prefix} {x : String} {t : Polytype} {found : Bool} (hLevel : 1 ≤ p.level)
    (h : p.occurs x t = found) : Move p p
  | unify {p : Prefix} {fuel : Nat} {a e : Monotype} {sink : Sink} {verdict : Verdict}
    {s : Session} (hLevel : 1 ≤ p.level) (ha : p.Covers a) (he : p.Covers e)
    (h : Mlf.unify fuel a e ⟨p, sink⟩ = .ok (verdict, s)) : Move p s.vars
  | unifyCall {p : Prefix} {fuel : Nat} {a e : Monotype} {sink : Sink} {verdict : Verdict}
    {s : Session} (hLevel : 1 ≤ p.level) (ha : p.Covers a) (he : p.Covers e)
    (h : Mlf.unifyCall fuel a e ⟨p, sink⟩ = .ok (verdict, s)) : Move p s.vars

/-- One operation keeps a prefix well-formed and records no misuse. -/
theorem Move.wellFormed {p q : Prefix} (h : Move p q) (hp : p.WellFormed) :
    q.WellFormed ∧ q.failures = p.failures := by
  cases h with
  | enter => exact ⟨hp.enter, rfl⟩
  | leave hLevel => exact ⟨hp.leave hLevel, failures_leave hLevel⟩
  | add hLevel hFresh hNormal hCovers =>
    refine ⟨hp.add ⟨hLevel, hFresh, hNormal, hCovers⟩, ?_⟩
    rw [add_eq_place hLevel, failures_place]
  | @newType b hLevel hNormal hCovers =>
    exact ⟨hp.newType hLevel hNormal hCovers, (newType_grows hLevel b).failures⟩
  | @instantiate bs hLevel hNormal hCovers body =>
    -- the body has no bearing on the variables, so a constant may stand for it
    have hOpens := instantiateWith_opens hp hLevel (closed_univ _)
      (m := .const .boolean) (s := ∅) hNormal fun x hx y hy => by
        obtain rfl : y = x := by simpa [Monotype.freeVars] using hy
        refine ⟨?_, trivial⟩
        rcases Polytype.exists_of_mem_freeVars_chain hx with hx | ⟨before, b, after, hEq, hb, hNew⟩
        · simp [Polytype.freeVars, Monotype.freeVars] at hx
        · refine (hCovers before b after hEq y hb).resolve_right ?_
          rintro ⟨c, hc, hcy⟩
          exact hNew c hc hcy
    exact ⟨hOpens.narrows.wellFormed, hOpens.narrows.failures⟩
  | generalize _ hCovers =>
    -- nothing changes where the type is over variables in play
    rw [generalize_eq hp.scoping hCovers]
    exact ⟨hp, rfl⟩
  | resolve _ t => exact (quiet_resolve p t).wellFormed hp
  | resolveMono _ t => exact (quiet_resolve p (.mono t)).wellFormed hp
  | occurs => exact ⟨hp, rfl⟩
  | unify _ ha he hRun =>
    have hNarrows := (Unify.within_narrows hRun hp ha he 0).1
    exact ⟨hNarrows.wellFormed, hNarrows.failures⟩
  | unifyCall _ ha he hRun =>
    have hNarrows := (Unify.within_narrows hRun hp ha he 0).1
    exact ⟨hNarrows.wellFormed, hNarrows.failures⟩

/-- Every run on a prefix by the rules keeps it well-formed and free of misuses. Generalization
keeps it well-formed by the rules or not, and is by the rules exactly where it records no misuse.
Unification keeps the number of levels, loses no variable and moves none to a younger level, whether
it succeeds or fails. -/
theorem moves_wellFormed {p : Prefix} (h : ReflTransGen Move empty p) :
    p.WellFormed ∧ p.failures = [] ∧
    (∀ t, (p.generalize t).2.WellFormed ∧ ((p.generalize t).2.failures = [] ↔ p.Covers t)) ∧
    ∀ {fuel : Nat} {a e : Monotype} {sink : Sink} {verdict : Verdict} {s : Session},
      p.Covers a → p.Covers e →
      Mlf.unify fuel a e ⟨p, sink⟩ = .ok (verdict, s) ∨
        Mlf.unifyCall fuel a e ⟨p, sink⟩ = .ok (verdict, s) →
      s.vars.level = p.level ∧
        ∀ x old, p.find? x = some old → ∃ new, s.vars.find? x = some new ∧ new.level ≤ old.level := by
  -- one move after the other keeps both
  have hInvariant : p.WellFormed ∧ p.failures = [] := by
    induction h with
    | refl => exact ⟨wellFormed_empty, rfl⟩
    | tail _ hMove ih =>
      obtain ⟨hq, hFailures⟩ := hMove.wellFormed ih.1
      exact ⟨hq, hFailures.trans ih.2⟩
  obtain ⟨hp, hFailures⟩ := hInvariant
  refine ⟨hp, hFailures, fun t => ?_, fun {fuel a e sink verdict s} ha he hRun => ?_⟩
  · refine ⟨hp.congr (entries_failAll p _) (levels_failAll p _), ?_⟩
    rw [← generalize_failures_iff hp.scoping, hFailures]
  · -- unification only narrows what is in play, on both ways to call it
    have hNarrows : Narrows 0 p s.vars Set.univ := by
      rcases hRun with hRun | hRun
      · exact (Unify.within_narrows hRun hp ha he 0).1
      · exact (Unify.within_narrows hRun hp ha he 0).1
    refine ⟨hNarrows.level, fun x old hOld => ?_⟩
    obtain ⟨new, hNew, hLe, -⟩ := hNarrows.kept x old hOld
    exact ⟨new, hNew, hLe⟩

/-- A call that fails in the parameter and goes on with the body, at a level that is then left. -/
theorem moves_wellFormed_after_failure : ∃ p d s,
    p = (empty.enter.add "x" ⟨.flexible, .all "b" .flexible .bottom
      (.mono (.fn (.var "b") (.var "b")))⟩).enter.add "y" .unbounded ∧
    Mlf.unifyCall 4 (.fn (.var "x") (.var "y")) (.fn (.const .number) (.const .boolean))
      ⟨p, .empty⟩ = .ok (some d, s) ∧
    ReflTransGen Move empty s.vars.leave ∧ s.vars.leave.WellFormed ∧ s.vars.leave.failures = [] := by
  obtain ⟨p, d, s, hp, hRun⟩ : ∃ p d s,
      p = (empty.enter.add "x" ⟨.flexible, .all "b" .flexible .bottom
        (.mono (.fn (.var "b") (.var "b")))⟩).enter.add "y" .unbounded ∧
      Mlf.unifyCall 4 (.fn (.var "x") (.var "y")) (.fn (.const .number) (.const .boolean))
        ⟨p, .empty⟩ = .ok (some d, s) := ⟨_, _, _, rfl, by cbv⟩
  have hBefore : ReflTransGen Move empty p := by
    subst hp
    refine .tail (.tail (.tail (.single (.enter _)) (.add ?_ ?_ ?_ ?_)) (.enter _)) (.add ?_ ?_ ?_ ?_)
    all_goals decide
  have hLevel : p.level = 2 := by rw [hp]; rfl
  have hActual : p.Covers (Monotype.fn (.var "x") (.var "y")) := by
    subst hp
    decide
  have hExpected : p.Covers (Monotype.fn (.const .number) (.const .boolean)) := by
    subst hp
    decide
  -- the level is still there after the call, so it can be left
  have hKept := (moves_wellFormed hBefore).2.2.2 hActual hExpected (Or.inr hRun)
  have hAfter : ReflTransGen Move empty s.vars.leave :=
    .tail (.tail hBefore (.unifyCall (by omega) hActual hExpected hRun)) (.leave (by omega))
  obtain ⟨hWellFormed, hFailures, -⟩ := moves_wellFormed hAfter
  exact ⟨p, d, s, hp, hRun, hAfter, hWellFormed, hFailures⟩

end Prefix

end Mlf
