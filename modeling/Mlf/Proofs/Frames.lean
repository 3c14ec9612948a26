import Mathlib
import Mlf.Proofs.Agreement

/-!
# What unification leaves alone

Unification works on the variables that its two types lead to, and leaves all others with their
levels and bounds. A call that fails may have narrowed some of the former on the way. But it does
not touch a variable that one of the types resolves to: such a variable gets its new bound last of
all, and until then the occurs check keeps it out of reach of whatever else is done.

Main results:

* `TieRun.kept_of_failed` — variables that could not be tied;
* `within_kept_of_failed` — a variable that one of the types resolves to, after a failed run;
* `unify_frames` — both kinds of variables, for unification itself.
-/

namespace Mlf

open Prefix Relation

namespace Unify

/-- Variables that could not be tied are as they were. -/
theorem TieRun.kept_of_failed {R : Behavior} (hSafe : Safe R) {T : Tie} {p q : Prefix}
    {d : Diagnostic} {ds : List Diagnostic} (h : TieRun R p T (some (q, d :: ds)))
    (hp : p.WellFormed) {Z : Set String} (hT : T.Fits p Z) {x : String} (hx : x ∈ T.vars)
    {e : Entry} (he : p.find? x = some e) : q.find? x = some e := by
  -- the two types are apart from the variables before anything is done about their instances
  have hPoly {q : Prefix} {ds : List Diagnostic} {t : Polytype} (hBegins : T.Begins p)
      (h : PolyRun R p T.actual T.expected (some (q, ds, t))) : q.find? x = some e :=
    hT.kept hSafe hp (hBegins.apart hp.acyclic) h hx he
  cases h with
  | clash _ _ hQuiet => rw [hQuiet.find?, he]
  | cycle _ _ hQuiet => rw [hQuiet.find?, he]
  | failed hRun hBegins => exact hPoly hBegins hRun
  | rigid hRun _ _ hQuiet _ hBegins => rw [hQuiet.find?, hPoly hBegins hRun]
  | knot hRun _ _ hQuiet _ hBegins => rw [hQuiet.find?, hPoly hBegins hRun]

/-- A variable at the top of one of the types is as it was after a step that failed. -/
theorem StepRun.kept_of_failed {R : Behavior} (hSafe : Safe R) {p q : Prefix} {a e : Monotype}
    {d : Diagnostic} {ds : List Diagnostic} (h : StepRun R p a e (some (q, d :: ds)))
    (hp : p.WellFormed) (ha : p.Covers a) (he : p.Covers e) {x : String}
    (hTop : p.top a = .var x ∨ p.top e = .var x) : q.find? x = p.find? x := by
  generalize hds : d :: ds = reports at h
  cases h with
  | same => cases hds
  | unbound _ _ hQuiet => exact hQuiet.find? x
  | @merge p' y z ey ez _ haTop heTop hne hQuiet hy hz hTie =>
    subst hds
    have hp' := (hQuiet.wellFormed hp).1
    have hFits := Tie.merge_fits hp' hne hy hz (closed_univ _) trivial trivial
    rw [← hQuiet.find? x]
    rw [haTop, heTop, Monotype.var.injEq, Monotype.var.injEq] at hTop
    rcases hTop with rfl | rfl
    · rw [hy, hTie.kept_of_failed hSafe hp' hFits (by simp [Tie.merge]) hy]
    · rw [hz, hTie.kept_of_failed hSafe hp' hFits (by simp [Tie.merge]) hz]
  | @solve p' y t ey swapped _ hTops ht hQuiet hy hTie =>
    subst hds
    have hp' := (hQuiet.wellFormed hp).1
    -- the other type is no variable
    obtain ⟨rfl, hCovers⟩ : x = y ∧ p.Covers t := by
      cases swapped with
      | true =>
        obtain ⟨rfl, heTop⟩ := hTops
        rw [heTop, Monotype.var.injEq] at hTop
        exact ⟨(hTop.resolve_left (ht x)).symm, hp.scoping.covers_top ha⟩
      | false =>
        obtain ⟨haTop, rfl⟩ := hTops
        rw [haTop, Monotype.var.injEq] at hTop
        exact ⟨(hTop.resolve_right (ht x)).symm, hp.scoping.covers_top he⟩
    have hFits := Tie.solve_fits hp' hy (hQuiet.covers hCovers) swapped (closed_univ _) trivial
      fun _ _ => trivial
    rw [← hQuiet.find? x, hy, hTie.kept_of_failed hSafe hp' hFits (by simp [Tie.solve]) hy]
  | clash _ hQuiet => exact hQuiet.find? x
  | fn haTop heTop =>
    -- neither type is a variable
    rw [haTop, heTop] at hTop
    rcases hTop with hTop | hTop <;> cases hTop

variable {fuel : Nat} {p : Prefix} {a e : Monotype} {call : Bool} {sink : Sink} {s : Session}

/-- Variables that the two types do not lead to are as they were. -/
theorem within_kept {verdict : Verdict}
    (h : within fuel a e call ⟨p, sink⟩ = .ok (verdict, s)) (hp : p.WellFormed) (ha : p.Covers a)
    (he : p.Covers e) {x : String} (hx : p.Binds x) (hApart : x ∉ Region p a e) :
    s.vars.find? x = p.find? x := by
  obtain ⟨ds, hRun, -, -⟩ := run_of_within_ok h
  obtain ⟨hNarrows, -⟩ := run_safe fuel hRun hp ha he (closed_region p a e)
    (fun y hy => ⟨y, Or.inl hy, .refl⟩) (fun y hy => ⟨y, Or.inr hy, .refl⟩) 0
  obtain ⟨ex, hEntry⟩ := hx
  obtain ⟨ex', hEntry', -, hSame⟩ := hNarrows.kept x ex hEntry
  rw [hEntry', hSame hApart, hEntry]

/-- A variable that one of the types resolves to is as it was after a run that failed. -/
theorem within_kept_of_failed {d : Diagnostic}
    (h : within fuel a e call ⟨p, sink⟩ = .ok (some d, s)) (hp : p.WellFormed) (ha : p.Covers a)
    (he : p.Covers e) {x : String} (hx : p.resolvedMono a = .var x ∨ p.resolvedMono e = .var x) :
    s.vars.find? x = p.find? x := by
  obtain ⟨ds, hRun, hVerdict, -⟩ := run_of_within_ok h
  obtain ⟨ds', rfl⟩ := List.head?_eq_some_iff.1 hVerdict.symm
  cases fuel with
  | zero => cases hRun
  | succ n =>
    -- a variable has no parts, so the run is the step that ties it
    exact StepRun.kept_of_failed (run_safe n) hRun hp ha he
      (hx.imp hp.acyclic.top_of_resolvedMono_var hp.acyclic.top_of_resolvedMono_var)

/-- Unification leaves the level and the bound of every variable alone that the two types do not
lead to, and if it fails, also those of the variables that the types resolve to. -/
theorem unify_frames {p : Prefix} (hp : p.WellFormed) {a e : Monotype} (ha : p.Covers a)
    (he : p.Covers e) {run : Nat → Monotype → Monotype → Solve Verdict}
    (hRun : run = Mlf.unify ∨ run = Mlf.unifyCall) {fuel : Nat} {sink : Sink} {verdict : Verdict}
    {s : Session} (hEnd : run fuel a e ⟨p, sink⟩ = .ok (verdict, s)) :
    (∀ x, p.Binds x → x ∉ Region p a e → s.vars.find? x = p.find? x) ∧
    (verdict ≠ none → ∀ x, p.resolvedMono a = .var x ∨ p.resolvedMono e = .var x →
      s.vars.find? x = p.find? x) := by
  obtain ⟨call, rfl⟩ := exists_call hRun
  refine ⟨fun x hx hApart => within_kept hEnd hp ha he hx hApart, fun hFailed x hx => ?_⟩
  -- a step that failed has tied neither of the two tops
  obtain ⟨d, rfl⟩ := Option.ne_none_iff_exists'.1 hFailed
  exact within_kept_of_failed hEnd hp ha he hx

/-- A variable with the bound `∀ b. y → b → b` cannot be `number → number → boolean`. It is as it
was, although `y` became a number on the way. -/
theorem unify_frames_failed : ∃ p d s,
    p = (((empty.enter.add "y" .unbounded).add "z" .unbounded).add "x" ⟨.flexible,
      .all "b" .flexible .bottom (.mono (.fn (.var "y") (.fn (.var "b") (.var "b"))))⟩) ∧
    Mlf.unify 5 (.var "x") (.fn (.const .number) (.fn (.const .number) (.const .boolean)))
      ⟨p, .empty⟩ = .ok (some d, s) ∧
    s.vars.solution? "y" = some (.const .number) ∧
    s.vars.find? "x" = p.find? "x" ∧ s.vars.find? "z" = p.find? "z" := by
  obtain ⟨p, d, s, hEq, hRun, hy⟩ : ∃ p d s,
      p = (((empty.enter.add "y" .unbounded).add "z" .unbounded).add "x" ⟨.flexible,
        .all "b" .flexible .bottom (.mono (.fn (.var "y") (.fn (.var "b") (.var "b"))))⟩) ∧
      Mlf.unify 5 (.var "x") (.fn (.const .number) (.fn (.const .number) (.const .boolean)))
        ⟨p, .empty⟩ = .ok (some d, s) ∧
      s.vars.solution? "y" = some (.const .number) := ⟨_, _, _, rfl, by cbv, by cbv⟩
  have hp : p.WellFormed := by
    subst hEq
    exact ((wellFormed_empty.enter.add (by decide)).add (by decide)).add (by decide)
  -- the bound of the first type leads no further than to one variable
  have hApart : "z" ∉ Region p (.mono (.var "x"))
      (.mono (.fn (.const .number) (.fn (.const .number) (.const .boolean)))) := by
    have hClosed : p.Closed {"x", "y"} := by
      subst hEq
      rintro u (rfl | rfl) v ⟨e, he, hv⟩
      · obtain rfl := Option.some.inj he
        have hEither : v ≠ "b" ∧ (v = "y" ∨ v = "b") := by
          simpa [Polytype.freeVars, Monotype.freeVars] using hv
        exact Or.inr (hEither.2.resolve_right hEither.1)
      · obtain rfl := Option.some.inj he
        simp [Bound.unbounded, Polytype.freeVars] at hv
    rintro ⟨u, hu, hReaches⟩
    obtain rfl : u = "x" := by simpa [Polytype.freeVars, Monotype.freeVars] using hu
    simpa using hClosed.reaches (by simp) hReaches
  have hBinds : p.Binds "x" ∧ p.Binds "z" := by
    subst hEq
    decide
  have hUnsolved : p.solution? "x" = none := by
    subst hEq
    rfl
  have hFrames := unify_frames hp (covers_var.2 hBinds.1)
    (by simp [Covers, Polytype.freeVars, Monotype.freeVars]) (Or.inl rfl) hRun
  have hResolved := hp.acyclic.resolvedMono_var hUnsolved
  exact ⟨p, d, s, hEq, hRun, hy, hFrames.2 (by simp) "x" (Or.inl hResolved),
    hFrames.1 "z" hBinds.2 hApart⟩

end Unify

end Mlf
