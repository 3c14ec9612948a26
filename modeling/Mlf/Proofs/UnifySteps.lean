import Mathlib
import Mlf.Proofs.RigidBounds

/-!
# Bounds of variables from step to step

What a run of unification does to the bounds of the variables that it meets. Which of two types is
the actual one has no bearing on that, so `Meets` leaves it open.

Main results:

* `Meets.acts` — one step, by the tops of the types;
* `Meets.parts`, `Meets.solve_open`, `Meets.tie_open` — function types and variables without bounds;
* `Meets.refuse_rigid` — an attempt to solve a rigid variable, which fails and leaves its traces.
-/

namespace Mlf

open Prefix Relation

variable {p q : Prefix} {t : Monotype} {b b' : Bound} {x y : String}

namespace Prefix

/-! ## Bounds of variables -/

/-- A variable is in play with the given bound. -/
def Has (p : Prefix) (x : String) (b : Bound) : Prop := ∃ e, p.find? x = some e ∧ e.bound = b

theorem Has.binds (h : p.Has x b) : p.Binds x := by
  obtain ⟨e, he, -⟩ := h
  exact ⟨e, he⟩

theorem Has.eq (h : p.Has x b) (h' : p.Has x b') : b = b' := by
  obtain ⟨e, he, rfl⟩ := h
  obtain ⟨e', he', rfl⟩ := h'
  rw [Option.some.inj (he.symm.trans he')]

theorem Has.ne (h : p.Has x b) (h' : p.Has y b') (hne : b ≠ b') : x ≠ y := by
  rintro rfl
  exact hne (h.eq h')

theorem Has.mentions (h : p.Has x b) : p.Mentions x y ↔ y ∈ b.type.freeVars := by
  obtain ⟨e, he, rfl⟩ := h
  exact mentions_iff he

theorem Has.solution? (h : p.Has x b) : p.solution? x = b.type.mono? := by
  obtain ⟨e, he, rfl⟩ := h
  simp [Prefix.solution?, he]

theorem Has.quiet (h : p.Has x b) (hQuiet : p.Quiet q) : q.Has x b := by
  obtain ⟨e, he, hb⟩ := h
  exact ⟨e, by rw [hQuiet.find?, he], hb⟩

theorem Has.enter (h : p.Has x b) : p.enter.Has x b := h

theorem Has.grows (h : p.Has y b') (hGrows : p.Grows q x b) : q.Has y b' := by
  obtain ⟨e, he, hb⟩ := h
  have hne : y ≠ x := by
    rintro rfl
    exact hGrows.fresh ⟨e, he⟩
  exact ⟨e, by rw [hGrows.find?, if_neg hne, he], hb⟩

theorem Grows.has (h : p.Grows q x b) : q.Has x b :=
  ⟨⟨p.level, b⟩, by rw [h.find?, if_pos rfl], rfl⟩

theorem Has.updates (h : p.Has y b') (hUpdates : p.Updates q x b) (hne : y ≠ x) : q.Has y b' := by
  obtain ⟨e, he, hb⟩ := h
  obtain ⟨l, hNew, -⟩ := hUpdates.bound y e he
  exact ⟨_, hNew, by rw [if_neg hne, hb]⟩

theorem Updates.has (h : p.Updates q x b) (hx : p.Binds x) : q.Has x b := by
  obtain ⟨e, he⟩ := hx
  obtain ⟨l, hNew, -⟩ := h.bound x e he
  exact ⟨_, hNew, if_pos rfl⟩

/-- A variable that is still in play when a level is left has the same bound. -/
theorem Has.leave (h : p.Has x b) (hOwned : p.Owned) (hLevel : 1 ≤ p.level) (hx : p.leave.Binds x) :
    p.leave.Has x b := by
  obtain ⟨e, he, hb⟩ := h
  obtain ⟨e', he'⟩ := hx
  obtain rfl := Option.some.inj (he.symm.trans ((hOwned.find?_leave hLevel x e').1 he').1)
  exact ⟨e, he', hb⟩

theorem Quiet.updates {p' : Prefix} (hQuiet : p.Quiet p') (hp : p.Acyclic) (h : p'.Updates q x b) :
    p.Updates q x b where
  level := h.level.trans (congrArg List.length hQuiet.levels)
  failures := h.failures.trans (hQuiet.failures hp)
  bound y e he := by
    obtain ⟨l, hNew, hl⟩ := h.bound y e (by rw [hQuiet.find?, he])
    simp only [hQuiet.find?] at hl
    exact ⟨l, hNew, hl⟩
  binds y := (h.binds y).trans (hQuiet.binds y)

/-! ## Tops -/

theorem follow_succ {n : Nat} (h : (p.follow n t).2 = true) :
    p.follow (n + 1) t = p.follow n t := by
  induction n generalizing t with
  | zero => cases h
  | succ n ih =>
    cases t with
    | var x =>
      cases hx : p.solution? x with
      | none => simp [follow, hx]
      | some m =>
        -- one step less is left for the solution, and it was enough
        have hRest : (p.follow n m).2 = true := by simpa [follow, hx] using h
        have hSame := ih hRest
        simp only [follow, hx] at hSame ⊢
        exact hSame
    | const c => rfl
    | fn a b => rfl

theorem top_fn (p : Prefix) (a b : Monotype) : p.top (.fn a b) = .fn a b := rfl

theorem top_const (p : Prefix) (c : BaseType) : p.top (.const c) = .const c := rfl

theorem top_of_solution?_none (h : p.solution? x = none) : p.top (.var x) = .var x := by
  simp [top, follow, h]

theorem Acyclic.top_of_solution? (hp : p.Acyclic) {m : Monotype} (h : p.solution? x = some m) :
    p.top (.var x) = p.top m := by
  have hDone := hp.follow_done (.var x)
  have hStep : p.follow (p.size + 1) (.var x) = p.follow p.size m := by simp [follow, h]
  rw [hStep] at hDone
  show (p.follow (p.size + 1) (.var x)).1 = (p.follow (p.size + 1) m).1
  rw [hStep, follow_succ hDone]

/-- Where solutions are kept, the top of a type can be found from its old top. -/
theorem top_of_keeps (hq : q.Acyclic) (h : ∀ x m, p.solution? x = some m → q.solution? x = some m)
    (t : Monotype) : q.top t = q.top (p.top t) := by
  show q.top t = q.top (p.follow (p.size + 1) t).1
  generalize p.size + 1 = n
  fun_induction follow p n t with
  | case1 t => rfl
  | case2 n x hNone => rfl
  | case3 n x m hSome ih => rw [hq.top_of_solution? (h x m hSome), ih]
  | case4 n t hNotVar => rfl

/-! ## Occurrences -/

theorem Closed.not_occurs {D : Set String} (h : p.Closed D) {t : Polytype}
    (ht : ∀ y ∈ t.freeVars, y ∈ D) (hx : x ∉ D) : p.occurs x t = false := by
  rw [Bool.eq_false_iff]
  intro hOccurs
  obtain ⟨y, hy, hyx⟩ := occurs_iff.1 hOccurs
  exact hx (h.reaches (ht y hy) hyx)

theorem not_occurs_bottom (p : Prefix) (x : String) : p.occurs x .bottom = false :=
  Closed.not_occurs (D := ∅) (by simp [Closed]) (by simp [Polytype.freeVars]) (by simp)

end Prefix

namespace Unify

/-! ## Steps -/

/-- A run on two types, in one order or the other, comes to an end at `q`. -/
def Meets (n : Nat) (p : Prefix) (a e : Monotype) (q : Prefix) : Prop :=
  ∃ ds, Run n p a e (some (q, ds)) ∨ Run n p e a (some (q, ds))

variable {n : Nat} {p q : Prefix} {a e : Monotype}

theorem Meets.symm (h : Meets n p a e q) : Meets n p e a q := by
  obtain ⟨ds, h⟩ := h
  exact ⟨ds, h.symm⟩

theorem Meets.narrows (h : Meets n p a e q) (hp : p.WellFormed) (ha : p.Covers a)
    (he : p.Covers e) : Narrows 0 p q Set.univ := by
  obtain ⟨ds, h | h⟩ := h
  · exact Safe.narrows (run_safe n) h hp ha he 0
  · exact Safe.narrows (run_safe n) h hp he ha 0

/-- Solved variables stay solved, so tops can be found from old tops. -/
theorem Meets.top (h : Meets n p a e q) (hp : p.WellFormed) (ha : p.Covers a) (he : p.Covers e)
    (t : Monotype) : q.top t = q.top (p.top t) := by
  have hq := (h.narrows hp ha he).wellFormed.acyclic
  obtain ⟨ds, h | h⟩ := h
  · exact top_of_keeps hq (run_fixes n h hp ha he).solved t
  · exact top_of_keeps hq (run_fixes n h hp he ha).solved t

/-- A step starts with keeping books. -/
theorem StepRun.of_quiet {R : Behavior} {p' : Prefix} {o : Outcome} (h : StepRun R p a e o)
    (hQuiet : p'.Quiet p) : StepRun R p' a e o := by
  -- each case looks at the types through their tops only
  have hTop := hQuiet.top
  cases h with
  | same h hq => exact .same (by rw [← hTop, ← hTop, h]) (hQuiet.trans hq)
  | unbound hx hUnbound hq =>
    simp only [hTop] at hx
    exact .unbound hx (fun hb => hUnbound ((hQuiet.binds _).2 hb)) (hQuiet.trans hq)
  | merge ha he hne hq hx hy hTie =>
    exact .merge (hTop a ▸ ha) (hTop e ▸ he) hne (hQuiet.trans hq) hx hy hTie
  | solve hTops ht hq hx hTie =>
    simp only [hTop] at hTops
    exact .solve hTops ht (hQuiet.trans hq) hx hTie
  | clash hDiffer hq hd hConst =>
    simp only [hTop] at hDiffer hConst
    exact .clash hDiffer (hQuiet.trans hq) hd hConst
  | paramStuck ha he hq hPair hParam =>
    exact .paramStuck (hTop a ▸ ha) (hTop e ▸ he) (hQuiet.trans hq) hPair hParam
  | bodyStuck ha he hq hPair hParam hBody =>
    exact .bodyStuck (hTop a ▸ ha) (hTop e ▸ he) (hQuiet.trans hq) hPair hParam hBody
  | fn ha he hq hPair hParam hBody =>
    exact .fn (hTop a ▸ ha) (hTop e ▸ he) (hQuiet.trans hq) hPair hParam hBody

theorem Meets.step (h : Meets n p a e q) : ∃ m ds, n = m + 1 ∧
    (StepRun (Run m) p a e (some (q, ds)) ∨ StepRun (Run m) p e a (some (q, ds))) := by
  obtain ⟨ds, h⟩ := h
  cases n with
  | zero => rcases h with h | h <;> cases h
  | succ m => exact ⟨m, ds, rfl, h⟩

theorem Meets.of_quiet {p' : Prefix} (h : Meets n p a e q) (hQuiet : p'.Quiet p) :
    Meets n p' a e q := by
  obtain ⟨m, ds, rfl, hStep | hStep⟩ := h.step
  · exact ⟨ds, Or.inl (hStep.of_quiet hQuiet)⟩
  · exact ⟨ds, Or.inr (hStep.of_quiet hQuiet)⟩

/-- What a step does to types with the given tops. -/
def Acts (m : Nat) (p q : Prefix) : Monotype → Monotype → Prop
  | .fn a₁ a₂, .fn e₁ e₂ =>
    (p.Quiet q ∧ a₁ = e₁ ∧ a₂ = e₂) ∨ ∃ q', Meets m p a₁ e₁ q' ∧ Meets m q' a₂ e₂ q
  | .var x, .var y =>
    (p.Quiet q ∧ (p.Binds x → p.Binds y → x = y)) ∨
      ∃ p' b b' ds, p.Quiet p' ∧ x ≠ y ∧ p.Has x b ∧ p.Has y b' ∧
        (TieRun (Run m) p' (.merge x y b b') (some (q, ds)) ∨
          TieRun (Run m) p' (.merge y x b' b) (some (q, ds)))
  | .var x, t | t, .var x =>
    (p.Quiet q ∧ ¬ p.Binds x) ∨
      ∃ p' b ds swapped, p.Quiet p' ∧ p.Has x b ∧
        TieRun (Run m) p' (.solve x b t swapped) (some (q, ds))
  | _, _ => p.Quiet q

/-- What a step does is the same in the other order. -/
theorem Acts.symm {u : Monotype} (h : Acts n p q t u) : Acts n p q u t := by
  -- only two variables, and two function types, read differently the other way round
  cases t with
  | var x =>
    cases u with
    | var y =>
      rcases h with ⟨hQuiet, hSame⟩ | ⟨p', b, b', ds, hQuiet, hne, hx, hy, hTie⟩
      · exact Or.inl ⟨hQuiet, fun hy hx => (hSame hx hy).symm⟩
      · exact Or.inr ⟨p', b', b, ds, hQuiet, hne.symm, hy, hx, hTie.symm⟩
    | const => exact h
    | fn => exact h
  | const c =>
    cases u with
    | var => exact h
    | const => exact h
    | fn => exact h
  | fn a₁ a₂ =>
    cases u with
    | var => exact h
    | const => exact h
    | fn e₁ e₂ =>
      rcases h with ⟨hQuiet, hParams, hBodies⟩ | ⟨q', hParam, hBody⟩
      · exact Or.inl ⟨hQuiet, hParams.symm, hBodies.symm⟩
      · exact Or.inr ⟨q', hParam.symm, hBody.symm⟩

theorem Acts.of_same (hQuiet : p.Quiet q) (t : Monotype) : Acts n p q t t := by
  cases t with
  | var => exact Or.inl ⟨hQuiet, fun _ _ => rfl⟩
  | const => exact hQuiet
  | fn => exact Or.inl ⟨hQuiet, rfl, rfl⟩

theorem Acts.of_unbound (hQuiet : p.Quiet q) (hUnbound : ¬ p.Binds x) (t : Monotype) :
    Acts n p q (.var x) t := by
  cases t with
  | var => exact Or.inl ⟨hQuiet, fun hx => absurd hx hUnbound⟩
  | const => exact Or.inl ⟨hQuiet, hUnbound⟩
  | fn => exact Or.inl ⟨hQuiet, hUnbound⟩

/-- A variable and a type that is none. -/
theorem acts_var_iff (ht : ∀ y, t ≠ .var y) :
    Acts n p q (.var x) t ↔ (p.Quiet q ∧ ¬ p.Binds x) ∨
      ∃ p' b ds swapped, p.Quiet p' ∧ p.Has x b ∧
        TieRun (Run n) p' (.solve x b t swapped) (some (q, ds)) := by
  cases t with
  | var y => exact absurd rfl (ht y)
  | const => exact Iff.rfl
  | fn => exact Iff.rfl

theorem Acts.of_const {c : BaseType} (hQuiet : p.Quiet q) (ht : ∀ y, t ≠ .var y) :
    Acts n p q (.const c) t := by
  cases t with
  | var y => exact absurd rfl (ht y)
  | const => exact hQuiet
  | fn => exact hQuiet

/-- One step of the relation, by the tops of the types. -/
theorem StepRun.acts {ds : List Diagnostic} (h : StepRun (Run n) p a e (some (q, ds))) :
    Acts n p q (p.top a) (p.top e) := by
  have hHas {p' : Prefix} {x : String} {ex : Entry} (hQuiet : p.Quiet p')
      (hx : p'.find? x = some ex) : p.Has x ex.bound := ⟨ex, by rw [← hQuiet.find?, hx], rfl⟩
  cases h with
  | same hTop hQuiet =>
    rw [hTop]
    exact .of_same hQuiet _
  | unbound hx hUnbound hQuiet =>
    rcases hx with ha | he
    · rw [ha]
      exact .of_unbound hQuiet hUnbound _
    · rw [he]
      exact (Acts.of_unbound hQuiet hUnbound _).symm
  | merge ha he hne hQuiet hx hy hTie =>
    rw [ha, he]
    exact Or.inr ⟨_, _, _, _, hQuiet, hne, hHas hQuiet hx, hHas hQuiet hy, Or.inl hTie⟩
  | @solve p' x t ex swapped _ hTops ht hQuiet hx hTie =>
    have hActs : Acts n p q (.var x) t :=
      (acts_var_iff ht).2 (Or.inr ⟨p', ex.bound, ds, swapped, hQuiet, hHas hQuiet hx, hTie⟩)
    cases swapped with
    | true =>
      rw [hTops.1, hTops.2]
      exact hActs.symm
    | false =>
      rw [hTops.1, hTops.2]
      exact hActs
  | clash _ hQuiet _ hConst =>
    rcases hConst with ⟨c, ha, he⟩ | ⟨c, he, ha⟩
    · rw [ha]
      exact .of_const hQuiet he
    · rw [he]
      exact (Acts.of_const hQuiet ha).symm
  | fn ha he hQuiet hPair hParam hBody =>
    rw [ha, he]
    refine Or.inr ⟨_, Meets.of_quiet ?_ hQuiet, _, Or.inl hBody⟩
    -- a call turns the parameters around
    rcases hPair with ⟨rfl, rfl⟩ | ⟨rfl, rfl⟩
    · exact ⟨_, Or.inl hParam⟩
    · exact ⟨_, Or.inr hParam⟩

/-- One step of a run, by the tops of the types. -/
theorem Meets.acts (h : Meets n p a e q) : ∃ m, n = m + 1 ∧ Acts m p q (p.top a) (p.top e) := by
  obtain ⟨m, ds, rfl, hStep | hStep⟩ := h.step
  · exact ⟨m, rfl, hStep.acts⟩
  · exact ⟨m, rfl, hStep.acts.symm⟩

/-- A run on two different function types is a run on their parameters and one on their bodies. -/
theorem Meets.parts (h : Meets n p a e q) {a₁ a₂ e₁ e₂ : Monotype} (ha : p.top a = .fn a₁ a₂)
    (he : p.top e = .fn e₁ e₂) (hne : a₁ = e₁ → a₂ ≠ e₂) :
    ∃ m q', n = m + 1 ∧ Meets m p a₁ e₁ q' ∧ Meets m q' a₂ e₂ q := by
  obtain ⟨m, rfl, hActs⟩ := h.acts
  rw [ha, he] at hActs
  rcases hActs with ⟨-, hParams, hBodies⟩ | ⟨q', hParam, hBody⟩
  · exact absurd hBodies (hne hParams)
  · exact ⟨m, q', rfl, hParam, hBody⟩

/-- Nothing happens to types with a constant at their tops. -/
theorem Meets.same_const (h : Meets n p a e q) {c c' : BaseType} (ha : p.top a = .const c)
    (he : p.top e = .const c') : p.Quiet q := by
  obtain ⟨m, -, hActs⟩ := h.acts
  rw [ha, he] at hActs
  exact hActs

/-- A run on two types with different variables at their tops makes these one. -/
theorem Meets.merge (h : Meets n p a e q) (ha : p.top a = .var x) (he : p.top e = .var y)
    (hne : x ≠ y) (hx : p.Has x b) (hy : p.Has y b') :
    ∃ m p' ds, p.Quiet p' ∧ (TieRun (Run m) p' (.merge x y b b') (some (q, ds)) ∨
      TieRun (Run m) p' (.merge y x b' b) (some (q, ds))) := by
  obtain ⟨m, -, hActs⟩ := h.acts
  rw [ha, he] at hActs
  rcases hActs with ⟨-, hSame⟩ | ⟨p', c, c', ds, hQuiet, -, hx', hy', hTie⟩
  · exact absurd (hSame hx.binds hy.binds) hne
  · rw [hx.eq hx', hy.eq hy']
    exact ⟨m, p', ds, hQuiet, hTie⟩

/-- A run on a type with a variable at its top and one with none solves the variable. -/
theorem Meets.solve (h : Meets n p a e q) (ha : p.top a = .var x) (he : ∀ y, p.top e ≠ .var y)
    (hx : p.Has x b) :
    ∃ m p' ds swapped, p.Quiet p' ∧
      TieRun (Run m) p' (.solve x b (p.top e) swapped) (some (q, ds)) := by
  obtain ⟨m, -, hActs⟩ := h.acts
  rw [ha] at hActs
  rcases (acts_var_iff he).1 hActs with ⟨-, hUnbound⟩ | ⟨p', c, ds, swapped, hQuiet, hx', hTie⟩
  · exact absurd hx.binds hUnbound
  · rw [hx.eq hx']
    exact ⟨m, p', ds, swapped, hQuiet, hTie⟩

/-! ## Tied variables -/

/-- Where one of the types has all instances and nothing stands in the way, variables are tied. -/
theorem TieRun.of_bottom {R : Behavior} {T : Tie} {ds : List Diagnostic}
    (h : TieRun R p T (some (q, ds))) (hBottom : T.actual = .bottom ∨ T.expected = .bottom)
    (hClash : T.rigid → ¬ (T.actual = .bottom ∧ T.expected = .bottom))
    (hFree : ∀ x ∈ T.vars, p.occurs x T.actual = false ∧ p.occurs x T.expected = false)
    (hTarget : ∀ t, (T.actual = .bottom ∧ t = T.expected) ∨ (T.expected = .bottom ∧ t = T.actual) →
      (T.target t = T.actual ∨ T.target t = T.expected) ∧
        ∀ b ∈ T.bounds, b.kind = .rigid → T.target t = b.type) :
    ∃ p' t, p.Quiet p' ∧ ((T.actual = .bottom ∧ t = T.expected) ∨
      (T.expected = .bottom ∧ t = T.actual)) ∧ q = T.finish p' t := by
  -- the assumptions are about one way to fail each
  cases h with
  | clash hRigid hBoth => exact absurd hBoth (hClash hRigid)
  | @cycle _ _ x hx hOccurs =>
    obtain ⟨hActual, hExpected⟩ := hFree x hx
    simp [hActual, hExpected] at hOccurs
  | failed hPoly =>
    obtain ⟨-, hNil, -⟩ := hPoly.eq_of_bottom hBottom
    cases hNil
  | rigid hPoly _ hDiffer =>
    obtain ⟨rfl, -, ht⟩ := hPoly.eq_of_bottom hBottom
    obtain ⟨b, hb, hKind, hNot⟩ := hDiffer
    rw [(hTarget _ ht).2 b hb hKind, equivalent_refl] at hNot
    cases hNot
  | @knot _ _ _ t x hPoly hx hOccurs =>
    obtain ⟨rfl, -, ht⟩ := hPoly.eq_of_bottom hBottom
    obtain ⟨hActual, hExpected⟩ := hFree x hx
    rcases (hTarget _ ht).1 with hEq | hEq
    · rw [hEq, hActual] at hOccurs
      cases hOccurs
    · rw [hEq, hExpected] at hOccurs
      cases hOccurs
  | @tied _ q' t _ hPoly hQuiet =>
    obtain ⟨rfl, -, ht⟩ := hPoly.eq_of_bottom hBottom
    exact ⟨q', t, hQuiet, ht, rfl⟩

/-- A variable that may be anything is solved. -/
theorem Meets.solve_open (h : Meets n p a e q) (hp : p.Acyclic) (ha : p.top a = .var x)
    (hx : p.Has x .unbounded) (he : p.top e = t) (ht : ∀ y, t ≠ .var y)
    (hFree : p.occurs x t = false) : p.Updates q x ⟨.flexible, .mono t⟩ := by
  subst he
  obtain ⟨m, p', ds, swapped, hQuiet, hTie⟩ := h.solve ha ht hx
  -- no check stands in the way: the bound is bottom, and the type does not lead to the variable
  have hFree' : p'.occurs x (p.top e) = false := by rw [hQuiet.occurs, hFree]
  have hNone := not_occurs_bottom p' x
  obtain ⟨p₁, t, hQuiet₁, -, rfl⟩ := hTie.of_bottom
    (by cases swapped <;> simp [Tie.solve, Bound.unbounded])
    (by simp [Tie.solve, Bound.unbounded])
    (by cases swapped <;> simp [Tie.solve, Bound.unbounded, hFree', hNone])
    (by cases swapped <;> simp [Tie.solve, Bound.unbounded])
  have hQuiet₂ := hQuiet.trans hQuiet₁
  exact hQuiet₂.updates hp (update_updates (hx.quiet hQuiet₂).binds _)

/-- A variable that may be anything becomes one with a rigid variable, which keeps its bound. -/
theorem Meets.tie_open (h : Meets n p a e q) (hp : p.Acyclic) {t : Polytype}
    (ha : p.top a = .var x) (he : p.top e = .var y) (hx : p.Has x .unbounded)
    (hy : p.Has y ⟨.rigid, t⟩) (ht : t ≠ .bottom) (hFree : p.occurs x t = false) :
    ∃ stays goes q', ((stays = x ∧ goes = y) ∨ (stays = y ∧ goes = x)) ∧
      p.Updates q' stays ⟨.rigid, t⟩ ∧ q'.Updates q goes ⟨.flexible, .mono (.var stays)⟩ := by
  have hne : x ≠ y := hx.ne hy (by simp [Bound.unbounded])
  obtain ⟨m, p', ds, hQuiet, hTie⟩ := h.merge ha he hne hx hy
  have hFree' : p'.occurs x t = false := by rw [hQuiet.occurs, hFree]
  -- without cycles, the rigid variable is not found in its own bound
  have hSelf : p'.occurs y t = false := by
    obtain ⟨ey, hey, hBound⟩ := hy.quiet hQuiet
    have hOwn := not_occurs_self (hQuiet.acyclic.2 hp) hey
    rwa [hBound] at hOwn
  have hNone := not_occurs_bottom p'
  -- in either order, the common instances are those of the rigid bound
  have hFinish : ∃ p₁ u v, p.Quiet p₁ ∧ ((u = x ∧ v = y) ∨ (u = y ∧ v = x)) ∧
      q = (p₁.merge u v ⟨.rigid, t⟩).2 := by
    rcases hTie with hTie | hTie
    · obtain ⟨p₁, t', hQuiet₁, ht', rfl⟩ := hTie.of_bottom (Or.inl rfl)
        (by simp [Tie.merge, ht]) (by simp [Tie.merge, Bound.unbounded, hFree', hSelf, hNone])
        (by simp [Tie.merge, Bound.unbounded, ht])
      obtain rfl : t' = t := by simpa [Tie.merge, Bound.unbounded, ht] using ht'
      exact ⟨p₁, x, y, hQuiet.trans hQuiet₁, Or.inl ⟨rfl, rfl⟩, by simp [Tie.merge, Bound.unbounded]⟩
    · obtain ⟨p₁, t', hQuiet₁, ht', rfl⟩ := hTie.of_bottom (Or.inr rfl)
        (by simp [Tie.merge, ht]) (by simp [Tie.merge, Bound.unbounded, hFree', hSelf, hNone])
        (by simp [Tie.merge, Bound.unbounded, ht])
      obtain rfl : t' = t := by simpa [Tie.merge, Bound.unbounded, ht] using ht'
      exact ⟨p₁, y, x, hQuiet.trans hQuiet₁, Or.inr ⟨rfl, rfl⟩, by simp [Tie.merge, Bound.unbounded]⟩
  obtain ⟨p₁, u, v, hQuiet₁, huv, rfl⟩ := hFinish
  have hxBinds := (hx.quiet hQuiet₁).binds
  have hyBinds := (hy.quiet hQuiet₁).binds
  have hBinds : p₁.Binds u ∧ p₁.Binds v := by
    rcases huv with ⟨rfl, rfl⟩ | ⟨rfl, rfl⟩
    · exact ⟨hxBinds, hyBinds⟩
    · exact ⟨hyBinds, hxBinds⟩
  -- two new bounds, one after the other
  obtain ⟨stays, goes, hWhich, hEq⟩ := merge_eq hBinds.1 hBinds.2 ⟨.rigid, t⟩
  have hNames : (stays = x ∧ goes = y) ∨ (stays = y ∧ goes = x) := by
    rcases huv with ⟨rfl, rfl⟩ | ⟨rfl, rfl⟩
    · exact hWhich
    · exact hWhich.symm
  have hStays : p₁.Binds stays ∧ p₁.Binds goes := by
    rcases hNames with ⟨rfl, rfl⟩ | ⟨rfl, rfl⟩
    · exact ⟨hxBinds, hyBinds⟩
    · exact ⟨hyBinds, hxBinds⟩
  have hFirst := update_updates hStays.1 ⟨.rigid, t⟩
  rw [hEq]
  exact ⟨stays, goes, _, hNames, hQuiet₁.updates hp hFirst,
    update_updates ((hFirst.binds goes).2 hStays.2) _⟩

/-- A run on two types one of which has quantifiers is a run on instances of them. -/
theorem PolyRun.of_quantified {R : Behavior} (hSafe : Safe R) {a e t : Polytype}
    {ds : List Diagnostic} (h : PolyRun R p a e (some (q, ds, t))) (hp : p.WellFormed)
    (ha : p.Covers a) (he : p.Covers e) (haBottom : a ≠ .bottom) (heBottom : e ≠ .bottom)
    (hQuantified : a.mono? = none ∨ e.mono? = none) :
    ∃ q', R ((p.enter.opened a).2.opened e).2 (p.enter.opened a).1
      ((p.enter.opened a).2.opened e).1 (some (q', ds)) ∧ q = q'.leave := by
  cases h with
  | left => exact absurd rfl haBottom
  | right => exact absurd rfl heBottom
  | mono => simp [Polytype.mono?] at hQuantified
  | @opened _ _ q' _ _ _ hRun =>
    have hPair := opensPair hp ha he (closed_univ _) (fun _ _ => trivial) fun _ _ => trivial
    obtain ⟨hInside, -, hCovers⟩ := hPair.run hSafe hRun
    refine ⟨q', hRun, ?_⟩
    rw [generalize_eq hInside.wellFormed.scoping hCovers]

/-- A rigid variable is not solved by a type that is no variable. What is left is what came of the
attempt to make the type an instance of the bound. -/
theorem Meets.refuse_rigid (h : Meets n p a e q) (hp : p.WellFormed) (ha : p.Covers a)
    {t : Polytype} {u : Monotype} (haTop : p.top a = u) (hu : ∀ y, u ≠ .var y)
    (heTop : p.top e = .var x) (hx : p.Has x ⟨.rigid, t⟩) (ht : t.mono? = none)
    (hBottom : t ≠ .bottom) (hFree : p.occurs x u = false) :
    ∃ m p' q', p.Quiet p' ∧ Meets m (p'.enter.opened t).2 u (p'.enter.opened t).1 q' ∧
      q'.leave.Quiet q := by
  subst haTop
  obtain ⟨m, p', ds, swapped, hQuiet, hTie⟩ := h.symm.solve heTop hu hx
  have hp' := (hQuiet.wellFormed hp).1
  obtain ⟨ex, hex, hBound⟩ := hx.quiet hQuiet
  have hNormal := hp'.normal x ex hex
  have hSelf := not_occurs_self hp'.acyclic hex
  have hCovers : p'.Covers ex.bound.type := fun y hy => hp'.scoping.binds ⟨ex, hex, hy⟩
  rw [hBound] at hNormal hSelf hCovers
  have hTop : p'.Covers (p.top a) := hQuiet.covers (hp.scoping.covers_top ha)
  have hFree' : p'.occurs x (p.top a) = false := by rw [hQuiet.occurs, hFree]
  have hMono : Polytype.mono (p.top a) ≠ .bottom := by simp
  -- whichever order the types are in, the run is on the type and an instance of the bound
  have hPoly {q₁ : Prefix} {ds₁ : List Diagnostic} {t₁ : Polytype}
      (h : PolyRun (Run m) p' (Tie.solve x ⟨.rigid, t⟩ (p.top a) swapped).actual
        (Tie.solve x ⟨.rigid, t⟩ (p.top a) swapped).expected (some (q₁, ds₁, t₁))) :
      ∃ q', Meets m (p'.enter.opened t).2 (p.top a) (p'.enter.opened t).1 q' ∧ q₁ = q'.leave := by
    cases swapped with
    | true =>
      obtain ⟨q', hRun, rfl⟩ := h.of_quantified (run_safe m) hp' hTop hCovers hMono hBottom (Or.inr ht)
      simp only [Tie.solve, if_true, opened_mono] at hRun
      exact ⟨q', ⟨_, Or.inl hRun⟩, rfl⟩
    | false =>
      obtain ⟨q', hRun, rfl⟩ := h.of_quantified (run_safe m) hp' hCovers hTop hBottom hMono (Or.inl ht)
      simp only [Tie.solve, Bool.false_eq_true, if_false, opened_mono] at hRun
      exact ⟨q', ⟨_, Or.inr hRun⟩, rfl⟩
  cases hTie with
  | clash _ hBoth => cases swapped <;> simp [Tie.solve] at hBoth
  | cycle hz hOccurs =>
    obtain rfl := List.mem_singleton.1 hz
    cases swapped <;> simp [Tie.solve, hSelf, hFree'] at hOccurs
  -- the attempt failed on the way, or one of the last checks refused it
  | failed hRun =>
    obtain ⟨q', hMeets, rfl⟩ := hPoly hRun
    exact ⟨m, p', q', hQuiet, hMeets, .refl _⟩
  | rigid hRun _ _ hQuiet' =>
    obtain ⟨q', hMeets, rfl⟩ := hPoly hRun
    exact ⟨m, p', q', hQuiet, hMeets, hQuiet'⟩
  | knot hRun _ _ hQuiet' =>
    obtain ⟨q', hMeets, rfl⟩ := hPoly hRun
    exact ⟨m, p', q', hQuiet, hMeets, hQuiet'⟩
  | @tied _ q' t' _ hRun _ _ hSame =>
    -- a monotype is not equivalent to a type with quantifiers
    have hEquiv : (q'.resolved (p.top a)).equivalent (q'.resolved t) = true :=
      hSame ⟨.rigid, t⟩ (List.mem_singleton.2 rfl) rfl
    have hNone := (mono?_eq_none_iff_of_equivalent (Polytype.isNormal_mono _) hNormal hEquiv).2 ht
    cases hNone

end Unify

end Mlf
