import Mathlib
import Mlf.Proofs.Resolution
import Mlf.Proofs.UnifySolutions

/-!
# Rigid bounds

A variable with a rigid bound stands for the bound and for nothing less. Unification may make it one
with another variable, but the variable that is left is rigid again, and its bound is equivalent to
the old one once solved variables are replaced. This holds after failed runs too, which stop in the
middle of a narrowing.

Two facts are carried through a run together: solutions are never taken back, and rigid bounds are
held. The first makes the second transitive. A bound that is checked against the common instances of
two types is checked in the variables of that moment, and the check is still worth something later
because solutions are only added.

Main results:

* `Fixes.trans`, `Fixes.leave` — step by step, and at a level of its own;
* `merge_fixes`, `solve_fixes` — variables that get a new bound;
* `run_fixes` — a whole run;
* `unify_holds_rigid` — unification never narrows a rigid bound.
-/

namespace Mlf

open Prefix Relation

variable {p q : Prefix} {ex : Entry} {x : String}

namespace Prefix

/-- A variable stands for another one. -/
def Links (p : Prefix) (x y : String) : Prop := p.solution? x = some (.var y)

/-- Following links from `x` ends at a variable with a rigid bound that is equivalent to `t` once
solved variables are replaced. -/
def Holds (p : Prefix) (x : String) (t : Polytype) : Prop :=
  ∃ y e, ReflTransGen p.Links x y ∧ p.find? y = some e ∧ e.bound.kind = .rigid ∧
    e.bound.type.mono? = none ∧ (p.resolved t).equivalent (p.resolved e.bound.type) = true

/-- From `p` to `q` no solution is taken back, and no rigid bound is narrowed. -/
structure Fixes (p q : Prefix) : Prop where
  solved : ∀ x m, p.solution? x = some m → q.solution? x = some m
  rigid : ∀ x e, p.find? x = some e → e.bound.kind = .rigid → e.bound.type.mono? = none →
    q.Holds x e.bound.type

theorem equivalent_refl (t : Polytype) : t.equivalent t = true :=
  Polytype.equivalent_iff_norm_eq.2 rfl

theorem Holds.of_bound {e : Entry} (he : p.find? x = some e) (hRigid : e.bound.kind = .rigid)
    (hNotMono : e.bound.type.mono? = none) : p.Holds x e.bound.type :=
  ⟨x, e, .refl, he, hRigid, hNotMono, equivalent_refl _⟩

theorem Holds.after (hp : p.Acyclic) (hq : q.Acyclic) (h : p.Fixes q) {t : Polytype}
    (hx : p.Holds x t) : q.Holds x t := by
  obtain ⟨y, e, hLinks, he, hRigid, hNotMono, hEquiv⟩ := hx
  obtain ⟨z, e', hLinks', he', hRigid', hNotMono', hEquiv'⟩ := h.rigid y e he hRigid hNotMono
  have hFirst : ReflTransGen q.Links x y :=
    ReflTransGen.mono (fun a b hab => h.solved a (.var b) hab) x y hLinks
  refine ⟨z, e', hFirst.trans hLinks', he', hRigid', hNotMono', ?_⟩
  -- the old equivalence still holds, and the new one goes on from there
  have hOld := equivalent_resolved_of_keeps hp hq h.solved hEquiv
  rw [Polytype.equivalent_iff_norm_eq] at hOld hEquiv' ⊢
  exact hOld.trans hEquiv'

theorem Fixes.trans {s : Prefix} (h : p.Fixes q) (h' : q.Fixes s) (hq : q.Acyclic)
    (hs : s.Acyclic) : p.Fixes s where
  solved x m hx := h'.solved x m (h.solved x m hx)
  rigid x e he hRigid hNotMono := (h.rigid x e he hRigid hNotMono).after hq hs h'

/-- Where all bounds are kept, nothing is narrowed. -/
theorem Fixes.of_kept
    (h : ∀ x e, p.find? x = some e → ∃ e', q.find? x = some e' ∧ e'.bound = e.bound) :
    p.Fixes q where
  solved x m hx := by
    obtain ⟨e, he, ht⟩ := solution?_eq_some.1 hx
    obtain ⟨e', he', hBound⟩ := h x e he
    exact solution?_eq_some.2 ⟨e', he', by rw [hBound, ht]⟩
  rigid x e he hRigid hNotMono := by
    obtain ⟨e', he', hBound⟩ := h x e he
    rw [← hBound] at hRigid hNotMono ⊢
    exact .of_bound he' hRigid hNotMono

theorem Fixes.refl (p : Prefix) : p.Fixes p := .of_kept fun _ e he => ⟨e, he, rfl⟩

theorem Quiet.fixes (h : p.Quiet q) : p.Fixes q :=
  .of_kept fun x e he => ⟨e, by rw [h.find?, he], rfl⟩

/-! ## Levels and new variables -/

/-- What older levels hold does not depend on the level that is left: links and solutions of older
variables lead to older variables. -/
theorem Holds.leave (hp : p.WellFormed) (hLevel : 1 ≤ p.level) {t : Polytype}
    (hx : p.leave.Binds x) (ht : p.leave.Covers t) (h : p.Holds x t) : p.leave.Holds x t := by
  have hFind := hp.owned.find?_leave hLevel
  have hLeave := hp.leave hLevel
  have hSame : ∀ y ∈ {y | p.leave.Binds y}, p.leave.solution? y = p.solution? y := by
    rintro y ⟨e, he⟩
    rw [solution?, solution?, he, ((hFind y e).1 he).1]
  have hClosed : ∀ y ∈ {y | p.leave.Binds y}, ∀ m, p.solution? y = some m →
      ∀ z ∈ m.freeVars, z ∈ {y | p.leave.Binds y} := by
    intro y hy m hm z hz
    rw [← hSame y hy] at hm
    exact hLeave.scoping.binds (mentions_of_solution? hm hz)
  -- types of older levels are resolved alike before and after
  have hShape {u : Polytype} (hu : p.leave.Covers u) :
      (p.leave.resolved u).shape = (p.resolved u).shape :=
    shape_resolved_congr hp.acyclic hLeave.acyclic hSame hClosed hu
  obtain ⟨y, e, hLinks, he, hRigid, hNotMono, hEquiv⟩ := h
  -- the walk along links stays among the variables that are kept
  have hWalk : ReflTransGen p.leave.Links x y ∧ p.leave.Binds y := by
    clear he
    induction hLinks with
    | refl => exact ⟨.refl, hx⟩
    | @tail a b _ hab ih =>
      obtain ⟨hTo, hBinds⟩ := ih
      have hLink : p.leave.Links a b := (hSame a hBinds).trans hab
      exact ⟨hTo.tail hLink, hClosed a hBinds _ hab b (by simp [Monotype.freeVars])⟩
  obtain ⟨e', he'⟩ := hWalk.2
  obtain rfl := Option.some.inj (he.symm.trans ((hFind y e').1 he').1)
  refine ⟨y, e, hWalk.1, he', hRigid, hNotMono, ?_⟩
  rw [Polytype.equivalent_iff_norm_eq] at hEquiv ⊢
  rwa [hShape ht, hShape fun z hz => hLeave.scoping.binds ⟨e, he', hz⟩]

theorem Fixes.leave {Z : Set String} (hp : p.WellFormed)
    (hNarrows : Narrows (p.level + 1) p.enter q Z) (h : p.enter.Fixes q) : p.Fixes q.leave := by
  have hLevel := hNarrows.one_le_level (one_le_level_enter p)
  have hKept := hNarrows.leave hp.owned 0
  have hFind := hNarrows.wellFormed.owned.find?_leave hLevel
  refine ⟨fun x m hx => ?_, fun x e he hRigid hNotMono => ?_⟩
  · -- a solution of an older variable is there inside, and stays when the level is left
    obtain ⟨e, he, -⟩ := solution?_eq_some.1 hx
    obtain ⟨e', he', -⟩ := hKept.kept x e he
    have hInside : q.solution? x = some m := h.solved x m (by rwa [solution?, find?_enter])
    rw [← hInside, solution?, solution?, he', ((hFind x e').1 he').1]
  · have hInside := h.rigid x e (by rwa [find?_enter]) hRigid hNotMono
    exact hInside.leave hNarrows.wellFormed hLevel (hKept.binds ⟨e, he⟩)
      (hKept.covers fun y hy => hp.scoping.binds ⟨e, he, hy⟩)

theorem Grows.kept {y : String} {b : Bound} {e : Entry} (h : p.Grows q x b)
    (he : p.find? y = some e) : q.find? y = some e := by
  have hne : y ≠ x := by
    rintro rfl
    exact h.fresh ⟨e, he⟩
  rw [h.find?, if_neg hne, he]

theorem instantiateWith_kept (hLevel : 1 ≤ p.level) {bs : List Binding} {s : Subst} {e : Entry}
    (he : p.find? x = some e) : (p.instantiateWith s bs).2.find? x = some e := by
  induction bs generalizing p s with
  | nil => exact he
  | cons b bs ih =>
    have hGrows := newType_grows hLevel ⟨b.bound.kind, b.bound.type.subst s⟩
    exact ih (hLevel.trans_eq hGrows.level.symm) (hGrows.kept he)

/-- New variables leave those in play as they are. -/
theorem opened_fixes (hLevel : 1 ≤ p.level) (t : Polytype) : p.Fixes (p.opened t).2 := by
  refine .of_kept fun x e he => ⟨e, ?_, rfl⟩
  unfold opened
  split
  · exact instantiateWith_kept hLevel he
  · exact (newType_grows hLevel .unbounded).kept he

/-! ## New bounds -/

/-- A variable that is not rigid may be solved. -/
theorem solve_fixes (hx : p.find? x = some ex) (hUnsolved : ex.bound.type.mono? = none)
    (hFlexible : ex.bound.kind ≠ .rigid) (b : Bound) : p.Fixes (p.update x b) := by
  have hUpdates := update_updates ⟨ex, hx⟩ b
  -- all other variables keep their bounds
  have hOther {y : String} {e : Entry} (he : p.find? y = some e) (hyx : y ≠ x) :
      ∃ e', (p.update x b).find? y = some e' ∧ e'.bound = e.bound := by
    obtain ⟨l, hNew, -⟩ := hUpdates.bound y e he
    exact ⟨_, hNew, if_neg hyx⟩
  refine ⟨fun y m hy => ?_, fun y e he hRigid hNotMono => ?_⟩
  · obtain ⟨e, he, ht⟩ := solution?_eq_some.1 hy
    have hyx : y ≠ x := by
      rintro rfl
      obtain rfl := Option.some.inj (hx.symm.trans he)
      simp [ht, Polytype.mono?] at hUnsolved
    obtain ⟨e', he', hBound⟩ := hOther he hyx
    exact solution?_eq_some.2 ⟨e', he', by rw [hBound, ht]⟩
  · have hyx : y ≠ x := by
      rintro rfl
      obtain rfl := Option.some.inj (hx.symm.trans he)
      exact hFlexible hRigid
    obtain ⟨e', he', hBound⟩ := hOther he hyx
    rw [← hBound] at hRigid hNotMono ⊢
    exact .of_bound he' hRigid hNotMono

/-- A variable may get a new bound, and a second one may stand for it, if the new bound is rigid and
equivalent to the old one wherever that was rigid. -/
theorem link_fixes (hp : p.Acyclic) {y : String} {ey : Entry} {b : Bound}
    (hx : p.find? x = some ex) (hy : p.find? y = some ey) (hne : x ≠ y)
    (hxUnsolved : ex.bound.type.mono? = none) (hyUnsolved : ey.bound.type.mono? = none)
    (hSame : ∀ old ∈ [ex.bound, ey.bound], old.kind = .rigid → b.kind = .rigid ∧
      b.type.mono? = none ∧ (p.resolved old.type).equivalent (p.resolved b.type) = true)
    (hq : ((p.update x b).update y ⟨.flexible, .mono (.var x)⟩).Acyclic) :
    p.Fixes ((p.update x b).update y ⟨.flexible, .mono (.var x)⟩) := by
  have hFirst := update_updates ⟨ex, hx⟩ b
  have hSecond := update_updates ((hFirst.binds y).2 ⟨ey, hy⟩) ⟨.flexible, .mono (.var x)⟩
  generalize (p.update x b).update y ⟨.flexible, .mono (.var x)⟩ = q at hSecond hq ⊢
  -- the bounds afterwards
  have hBound {z : String} {e : Entry} (he : p.find? z = some e) : ∃ e', q.find? z = some e' ∧
      e'.bound = if z = y then ⟨.flexible, .mono (.var x)⟩ else if z = x then b else e.bound := by
    obtain ⟨l, hMiddle, -⟩ := hFirst.bound z e he
    obtain ⟨l', hNew, -⟩ := hSecond.bound z _ hMiddle
    exact ⟨_, hNew, rfl⟩
  have hSolved (z : String) (m : Monotype) (hz : p.solution? z = some m) :
      q.solution? z = some m := by
    obtain ⟨e, he, ht⟩ := solution?_eq_some.1 hz
    obtain ⟨e', he', hEq⟩ := hBound he
    have hzy : z ≠ y := by
      rintro rfl
      obtain rfl := Option.some.inj (hy.symm.trans he)
      simp [ht, Polytype.mono?] at hyUnsolved
    have hzx : z ≠ x := by
      rintro rfl
      obtain rfl := Option.some.inj (hx.symm.trans he)
      simp [ht, Polytype.mono?] at hxUnsolved
    rw [if_neg hzy, if_neg hzx] at hEq
    exact solution?_eq_some.2 ⟨e', he', by rw [hEq, ht]⟩
  obtain ⟨ex', hx', hxBound⟩ := hBound hx
  rw [if_neg hne, if_pos rfl] at hxBound
  -- where one of the two variables was rigid, the one that is left holds its bound
  have hHolds {z : String} {old : Bound} (hLinks : ReflTransGen q.Links z x)
      (hOld : old ∈ [ex.bound, ey.bound]) (hRigid : old.kind = .rigid) : q.Holds z old.type := by
    obtain ⟨hKind, hNotMono, hEquiv⟩ := hSame old hOld hRigid
    rw [← hxBound] at hKind hNotMono hEquiv
    exact ⟨x, ex', hLinks, hx', hKind, hNotMono, equivalent_resolved_of_keeps hp hq hSolved hEquiv⟩
  refine ⟨hSolved, fun z e he hRigid hNotMono => ?_⟩
  by_cases hzx : z = x
  · subst hzx
    obtain rfl := Option.some.inj (hx.symm.trans he)
    exact hHolds .refl (by simp) hRigid
  by_cases hzy : z = y
  · subst hzy
    obtain rfl := Option.some.inj (hy.symm.trans he)
    obtain ⟨ey', hy', hyBound⟩ := hBound hy
    rw [if_pos rfl] at hyBound
    have hLink : q.Links z x := solution?_eq_some.2 ⟨ey', hy', by rw [hyBound]⟩
    exact hHolds (.single hLink) (by simp) hRigid
  · -- other variables keep their bounds
    obtain ⟨e', he', hEq⟩ := hBound he
    rw [if_neg hzy, if_neg hzx] at hEq
    rw [← hEq] at hRigid hNotMono ⊢
    exact .of_bound he' hRigid hNotMono

/-- Two variables may become one in the same way. -/
theorem merge_fixes (hp : p.Acyclic) {y : String} {ey : Entry} {b : Bound}
    (hx : p.find? x = some ex) (hy : p.find? y = some ey) (hne : x ≠ y)
    (hxUnsolved : ex.bound.type.mono? = none) (hyUnsolved : ey.bound.type.mono? = none)
    (hSame : ∀ old ∈ [ex.bound, ey.bound], old.kind = .rigid → b.kind = .rigid ∧
      b.type.mono? = none ∧ (p.resolved old.type).equivalent (p.resolved b.type) = true)
    (hq : (p.merge x y b).2.Acyclic) : p.Fixes (p.merge x y b).2 := by
  obtain ⟨stays, goes, hWhich, hEq⟩ := merge_eq ⟨ex, hx⟩ ⟨ey, hy⟩ b
  rw [hEq] at hq ⊢
  rcases hWhich with ⟨rfl, rfl⟩ | ⟨rfl, rfl⟩
  · exact link_fixes hp hx hy hne hxUnsolved hyUnsolved hSame hq
  · refine link_fixes hp hy hx hne.symm hyUnsolved hxUnsolved (fun old hOld => hSame old ?_) hq
    simpa [or_comm] using hOld

end Prefix

namespace Unify

/-! ## Steps and runs -/

/-- Runs take no solution back and narrow no rigid bound. -/
def Fixing (R : Behavior) : Prop :=
  ∀ {p q : Prefix} {a e : Monotype} {ds : List Diagnostic}, R p a e (some (q, ds)) →
    p.WellFormed → p.Covers a → p.Covers e → p.Fixes q

/-- A run on types with quantifiers takes no solution back and narrows no rigid bound: opening them
adds variables only, and the level is left afterwards. -/
theorem PolyRun.fixes {R : Behavior} (hSafe : Safe R) (hR : Fixing R) {a e t : Polytype}
    {ds : List Diagnostic} (h : PolyRun R p a e (some (q, ds, t))) (hp : p.WellFormed)
    (ha : p.Covers a) (he : p.Covers e) : p.Fixes q := by
  cases h with
  | left => exact .refl p
  | right => exact .refl p
  | mono hRun => exact hR hRun hp ha he
  | @opened _ _ q ds _ _ hRun =>
    have hPair := opensPair hp ha he (closed_univ _) (fun _ _ => trivial) fun _ _ => trivial
    obtain ⟨hInside, -, hCovers⟩ := hPair.run hSafe hRun
    have hSame : (q.generalize (p.enter.opened a).1).2 = q := by
      rw [generalize_eq hInside.wellFormed.scoping hCovers]
    rw [hSame]
    have hEnter := one_le_level_enter p
    have hFirst := opened_fixes hEnter a
    have hSecond := opened_fixes (hPair.first.narrows.one_le_level hEnter) e
    have hRest := hR hRun hPair.narrows.wellFormed hPair.coversActual hPair.second.covers
    -- the first type is opened, then the second one, and then there is the run
    have hOpened := hFirst.trans hSecond hPair.first.narrows.wellFormed.acyclic
      hPair.narrows.wellFormed.acyclic
    exact (hOpened.trans hRest hPair.narrows.wellFormed.acyclic hInside.wellFormed.acyclic).leave hp
      hInside

/-- Variables whose new bound fixes what they had, given the last checks before they are tied. -/
def Tie.Fixed (T : Tie) (p : Prefix) : Prop :=
  ∀ {q : Prefix} {t : Polytype}, q.Acyclic → (T.target t).IsNormal →
    (∀ x ∈ T.vars, ∀ e, p.find? x = some e → q.find? x = some e) →
    (∀ b ∈ T.bounds, b.kind = .rigid →
      (q.resolved (T.target t)).equivalent (q.resolved b.type) = true) →
    (T.finish q t).Acyclic → q.Fixes (T.finish q t)

theorem Tie.solve_fixed (hp : p.WellFormed) (hx : p.find? x = some ex)
    (hUnsolved : p.solution? x = none) (t : Monotype) (swapped : Bool) :
    (Tie.solve x ex.bound t swapped).Fixed p := by
  rw [solution?_eq_none hx] at hUnsolved
  intro q u hq _ hKept hSame _
  refine solve_fixes (hKept x (by simp [Tie.solve]) ex hx) hUnsolved (fun hRigid => ?_) _
  -- a rigid bound is no monotype, so none is equivalent to it
  have hEquiv : (q.resolved (.mono t)).equivalent (q.resolved ex.bound.type) = true :=
    hSame ex.bound (by simp [Tie.solve]) hRigid
  have hMono := (mono?_eq_none_iff_of_equivalent (Polytype.isNormal_mono t) (hp.normal x ex hx)
    hEquiv).2 hUnsolved
  simp [Polytype.mono?] at hMono

/-- Two variables that become one get a bound that is rigid if one of theirs was, and the last
checks were that it is equivalent to those that were rigid. -/
theorem Tie.merge_fixed (hp : p.WellFormed) {y : String} (hne : x ≠ y) {ey : Entry}
    (hx : p.find? x = some ex) (hy : p.find? y = some ey) (hxUnsolved : p.solution? x = none)
    (hyUnsolved : p.solution? y = none) : (Tie.merge x y ex.bound ey.bound).Fixed p := by
  rw [solution?_eq_none hx] at hxUnsolved
  rw [solution?_eq_none hy] at hyUnsolved
  intro q t hq hNormal hKept hSame hFinish
  refine merge_fixes hq (hKept x (by simp [Tie.merge]) ex hx) (hKept y (by simp [Tie.merge]) ey hy)
    hne hxUnsolved hyUnsolved (fun old hOld hRigid => ?_) hFinish
  have hEquiv := hSame old hOld hRigid
  -- one of the two bounds was rigid, in normal form and not solved
  have hOldNormal : old.type.IsNormal ∧ old.type.mono? = none ∧
      (ex.bound.kind = .rigid ∨ ey.bound.kind = .rigid) := by
    simp only [List.mem_cons, List.not_mem_nil, or_false] at hOld
    rcases hOld with rfl | rfl
    · exact ⟨hp.normal x ex hx, hxUnsolved, Or.inl hRigid⟩
    · exact ⟨hp.normal y ey hy, hyUnsolved, Or.inr hRigid⟩
  -- so the new bound is rigid, not a solution either, and equivalent to the old one
  refine ⟨if_pos hOldNormal.2.2,
    (mono?_eq_none_iff_of_equivalent hNormal hOldNormal.1 hEquiv).2 hOldNormal.2.1, ?_⟩
  rw [Polytype.equivalent_iff_norm_eq] at hEquiv ⊢
  exact hEquiv.symm

/-- Tying variables narrows no rigid bound, whether it succeeds or not. -/
theorem TieRun.fixes {R : Behavior} (hSafe : Safe R) (hR : Fixing R) {T : Tie}
    {ds : List Diagnostic} (h : TieRun R p T (some (q, ds))) (hp : p.WellFormed) {Z : Set String}
    (hZ : p.Closed Z) (hT : T.Fits p Z) (hFixed : T.Fixed p) : p.Fixes q := by
  have hFinal := (h.narrows hSafe hp hZ hT 0).1.wellFormed.acyclic
  -- up to the last step
  have hPolyFixes {q : Prefix} {ds : List Diagnostic} {t : Polytype}
      (hPoly : PolyRun R p T.actual T.expected (some (q, ds, t))) : p.Fixes q ∧ q.Acyclic :=
    ⟨hPoly.fixes hSafe hR hp hT.actual.1 hT.expected.1,
      (hT.poly hSafe hp hZ hPoly 0).narrows.wellFormed.acyclic⟩
  cases h with
  | clash _ _ hQuiet _ => exact hQuiet.fixes
  | cycle _ _ hQuiet _ => exact hQuiet.fixes
  | failed hPoly => exact (hPolyFixes hPoly).1
  | rigid hPoly _ _ hQuiet _ =>
    obtain ⟨hFixes, hAcyclic⟩ := hPolyFixes hPoly
    exact hFixes.trans hQuiet.fixes hAcyclic hFinal
  | knot hPoly _ _ hQuiet _ =>
    obtain ⟨hFixes, hAcyclic⟩ := hPolyFixes hPoly
    exact hFixes.trans hQuiet.fixes hAcyclic hFinal
  | @tied q₁ q₂ t hBegins hPoly hQuiet hFree hSame =>
    obtain ⟨hFixes, hAcyclic⟩ := hPolyFixes hPoly
    have hBooks := hFixes.trans hQuiet.fixes hAcyclic (hQuiet.acyclic.2 hAcyclic)
    have hNormal := (hT.target_safe (hT.poly hSafe hp hZ hPoly 0)).normal
    refine hBooks.trans (hFixed (hQuiet.acyclic.2 hAcyclic) hNormal (fun x hx e he => ?_) hSame
      hFinal) (hQuiet.acyclic.2 hAcyclic) hFinal
    -- the two types do not lead to the variables, which so have their bounds still
    rw [hQuiet.find?]
    exact hT.kept hSafe hp (hBegins.apart hp.acyclic) hPoly hx he

/-- One step narrows no rigid bound, if the runs that it calls do not. -/
theorem StepRun.fixes {R : Behavior} (hSafe : Safe R) (hR : Fixing R) : Fixing (StepRun R) := by
  intro p q a e ds h hp ha he
  have hFinal := (Safe.narrows (StepRun.narrows hSafe) h hp ha he 0).wellFormed.acyclic
  -- a variable at the top of a type has no solution
  have hUnsolved {p' : Prefix} (hQuiet : p.Quiet p') {t : Monotype} {x : String}
      (hTop : p.top t = .var x) : p'.solution? x = none := by
    rw [hQuiet.solution?]
    exact hp.acyclic.solution?_top hTop
  cases h with
  | same _ hQuiet => exact hQuiet.fixes
  | unbound _ _ hQuiet => exact hQuiet.fixes
  | merge hxTop hyTop hne hQuiet hx hy hTie =>
    have hp' := (hQuiet.wellFormed hp).1
    exact hQuiet.fixes.trans (hTie.fixes hSafe hR hp' (closed_univ _)
      (Tie.merge_fits hp' hne hx hy (closed_univ _) trivial trivial)
      (Tie.merge_fixed hp' hne hx hy (hUnsolved hQuiet hxTop) (hUnsolved hQuiet hyTop)))
      hp'.acyclic hFinal
  | @solve p' x t ex swapped _ hTops _ hQuiet hx hTie =>
    have hp' := (hQuiet.wellFormed hp).1
    have hSides : p'.solution? x = none ∧ p.Covers t := by
      cases swapped with
      | true => exact ⟨hUnsolved hQuiet hTops.2, hTops.1 ▸ hp.scoping.covers_top ha⟩
      | false => exact ⟨hUnsolved hQuiet hTops.1, hTops.2 ▸ hp.scoping.covers_top he⟩
    exact hQuiet.fixes.trans (hTie.fixes hSafe hR hp' (closed_univ _)
      (Tie.solve_fits hp' hx (hQuiet.covers hSides.2) swapped (closed_univ _) trivial
        fun _ _ => trivial)
      (Tie.solve_fixed hp' hx hSides.1 t swapped)) hp'.acyclic hFinal
  | clash _ hQuiet _ => exact hQuiet.fixes
  | fn haTop heTop hQuiet hPair hParam hBody =>
    obtain ⟨hu, hv, ha₂, he₂⟩ := hQuiet.covers_parts hp ha he haTop heTop hPair
    have hp' := (hQuiet.wellFormed hp).1
    have hNarrows := hSafe.narrows hParam hp' hu hv 0
    have hFirst := hR hParam hp' hu hv
    have hSecond := hR hBody hNarrows.wellFormed (hNarrows.covers ha₂) (hNarrows.covers he₂)
    have hParts := hFirst.trans hSecond hNarrows.wellFormed.acyclic hFinal
    exact hQuiet.fixes.trans hParts hp'.acyclic hFinal

theorem run_fixes (fuel : Nat) : Fixing (Run fuel) := by
  induction fuel with
  | zero => exact fun h => nomatch h
  | succ n ih => exact StepRun.fixes (run_safe n) ih

theorem within_fixes {fuel : Nat} {a e : Monotype} {call : Bool} {s s' : Session}
    {verdict : Verdict} (h : within fuel a e call s = .ok (verdict, s')) (hp : s.vars.WellFormed)
    (ha : s.vars.Covers a) (he : s.vars.Covers e) : s.vars.Fixes s'.vars := by
  obtain ⟨ds, hRun, -, -⟩ := run_of_within_ok h
  exact run_fixes fuel hRun hp ha he

/-- Unification never narrows a rigid bound, whether it succeeds or fails: links lead from a rigid
variable to one that is rigid again, with a bound that is equivalent once solved variables are
replaced. -/
theorem unify_holds_rigid {p : Prefix} (hp : p.WellFormed) {a e : Monotype} (ha : p.Covers a)
    (he : p.Covers e) {fuel : Nat} {sink : Sink} {verdict : Verdict} {s : Session}
    (hRun : Mlf.unify fuel a e ⟨p, sink⟩ = .ok (verdict, s) ∨
      Mlf.unifyCall fuel a e ⟨p, sink⟩ = .ok (verdict, s))
    {x : String} {l : Nat} {t : Polytype} (hx : p.find? x = some ⟨l, ⟨.rigid, t⟩⟩)
    (hNotMono : t.mono? = none) : s.vars.Holds x t := by
  have hFixes : p.Fixes s.vars := by
    rcases hRun with hRun | hRun
    · exact within_fixes hRun hp ha he
    · exact within_fixes hRun hp ha he
  exact hFixes.rigid x ⟨l, ⟨.rigid, t⟩⟩ hx rfl hNotMono

/-- A rigid variable becomes one with an older one, which holds its bound although the call fails.
-/
theorem unify_holds_rigid_link : ∃ p d s,
    p = ((empty.enter.add "y" .unbounded).enter.add "x" ⟨.rigid, .all "b" .flexible .bottom
      (.mono (.fn (.var "b") (.var "b")))⟩) ∧
    Mlf.unify 4 (.fn (.var "x") (.const .number)) (.fn (.var "y") (.const .boolean))
      ⟨p, .empty⟩ = .ok (some d, s) ∧
    s.vars.Links "x" "y" ∧
    s.vars.Holds "x" (.all "b" .flexible .bottom (.mono (.fn (.var "b") (.var "b")))) := by
  obtain ⟨p, d, s, hEq, hRun, hLink⟩ : ∃ p d s,
      p = ((empty.enter.add "y" .unbounded).enter.add "x" ⟨.rigid, .all "b" .flexible .bottom
        (.mono (.fn (.var "b") (.var "b")))⟩) ∧
      Mlf.unify 4 (.fn (.var "x") (.const .number)) (.fn (.var "y") (.const .boolean))
        ⟨p, .empty⟩ = .ok (some d, s) ∧
      s.vars.solution? "x" = some (.var "y") := ⟨_, _, _, rfl, by cbv, by cbv⟩
  have hp : p.WellFormed := by
    subst hEq
    exact (wellFormed_empty.enter.add (by decide)).enter.add (by decide)
  have hx : p.find? "x" = some ⟨2, ⟨.rigid, .all "b" .flexible .bottom
      (.mono (.fn (.var "b") (.var "b")))⟩⟩ := by
    subst hEq
    rfl
  have hActual : p.Covers (Monotype.fn (.var "x") (.const .number)) := by
    subst hEq
    decide
  have hExpected : p.Covers (Monotype.fn (.var "y") (.const .boolean)) := by
    subst hEq
    decide
  exact ⟨p, d, s, hEq, hRun, hLink, unify_holds_rigid hp hActual hExpected (Or.inl hRun) hx rfl⟩

end Unify

end Mlf
