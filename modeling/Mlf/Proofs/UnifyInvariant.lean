import Mlf.Proofs.UnifyRun

/-!
# What unification keeps

Unification narrows the variables in play within what its two types reach, whether it succeeds or
not, and it reports no fault of its own. Failed runs stop in the middle of a narrowing, so the
invariant has to hold after each of its parts.

The proof follows the relation of runs: the parts narrow, a narrowing at a level of its own is one
when the level is left, and a variable gets a new bound only after it was checked that the bound
does not lead to the variable.

Main results:

* `PolyRun.narrows`, `TieRun.narrows`, `StepRun.narrows` — one step;
* `run_safe`, `within_narrows` — a whole run.
-/

namespace Mlf

open Prefix

variable {R : Unify.Behavior} {p q : Prefix} {t : Polytype} {x : String} {ds : List Diagnostic}
  {Z : Set String} {T : Unify.Tie}

namespace Prefix

theorem Quiet.wellFormed (h : p.Quiet q) (hp : p.WellFormed) :
    q.WellFormed ∧ q.failures = p.failures :=
  ⟨hp.congr h.entries h.levels, h.failures hp.acyclic⟩

theorem Quiet.narrows (h : p.Quiet q) (hp : p.WellFormed) (k : Nat) (hZ : p.Closed Z) :
    Narrows k p q Z where
  wellFormed := (h.wellFormed hp).1
  level := by rw [level, h.levels, level]
  failures := (h.wellFormed hp).2
  kept x e he := ⟨e, by rw [h.find?, he], Nat.le_refl _, fun _ => rfl⟩
  closed x hx y hxy := by
    rw [h.mentions] at hxy
    exact hZ.allowed x hx y hxy
  older x e he _ := ⟨x, e, by rw [← h.find?, he], Nat.le_refl _⟩

theorem Closed.top (hZ : p.Closed Z) {t : Monotype} (ht : ∀ x ∈ t.freeVars, x ∈ Z) :
    ∀ x ∈ (p.top t).freeVars, x ∈ Z := by
  intro y hy
  obtain ⟨x, hx, hxy⟩ := follow_reaches hy
  exact hZ.reaches (ht x hx) hxy

/-- The parts of two types with function tops stay where the types are. -/
theorem Closed.parts (hZ : p.Closed Z) {a e a₁ a₂ e₁ e₂ u v : Monotype}
    (ha : ∀ x ∈ a.freeVars, x ∈ Z) (he : ∀ x ∈ e.freeVars, x ∈ Z) (haTop : p.top a = .fn a₁ a₂)
    (heTop : p.top e = .fn e₁ e₂) (hPair : (u = a₁ ∧ v = e₁) ∨ (u = e₁ ∧ v = a₁)) :
    ((∀ x ∈ u.freeVars, x ∈ Z) ∧ ∀ x ∈ v.freeVars, x ∈ Z) ∧
      (∀ x ∈ a₂.freeVars, x ∈ Z) ∧ ∀ x ∈ e₂.freeVars, x ∈ Z := by
  have haTops := hZ.top ha
  have heTops := hZ.top he
  simp only [haTop, heTop, Monotype.freeVars, NameSet.mem_union, or_imp, forall_and] at haTops heTops
  rcases hPair with ⟨rfl, rfl⟩ | ⟨rfl, rfl⟩
  · exact ⟨⟨haTops.1, heTops.1⟩, haTops.2, heTops.2⟩
  · exact ⟨⟨heTops.1, haTops.1⟩, haTops.2, heTops.2⟩

theorem Scoped.closed (hp : p.Scoped) : p.Closed {x | p.Binds x} :=
  fun _ _ _ hxy => hp.binds hxy

theorem Scoped.covers_top (hp : p.Scoped) {t : Monotype} (ht : p.Covers t) : p.Covers (p.top t) :=
  hp.closed.top ht

theorem Scoped.binds_top (hp : p.Scoped) {t : Monotype} (ht : p.Covers t) (hx : p.top t = .var x) :
    p.Binds x :=
  hp.covers_top ht x (by rw [hx]; simp [Polytype.freeVars, Monotype.freeVars])

theorem Closed.mem_top (hZ : p.Closed Z) {t : Monotype} (ht : ∀ x ∈ t.freeVars, x ∈ Z)
    (hx : p.top t = .var x) : x ∈ Z :=
  hZ.top ht x (by rw [hx]; simp [Monotype.freeVars])

theorem not_reaches_of_occurs (h : p.occurs x t = false) : ∀ y ∈ t.freeVars, ¬ p.Reaches y x :=
  fun y hy hyx => Bool.eq_false_iff.1 h (occurs_iff.2 ⟨y, hy, hyx⟩)

/-- Giving one variable a new bound and making a second one stand for it narrows a prefix, if the
new bound leads to neither. -/
theorem link_narrows (hp : p.WellFormed) {y : String} {b : Bound} (hx : p.Binds x)
    (hy : p.Binds y) (hne : x ≠ y) (hNormal : b.type.IsNormal) (hCovers : p.Covers b.type)
    (hApart : ∀ z ∈ b.type.freeVars, ¬ p.Reaches z x ∧ ¬ p.Reaches z y) (k : Nat)
    (hZ : p.Closed Z) (hxZ : x ∈ Z) (hyZ : y ∈ Z) (hBound : ∀ z ∈ b.type.freeVars, z ∈ Z) :
    Narrows k p (p.update x b) Z ∧
      Narrows k p ((p.update x b).update y ⟨.flexible, .mono (.var x)⟩) Z := by
  have hUpdates := update_updates hx b
  have hFirst := update_narrows hp hx hNormal hCovers (fun z hz => (hApart z hz).1) k hZ hxZ hBound
  have hVar {z : String} (hz : z ∈ (Polytype.mono (.var x)).freeVars) : z = x := by
    simpa [Polytype.freeVars, Monotype.freeVars] using hz
  -- the second variable gets a bound that mentions the first one only, which does not lead back to
  -- it
  refine ⟨hFirst, hFirst.trans (update_narrows (b := ⟨.flexible, .mono (.var x)⟩) hFirst.wellFormed
    (hFirst.binds hy) trivial (fun z hz => ?_) (fun z hz => ?_) k hFirst.closed (fun _ => hyZ)
    fun z hz _ => ?_)⟩
  · rw [hVar hz]
    exact hFirst.binds hx
  · rw [hVar hz]
    exact hUpdates.not_reaches hx hne hApart
  · rw [hVar hz]
    exact hxZ

/-- Making two variables one narrows a prefix, if the new bound leads to neither. -/
theorem merge_narrows (hp : p.WellFormed) {y : String} {b : Bound} (hx : p.Binds x)
    (hy : p.Binds y) (hne : x ≠ y) (hNormal : b.type.IsNormal) (hCovers : p.Covers b.type)
    (hApart : ∀ z ∈ b.type.freeVars, ¬ p.Reaches z x ∧ ¬ p.Reaches z y) (k : Nat)
    (hZ : p.Closed Z) (hxZ : x ∈ Z) (hyZ : y ∈ Z) (hBound : ∀ z ∈ b.type.freeVars, z ∈ Z) :
    Narrows k p (p.merge x y b).2 Z := by
  obtain ⟨stays, goes, hWhich, hEq⟩ := merge_eq hx hy b
  rw [hEq]
  rcases hWhich with ⟨rfl, rfl⟩ | ⟨rfl, rfl⟩
  · exact (link_narrows hp hx hy hne hNormal hCovers hApart k hZ hxZ hyZ hBound).2
  · exact (link_narrows hp hy hx hne.symm hNormal hCovers (fun z hz => (hApart z hz).symm) k hZ hyZ
      hxZ hBound).2

end Prefix

namespace Unify

/-- Runs narrow the variables in play within what the two types reach, and report no faults. -/
def Safe (R : Behavior) : Prop :=
  ∀ {p q : Prefix} {a e : Monotype} {ds : List Diagnostic} {Z : Set String},
    R p a e (some (q, ds)) → p.WellFormed → p.Covers a → p.Covers e → p.Closed Z →
    (∀ x ∈ a.freeVars, x ∈ Z) → (∀ x ∈ e.freeVars, x ∈ Z) →
    ∀ k, Narrows k p q Z ∧ ∀ d ∈ ds, d.Plain

/-- A run after a narrowing narrows further. -/
theorem Safe.after (hR : Safe R) {k : Nat} {p' : Prefix} (hNarrows : Narrows k p p' Z)
    {a e : Monotype} (h : R p' a e (some (q, ds))) (ha : p'.Covers a) (he : p'.Covers e)
    (haZ : ∀ x ∈ a.freeVars, x ∈ p.Allowed Z) (heZ : ∀ x ∈ e.freeVars, x ∈ p.Allowed Z) :
    Narrows k p q Z ∧ ∀ d ∈ ds, d.Plain := by
  obtain ⟨hNext, hPlain⟩ := hR h hNarrows.wellFormed ha he hNarrows.closed haZ heZ k
  exact ⟨hNarrows.trans hNext, hPlain⟩

/-! ## Types with quantifiers -/

/-- Instances of two types, one after the other at a level of their own. -/
structure OpensPair (p : Prefix) (a e : Polytype) (Z : Set String) : Prop where
  first : Opens p.enter (p.enter.opened a).2 Z (p.enter.opened a).1 a.Inst
  second : Opens (p.enter.opened a).2 ((p.enter.opened a).2.opened e).2 (p.enter.Allowed Z)
    ((p.enter.opened a).2.opened e).1 e.Inst
  narrows : Narrows (p.level + 1) p.enter ((p.enter.opened a).2.opened e).2 Z
  coversActual : ((p.enter.opened a).2.opened e).2.Covers (p.enter.opened a).1
  allowedExpected : ∀ x ∈ ((p.enter.opened a).2.opened e).1.freeVars, x ∈ p.enter.Allowed Z

theorem opensPair (hp : p.WellFormed) {a e : Polytype} (ha : p.Covers a) (he : p.Covers e)
    (hZ : p.Closed Z) (haZ : ∀ x ∈ a.freeVars, x ∈ Z) (heZ : ∀ x ∈ e.freeVars, x ∈ Z) :
    OpensPair p a e Z := by
  have hEnter : p.enter.Mentions = p.Mentions := mentions_congr (find?_enter p)
  have hBinds {x : String} (hx : p.Binds x) : p.enter.Binds x := by
    rwa [Binds, find?_enter]
  have hLevel : p.enter.level = p.level + 1 := rfl
  have hFirst : Opens p.enter (p.enter.opened a).2 Z (p.enter.opened a).1 a.Inst :=
    opened_opens hp.enter (by omega) (by rwa [Closed, hEnter]) (fun x hx => hBinds (ha x hx)) haZ
  have hLevel' : (p.enter.opened a).2.level = p.level + 1 := hFirst.narrows.level
  -- the second type is over variables that were in play before the first one was opened
  have hSecond := opened_opens hFirst.narrows.wellFormed (by omega) hFirst.narrows.closed
    (fun x hx => hFirst.narrows.binds (hBinds (he x hx))) fun x hx _ => heZ x hx
  refine ⟨hFirst, hSecond, ?_, hSecond.narrows.covers hFirst.covers, fun x hx => ?_⟩
  · have hNext := hSecond.narrows
    rw [hLevel'] at hNext
    exact hFirst.narrows.trans hNext
  · exact hFirst.narrows.allowed_subset (hSecond.allowed x hx)

/-- A run on instances of two types, before the level is left. -/
theorem OpensPair.run (hR : Safe R) {a e : Polytype} (h : OpensPair p a e Z)
    (hRun : R ((p.enter.opened a).2.opened e).2 (p.enter.opened a).1
      ((p.enter.opened a).2.opened e).1 (some (q, ds))) :
    Narrows (p.level + 1) p.enter q Z ∧ (∀ d ∈ ds, d.Plain) ∧ q.Covers (p.enter.opened a).1 := by
  obtain ⟨hRest, hPlain⟩ := hR hRun h.narrows.wellFormed h.coversActual h.second.covers
    h.narrows.closed h.first.allowed h.allowedExpected (p.level + 1)
  exact ⟨h.narrows.trans hRest, hPlain, hRest.covers h.coversActual⟩

/-- What a run on types with quantifiers keeps, and where its common instances live. -/
structure PolySafe (k : Nat) (p q : Prefix) (ds : List Diagnostic) (t : Polytype) (Z : Set String) :
    Prop where
  narrows : Narrows k p q Z
  plain : ∀ d ∈ ds, d.Plain
  covers : q.Covers t
  normal : t.IsNormal
  allowed : ∀ x ∈ t.freeVars, x ∈ p.Allowed Z

/-- A run on types with quantifiers narrows, and its common instances are in normal form and over
variables in play when its level is left. -/
theorem PolyRun.narrows (hR : Safe R) {a e : Polytype} (h : PolyRun R p a e (some (q, ds, t)))
    (hp : p.WellFormed) (ha : p.Covers a) (he : p.Covers e) (haNormal : a.IsNormal)
    (heNormal : e.IsNormal) (hZ : p.Closed Z) (haZ : ∀ x ∈ a.freeVars, x ∈ Z)
    (heZ : ∀ x ∈ e.freeVars, x ∈ Z) (k : Nat) : PolySafe k p q ds t Z := by
  cases h with
  | left => exact ⟨.refl hp k hZ, by simp, he, heNormal, fun x hx _ => heZ x hx⟩
  | right => exact ⟨.refl hp k hZ, by simp, ha, haNormal, fun x hx _ => haZ x hx⟩
  | mono hRun =>
    obtain ⟨hNarrows, hPlain⟩ := hR hRun hp ha he hZ haZ heZ k
    exact ⟨hNarrows, hPlain, hNarrows.covers ha, trivial, fun x hx _ => haZ x hx⟩
  | @opened _ _ q ds _ _ hRun =>
    have hPair := opensPair hp ha he hZ haZ heZ
    obtain ⟨hInside, hPlain, hCovers⟩ := hPair.run hR hRun
    have hSame : (q.generalize (p.enter.opened a).1).2 = q := by
      rw [generalize_eq hInside.wellFormed.scoping hCovers]
    rw [hSame]
    -- the level is left with a type over older variables
    have hLevel := hInside.one_le_level (one_le_level_enter p)
    refine ⟨hInside.leave hp.owned k, hPlain, covers_generalize hInside.wellFormed hLevel hCovers, ?_,
      fun x hx hb => ?_⟩
    · rw [generalize_eq hInside.wellFormed.scoping hCovers]
      exact Polytype.isNormal_quantifyAll _ trivial
    · obtain ⟨-, y, hy, hReach⟩ := freeVars_generalize hInside.wellFormed.scoping
        hInside.wellFormed.acyclic hCovers hx
      exact hInside.closed.reaches (hPair.first.allowed y hy) hReach (by rwa [Binds, find?_enter])

/-! ## Tied variables -/

/-- Variables fit to be tied: they and the types are over variables in play, in normal form, and
giving the variables a bound that does not lead to them narrows. -/
structure Tie.Fits (T : Tie) (p : Prefix) (Z : Set String) : Prop where
  binds : ∀ x ∈ T.vars, p.Binds x
  vars : ∀ x ∈ T.vars, x ∈ Z
  actual : p.Covers T.actual ∧ T.actual.IsNormal ∧ ∀ x ∈ T.actual.freeVars, x ∈ Z
  expected : p.Covers T.expected ∧ T.expected.IsNormal ∧ ∀ x ∈ T.expected.freeVars, x ∈ Z
  /-- The new bound is the common instances, or one of the types. -/
  target : (∀ t, T.target t = t) ∨ (∀ t, T.target t = T.actual) ∨ ∀ t, T.target t = T.expected
  finish : ∀ {q : Prefix} {t : Polytype} {Z' : Set String} (k : Nat), q.WellFormed →
    (∀ x ∈ T.vars, q.Binds x ∧ x ∈ Z') → q.Covers (T.target t) → (T.target t).IsNormal →
    (∀ x ∈ (T.target t).freeVars, x ∈ Z') → q.Closed Z' →
    (∀ x ∈ T.vars, q.occurs x (T.target t) = false) → Narrows k q (T.finish q t) Z'

theorem Tie.Fits.poly (hR : Safe R) (hT : T.Fits p Z) (hp : p.WellFormed) (hZ : p.Closed Z)
    (h : PolyRun R p T.actual T.expected (some (q, ds, t))) (k : Nat) : PolySafe k p q ds t Z :=
  h.narrows hR hp hT.actual.1 hT.expected.1 hT.actual.2.1 hT.expected.2.1 hZ hT.actual.2.2
    hT.expected.2.2 k

/-- The names that two types reach. -/
def Region (p : Prefix) (a e : Polytype) : Set String :=
  {x | ∃ y, (y ∈ a.freeVars ∨ y ∈ e.freeVars) ∧ p.Reaches y x}

theorem closed_region (p : Prefix) (a e : Polytype) : p.Closed (Region p a e) := by
  rintro x ⟨y, hy, hyx⟩ z hxz
  exact ⟨y, hy, hyx.tail hxz⟩

theorem not_mem_region {a e : Polytype} (h : p.occurs x a = false ∧ p.occurs x e = false) :
    x ∉ Region p a e := by
  rintro ⟨y, hy | hy, hyx⟩
  · exact not_reaches_of_occurs h.1 y hy hyx
  · exact not_reaches_of_occurs h.2 y hy hyx

/-- A run on two types stays within what they reach. -/
theorem Tie.Fits.poly_region (hR : Safe R) (hT : T.Fits p Z) (hp : p.WellFormed)
    (h : PolyRun R p T.actual T.expected (some (q, ds, t))) (k : Nat) :
    PolySafe k p q ds t (Region p T.actual T.expected) :=
  h.narrows hR hp hT.actual.1 hT.expected.1 hT.actual.2.1 hT.expected.2.1
    (closed_region p T.actual T.expected) (fun x hx => ⟨x, Or.inl hx, .refl⟩)
    (fun x hx => ⟨x, Or.inr hx, .refl⟩) k

/-- Variables that two types do not reach keep their bounds in a run on these types. -/
theorem Tie.Fits.kept (hR : Safe R) (hT : T.Fits p Z) (hp : p.WellFormed)
    (hApart : ∀ x ∈ T.vars, p.occurs x T.actual = false ∧ p.occurs x T.expected = false)
    (h : PolyRun R p T.actual T.expected (some (q, ds, t))) (hx : x ∈ T.vars) {e : Entry}
    (he : p.find? x = some e) : q.find? x = some e := by
  obtain ⟨e', he', -, hSame⟩ := (hT.poly_region hR hp h 0).narrows.kept x e he
  rw [he', hSame (not_mem_region (hApart x hx))]

/-- The new bound of tied variables. -/
theorem Tie.Fits.target_safe {k : Nat} (hT : T.Fits p Z) (h : PolySafe k p q ds t Z) :
    PolySafe k p q ds (T.target t) Z := by
  -- the two types of the tie are as safe after the run as before it
  have old {u : Polytype} (hu : p.Covers u ∧ u.IsNormal ∧ ∀ x ∈ u.freeVars, x ∈ Z) :
      PolySafe k p q ds u Z :=
    ⟨h.narrows, h.plain, h.narrows.covers hu.1, hu.2.1, fun x hx _ => hu.2.2 x hx⟩
  rcases hT.target with hSame | hActual | hExpected
  · rwa [hSame]
  · rw [hActual]
    exact old hT.actual
  · rw [hExpected]
    exact old hT.expected

/-- Tying variables narrows, whether it succeeds or not. -/
theorem TieRun.narrows (hR : Safe R) (h : TieRun R p T (some (q, ds))) (hp : p.WellFormed)
    (hZ : p.Closed Z) (hT : T.Fits p Z) (k : Nat) : Narrows k p q Z ∧ ∀ d ∈ ds, d.Plain := by
  -- keeping books and refusing changes nothing
  have refuse {q q' : Prefix} {d : Diagnostic} (hq : Narrows k p q Z) (hQuiet : q.Quiet q')
      (hd : d.Plain) : Narrows k p q' Z ∧ ∀ d' ∈ [d], d'.Plain :=
    ⟨hq.trans (hQuiet.narrows hq.wellFormed k hq.closed), by simpa using hd⟩
  cases h with
  | clash _ _ hQuiet hd => exact refuse (.refl hp k hZ) hQuiet hd
  | cycle _ _ hQuiet hd => exact refuse (.refl hp k hZ) hQuiet hd
  | failed hPoly =>
    have hSafe := hT.poly hR hp hZ hPoly k
    exact ⟨hSafe.narrows, hSafe.plain⟩
  | rigid hPoly _ _ hQuiet hd => exact refuse (hT.poly hR hp hZ hPoly k).narrows hQuiet hd
  | knot hPoly _ _ hQuiet hd => exact refuse (hT.poly hR hp hZ hPoly k).narrows hQuiet hd
  | tied _ hPoly hQuiet hFree =>
    -- the last check was that the new bound leads to none of the variables
    have hSafe := hT.target_safe (hT.poly hR hp hZ hPoly k)
    have hBooks := hSafe.narrows.trans
      (hQuiet.narrows hSafe.narrows.wellFormed k hSafe.narrows.closed)
    refine ⟨hBooks.trans (hT.finish k hBooks.wellFormed (fun x hx => ?_) (fun x hx => ?_)
      hSafe.normal hSafe.allowed hBooks.closed hFree), by simp⟩
    · exact ⟨hBooks.binds (hT.binds x hx), fun _ => hT.vars x hx⟩
    · exact (hQuiet.binds x).2 (hSafe.covers x hx)

/-- Two variables in play can be tied to each other. -/
theorem Tie.merge_fits (hp : p.WellFormed) {y : String} (hne : x ≠ y) {ex ey : Entry}
    (hx : p.find? x = some ex) (hy : p.find? y = some ey) (hZ : p.Closed Z) (hxZ : x ∈ Z)
    (hyZ : y ∈ Z) : (Tie.merge x y ex.bound ey.bound).Fits p Z where
  binds z hz := by
    simp only [Tie.merge, List.mem_cons, List.not_mem_nil, or_false] at hz
    rcases hz with rfl | rfl
    · exact ⟨ex, hx⟩
    · exact ⟨ey, hy⟩
  vars z hz := by
    simp only [Tie.merge, List.mem_cons, List.not_mem_nil, or_false] at hz
    rcases hz with rfl | rfl
    · exact hxZ
    · exact hyZ
  actual := ⟨fun z hz => hp.scoping.binds ⟨ex, hx, hz⟩, hp.normal x ex hx,
    fun z hz => hZ x hxZ z ⟨ex, hx, hz⟩⟩
  expected := ⟨fun z hz => hp.scoping.binds ⟨ey, hy, hz⟩, hp.normal y ey hy,
    fun z hz => hZ y hyZ z ⟨ey, hy, hz⟩⟩
  target := Or.inl fun _ => rfl
  finish {q t Z'} k hq hVars hCovers hNormal hFree hZ' hApart := by
    simp only [Tie.merge, List.mem_cons, List.not_mem_nil, or_false, forall_eq_or_imp,
      forall_eq] at hVars hApart
    obtain ⟨⟨hxq, hxZ'⟩, hyq, hyZ'⟩ := hVars
    -- the last check said that the new bound leads to neither of the two
    exact merge_narrows hq hxq hyq hne hNormal hCovers (fun z hz =>
      ⟨not_reaches_of_occurs hApart.1 z hz, not_reaches_of_occurs hApart.2 z hz⟩) k hZ' hxZ' hyZ'
      hFree

/-- A variable in play can be tied to a type over the variables in play. -/
theorem Tie.solve_fits (hp : p.WellFormed) {ex : Entry} (hx : p.find? x = some ex) {t : Monotype}
    (ht : p.Covers t) (swapped : Bool) (hZ : p.Closed Z) (hxZ : x ∈ Z)
    (htZ : ∀ y ∈ t.freeVars, y ∈ Z) : (Tie.solve x ex.bound t swapped).Fits p Z := by
  -- the two types of the tie, in whatever order they come
  have hBound : p.Covers ex.bound.type ∧ ex.bound.type.IsNormal ∧
      ∀ y ∈ ex.bound.type.freeVars, y ∈ Z :=
    ⟨fun y hy => hp.scoping.binds ⟨ex, hx, hy⟩, hp.normal x ex hx,
      fun y hy => hZ x hxZ y ⟨ex, hx, hy⟩⟩
  have hType : p.Covers t ∧ (Polytype.mono t).IsNormal ∧ ∀ y ∈ (Polytype.mono t).freeVars, y ∈ Z :=
    ⟨ht, trivial, htZ⟩
  refine ⟨?_, ?_, ?_, ?_, ?_, fun {q u Z'} k hq hVars hCovers hNormal hFree hZ' hApart => ?_⟩
  · simpa [Tie.solve] using ⟨ex, hx⟩
  · simpa [Tie.solve] using hxZ
  · cases swapped with
    | true => exact hType
    | false => exact hBound
  · cases swapped with
    | true => exact hBound
    | false => exact hType
  · cases swapped with
    | true => exact Or.inr (Or.inl fun _ => rfl)
    | false => exact Or.inr (Or.inr fun _ => rfl)
  · simp only [Tie.solve, List.mem_cons, List.not_mem_nil, or_false, forall_eq] at hVars hApart
    exact update_narrows hq hVars.1 hNormal hCovers (not_reaches_of_occurs hApart) k hZ' hVars.2 hFree

/-! ## Steps and runs -/

/-- One step narrows, if the runs that it calls do. -/
theorem StepRun.narrows (hR : Safe R) : Safe (StepRun R) := by
  intro p q a e ds Z h hp ha he hZ haZ heZ k
  -- tops are followed and events are noted before anything else
  have books {p' : Prefix} (hQuiet : p.Quiet p') : Narrows k p p' Z := hQuiet.narrows hp k hZ
  cases h with
  | same _ hQuiet => exact ⟨books hQuiet, by simp⟩
  | unbound hx hUnbound _ =>
    -- the types are over variables in play, and so are their tops
    refine absurd ?_ hUnbound
    rcases hx with hx | hx
    · exact hp.scoping.binds_top ha hx
    · exact hp.scoping.binds_top he hx
  | @merge p' x y ex ey _ hxTop hyTop hne hQuiet hx hy hTie =>
    have hBooks := books hQuiet
    obtain ⟨hNarrows, hPlain⟩ := hTie.narrows hR hBooks.wellFormed hBooks.closed
      (Tie.merge_fits hBooks.wellFormed hne hx hy hBooks.closed (fun _ => hZ.mem_top haZ hxTop)
        fun _ => hZ.mem_top heZ hyTop) k
    exact ⟨hBooks.trans hNarrows, hPlain⟩
  | @solve p' x t ex swapped _ hTops ht hQuiet hx hTie =>
    have hBooks := books hQuiet
    -- whichever side the variable is on
    have hSides : x ∈ Z ∧ p.Covers t ∧ ∀ y ∈ t.freeVars, y ∈ Z := by
      cases swapped with
      | true =>
        obtain ⟨rfl, hxTop⟩ := hTops
        exact ⟨hZ.mem_top heZ hxTop, hp.scoping.covers_top ha, hZ.top haZ⟩
      | false =>
        obtain ⟨hxTop, rfl⟩ := hTops
        exact ⟨hZ.mem_top haZ hxTop, hp.scoping.covers_top he, hZ.top heZ⟩
    obtain ⟨hxZ, htCovers, htZ⟩ := hSides
    obtain ⟨hNarrows, hPlain⟩ := hTie.narrows hR hBooks.wellFormed hBooks.closed
      (Tie.solve_fits hBooks.wellFormed hx (hBooks.covers htCovers) swapped hBooks.closed
        (fun _ => hxZ) fun y hy _ => htZ y hy) k
    exact ⟨hBooks.trans hNarrows, hPlain⟩
  | clash _ hQuiet hd => exact ⟨books hQuiet, by simpa using hd⟩
  | @fn p' q₁ q₂ ds ds' a₁ a₂ e₁ e₂ u v haTop heTop hQuiet hPair hParam hBody =>
    obtain ⟨⟨hu, hv⟩, ha₂, he₂⟩ := hp.scoping.closed.parts ha he haTop heTop hPair
    obtain ⟨⟨huZ, hvZ⟩, ha₂Z, he₂Z⟩ := hZ.parts haZ heZ haTop heTop hPair
    -- the bodies are looked at even if the parameters do not agree
    have hBooks := books hQuiet
    obtain ⟨hFirst, hPlain⟩ := hR.after hBooks hParam (hBooks.covers hu) (hBooks.covers hv)
      (fun x hx _ => huZ x hx) fun x hx _ => hvZ x hx
    obtain ⟨hSecond, hPlain'⟩ := hR.after hFirst hBody (hFirst.covers ha₂) (hFirst.covers he₂)
      (fun x hx _ => ha₂Z x hx) fun x hx _ => he₂Z x hx
    refine ⟨hSecond, fun d hd => ?_⟩
    rcases List.mem_append.1 hd with hd | hd
    · exact hPlain d hd
    · exact hPlain' d hd

theorem run_safe (fuel : Nat) : Safe (Run fuel) := by
  induction fuel with
  | zero => exact fun h => nomatch h
  | succ n ih => exact StepRun.narrows ih

/-- What a run of unification that ends leaves behind. -/
theorem within_narrows {fuel : Nat} {a e : Monotype} {call : Bool} {s s' : Session}
    {verdict : Verdict} (h : within fuel a e call s = .ok (verdict, s')) (hp : s.vars.WellFormed)
    (ha : s.vars.Covers a) (he : s.vars.Covers e) (k : Nat) :
    Narrows k s.vars s'.vars Set.univ ∧
      ∃ ds : List Diagnostic, (∀ d ∈ ds, d.Plain) ∧ verdict = ds.head? ∧
        s'.sink = ds.foldl .report s.sink := by
  obtain ⟨ds, hRun, hVerdict, hSink⟩ := run_of_within_ok h
  obtain ⟨hNarrows, hPlain⟩ := run_safe fuel hRun hp ha he (closed_univ _)
    (fun _ _ => trivial) (fun _ _ => trivial) k
  exact ⟨hNarrows, ds, hPlain, hVerdict, hSink⟩

end Unify

end Mlf
