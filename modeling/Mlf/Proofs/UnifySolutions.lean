import Mlf.Proofs.UnifyInvariant

/-!
# Unification and solutions

A run of unification that reports nothing refines the variables in play by the equation of its two
types: the solutions that are left are those under which the types agree.

Types with quantifiers are replaced by instances at a level of their own, so their part of the proof
is about common instances. A variable that gets a new bound loses its old one, and the runs before
say what the new one is worth only where the old one holds. So the argument is made within what the
two types reach, which the occurs check keeps apart from the variable.

Main results:

* `PolyRun.exact` — a type with the common instances of two types;
* `TieRun.solve_exact`, `TieRun.merge_exact` — variables that get a new bound;
* `run_exact` — a run without reports keeps exactly the solutions of the equation.
-/

namespace Mlf

open Prefix Relation

variable {p q : Prefix} {a e : Polytype} {x : String} {Z : Set String} {r : Valuation}

namespace Prefix

theorem Quiet.isSolution_iff (h : p.Quiet q) : q.IsSolution r ↔ p.IsSolution r := by
  simp only [IsSolution, h.find?]

theorem Quiet.covers (h : p.Quiet q) {t : Polytype} (ht : p.Covers t) : q.Covers t :=
  fun x hx => (h.binds x).2 (ht x hx)

theorem Quiet.flexible_iff (h : p.Quiet q) : q.Flexible ↔ p.Flexible := by
  simp only [Flexible, h.find?]

theorem Quiet.determines (h : p.Quiet q) (k : Nat) : Determines k p q := by
  intro l _ r r' _ _ hAgree x e he
  rw [h.find?] at he
  exact hAgree x e he

theorem Quiet.refines (h : p.Quiet q) (k : Nat) : Refines k p q fun _ => True where
  sound _ hr := ⟨h.isSolution_iff.1 hr, trivial⟩
  complete r hr _ := ⟨r, fun _ _ => rfl, h.isSolution_iff.2 hr⟩
  determines := h.determines k

theorem Quiet.refines_trans {k : Nat} {s : Prefix} {holds : Valuation → Prop} (h : p.Quiet q)
    (hNext : Refines k q s holds) : Refines k p s holds where
  sound r hr := by
    obtain ⟨hq, hHolds⟩ := hNext.sound r hr
    exact ⟨h.isSolution_iff.1 hq, hHolds⟩
  complete r hr hHolds := by
    obtain ⟨r', hSame, hr'⟩ := hNext.complete r (h.isSolution_iff.2 hr) hHolds
    exact ⟨r', fun x hx => hSame x ((h.binds x).2 hx), hr'⟩
  determines := (h.determines k).trans hNext.determines fun r hr => (hNext.sound r hr).1

theorem IsSolution.eval_top (h : p.IsSolution r) (t : Monotype) : (p.top t).eval r = t.eval r :=
  (h.solvedOn Set.univ).eval_top fun _ _ _ _ => trivial

/-- The parts of two types with function tops are over variables in play. -/
theorem Quiet.covers_parts (h : p.Quiet q) (hp : p.WellFormed) {a e a₁ a₂ e₁ e₂ u v : Monotype}
    (ha : p.Covers a) (he : p.Covers e) (haTop : p.top a = .fn a₁ a₂)
    (heTop : p.top e = .fn e₁ e₂) (hPair : (u = a₁ ∧ v = e₁) ∨ (u = e₁ ∧ v = a₁)) :
    q.Covers u ∧ q.Covers v ∧ q.Covers a₂ ∧ q.Covers e₂ := by
  obtain ⟨⟨hu, hv⟩, ha₂, he₂⟩ := hp.scoping.closed.parts ha he haTop heTop hPair
  exact ⟨h.covers hu, h.covers hv, h.covers ha₂, h.covers he₂⟩

/-- Types with function tops agree in a solution if their parts do. -/
theorem IsSolution.eval_parts (h : p.IsSolution r) {a e a₁ a₂ e₁ e₂ u v : Monotype}
    (haTop : p.top a = .fn a₁ a₂) (heTop : p.top e = .fn e₁ e₂)
    (hPair : (u = a₁ ∧ v = e₁) ∨ (u = e₁ ∧ v = a₁)) :
    a.eval r = e.eval r ↔ u.eval r = v.eval r ∧ a₂.eval r = e₂.eval r := by
  rw [← h.eval_top a, ← h.eval_top e, haTop, heTop, Monotype.eval, Monotype.eval, Ground.fn.injEq]
  rcases hPair with ⟨rfl, rfl⟩ | ⟨rfl, rfl⟩
  · exact Iff.rfl
  · rw [eq_comm (a := v.eval r)]

/-- A variable gets a new bound and a second one stands for it, where the new bound has common
instances of the old ones. -/
theorem link_refines (hp : p.WellFormed) {y : String} {ex ey : Entry} {b : Bound}
    (hx : p.find? x = some ex) (hy : p.find? y = some ey) (hne : x ≠ y)
    (hNormal : b.type.IsNormal) (hCovers : p.Covers b.type)
    (hApart : ∀ z ∈ b.type.freeVars, ¬ p.Reaches z x ∧ ¬ p.Reaches z y)
    (hFewer : ∀ r, p.SolvedOn r {x, y}ᶜ → ∀ g ∈ b.type.Inst r,
      g ∈ ex.bound.type.Inst r ∧ g ∈ ey.bound.type.Inst r) (k : Nat) :
    Refines k p ((p.update x b).update y ⟨.flexible, .mono (.var x)⟩)
      fun r => r x ∈ b.type.Inst r ∧ r y = r x := by
  obtain ⟨hFirst, hSecond⟩ := link_narrows hp ⟨ex, hx⟩ ⟨ey, hy⟩ hne hNormal hCovers hApart k
    (closed_univ _) trivial trivial fun _ _ => trivial
  have hUpdates := update_updates ⟨ex, hx⟩ b
  -- first the new bound, while the second variable has its own
  have hBound : Refines k p (p.update x b) fun r => r x ∈ b.type.Inst r := by
    refine hUpdates.refines hFirst.wellFormed hx (fun r hRest hSelf => (hFewer r ?_ _ hSelf).1) k
    exact hRest.mono fun z hz _ hzx => hz (Or.inl hzx)
  obtain ⟨l, hy', -⟩ := hUpdates.bound y ey hy
  rw [if_neg hne.symm] at hy'
  -- then the link, which takes the second bound away
  have hLink : Refines k (p.update x b) ((p.update x b).update y ⟨.flexible, .mono (.var x)⟩)
      fun r => r y ∈ (Polytype.mono (.var x)).Inst r := by
    refine (update_updates ⟨_, hy'⟩ _).refines hSecond.wellFormed hy' (fun r hRest hSelf => ?_) k
    obtain ⟨hRest, hx'⟩ := (hUpdates.solvedOn_iff ⟨ex, hx⟩).1 hRest
    have hOthers : p.SolvedOn r {x, y}ᶜ := hRest.mono fun z hz _ =>
      ⟨fun hzy => hz (Or.inr hzy), fun hzx => hz (Or.inl hzx)⟩
    rw [show r y = r x from hSelf]
    exact (hFewer r hOthers _ (hx' hne)).2
  -- the two together
  refine hBound.trans hLink (fun z hz => (hUpdates.binds z).2 hz) fun r r' hSame hSelf => ?_
  show r' y = r' x
  rw [hSame y ⟨ey, hy⟩, hSame x ⟨ex, hx⟩]
  exact hSelf

/-- Two variables become one, where the new bound has common instances of the old ones. -/
theorem merge_refines (hp : p.WellFormed) {y : String} {ex ey : Entry} {b : Bound}
    (hx : p.find? x = some ex) (hy : p.find? y = some ey) (hne : x ≠ y)
    (hNormal : b.type.IsNormal) (hCovers : p.Covers b.type)
    (hApart : ∀ z ∈ b.type.freeVars, ¬ p.Reaches z x ∧ ¬ p.Reaches z y)
    (hFewer : ∀ r, p.SolvedOn r {x, y}ᶜ → ∀ g ∈ b.type.Inst r,
      g ∈ ex.bound.type.Inst r ∧ g ∈ ey.bound.type.Inst r) (k : Nat) :
    Refines k p (p.merge x y b).2 fun r => r x ∈ b.type.Inst r ∧ r y = r x := by
  obtain ⟨stays, goes, hWhich, hEq⟩ := merge_eq ⟨ex, hx⟩ ⟨ey, hy⟩ b
  rw [hEq]
  rcases hWhich with ⟨rfl, rfl⟩ | ⟨rfl, rfl⟩
  · exact link_refines hp hx hy hne hNormal hCovers hApart hFewer k
  · refine (link_refines hp hy hx hne.symm hNormal hCovers (fun z hz => (hApart z hz).symm)
      (fun r hr g hg => ?_) k).congr fun r _ => ?_
    · rw [Set.pair_comm] at hr
      exact (hFewer r hr g hg).symm
    · constructor <;> rintro ⟨hBound, hSame⟩ <;> simp_all

theorem Flexible.merge (hp : p.Flexible) {y : String} {b : Bound} (hx : p.Binds x)
    (hy : p.Binds y) (hKind : b.kind = .flexible) (hType : b.type.Flexible) :
    (p.merge x y b).2.Flexible := by
  -- whichever stays
  have link {x y : String} (hx : p.Binds x) (hy : p.Binds y) :
      ((p.update x b).update y ⟨.flexible, .mono (.var x)⟩).Flexible := by
    have hUpdates := update_updates hx b
    exact (hp.updates hUpdates hKind hType).updates (update_updates ((hUpdates.binds y).2 hy) _) rfl
      trivial
  obtain ⟨stays, goes, hWhich, hEq⟩ := merge_eq hx hy b
  rw [hEq]
  rcases hWhich with ⟨rfl, rfl⟩ | ⟨rfl, rfl⟩
  · exact link hx hy
  · exact link hy hx

end Prefix

namespace Unify

/-- Runs without reports keep exactly the solutions under which the types agree, and bring in no
rigid bound. -/
def Exact (R : Behavior) : Prop :=
  ∀ {p q : Prefix} {a e : Monotype}, R p a e (some (q, [])) → p.WellFormed → p.Covers a →
    p.Covers e → ∀ k, (Refines k p q fun r => a.eval r = e.eval r) ∧ (p.Flexible → q.Flexible)

theorem Safe.narrows {R : Behavior} (hR : Safe R) {a e : Monotype} {ds : List Diagnostic}
    (h : R p a e (some (q, ds))) (hp : p.WellFormed) (ha : p.Covers a) (he : p.Covers e) (k : Nat) :
    Narrows k p q Set.univ :=
  (hR h hp ha he (closed_univ _) (fun _ _ => trivial) (fun _ _ => trivial) k).1

/-! ## Types with quantifiers -/

/-- In the solutions of `q`, a type has the common instances of two types. -/
structure PolyExact (k : Nat) (p q : Prefix) (a e t : Polytype) : Prop where
  sound : ∀ r, q.IsSolution r → p.IsSolution r ∧ ∀ g ∈ t.Inst r, g ∈ a.Inst r ∧ g ∈ e.Inst r
  complete : ∀ r, p.IsSolution r → ∀ g ∈ a.Inst r, g ∈ e.Inst r →
    ∃ r', (∀ x, p.Binds x → r' x = r x) ∧ q.IsSolution r' ∧ g ∈ t.Inst r'
  determines : Determines k p q
  flexible : p.Flexible → a.Flexible → e.Flexible → q.Flexible ∧ t.Flexible

/-- Solutions with a common instance of two types extend to the instances of the types. -/
theorem OpensPair.complete (h : OpensPair p a e Z) (he : p.Covers e) (hr : p.IsSolution r)
    {g : Ground} (ha : g ∈ a.Inst r) (hg : g ∈ e.Inst r) :
    ∃ r', (∀ x, p.Binds x → r' x = r x) ∧ ((p.enter.opened a).2.opened e).2.IsSolution r' ∧
      (p.enter.opened a).1.eval r' = g ∧ ((p.enter.opened a).2.opened e).1.eval r' = g := by
  obtain ⟨r₁, hSame₁, hr₁, hEval₁⟩ := h.first.complete r (isSolution_enter.2 hr) g ha
  replace hSame₁ (x : String) (hx : p.Binds x) : r₁ x = r x := hSame₁ x (binds_enter.2 hx)
  -- the other type is over old names, so its instances are the same in the new solution
  rw [← he.Inst_congr hSame₁] at hg
  obtain ⟨r₂, hSame₂, hr₂, hEval₂⟩ := h.second.complete r₁ hr₁ g hg
  refine ⟨r₂, fun x hx => ?_, hr₂, ?_, hEval₂⟩
  · exact (hSame₂ x (h.first.narrows.binds (binds_enter.2 hx))).trans (hSame₁ x hx)
  · rw [h.first.covers.eval_congr hSame₂, hEval₁]

theorem OpensPair.sound (h : OpensPair p a e Z)
    (hr : ((p.enter.opened a).2.opened e).2.IsSolution r) :
    p.IsSolution r ∧ (p.enter.opened a).1.eval r ∈ a.Inst r ∧
      ((p.enter.opened a).2.opened e).1.eval r ∈ e.Inst r := by
  obtain ⟨hr₁, hExpected⟩ := h.second.sound r hr
  obtain ⟨hr₀, hActual⟩ := h.first.sound r hr₁
  exact ⟨isSolution_enter.1 hr₀, hActual, hExpected⟩

theorem OpensPair.determines (h : OpensPair p a e Z) :
    Determines (p.level + 1) p.enter ((p.enter.opened a).2.opened e).2 := by
  have hSecond := h.second.determines
  rw [h.first.narrows.level] at hSecond
  exact h.first.determines.trans hSecond fun r hr => (h.second.sound r hr).1

theorem OpensPair.flexible (h : OpensPair p a e Z) (hp : p.Flexible) (ha : a.Flexible)
    (he : e.Flexible) : ((p.enter.opened a).2.opened e).2.Flexible := by
  have hEnter : p.enter.Flexible := by simpa only [Flexible, find?_enter] using hp
  have hLevel := one_le_level_enter p
  exact (hEnter.opened hLevel ha).opened (h.first.narrows.one_le_level hLevel) he

/-- A run without reports on two types leaves a type with their common instances. -/
theorem PolyRun.exact {R : Behavior} (hSafe : Safe R) (hR : Exact R) {p q : Prefix}
    {a e t : Polytype} (h : PolyRun R p a e (some (q, [], t))) (hp : p.WellFormed)
    (ha : p.Covers a) (he : p.Covers e) (k : Nat) : PolyExact k p q a e t := by
  cases h with
  | left =>
    refine ⟨fun r hr => ⟨hr, fun g hg => ⟨trivial, hg⟩⟩, fun r hr g _ hg => ?_, .refl k p,
      fun hFlexible _ heFlexible => ⟨hFlexible, heFlexible⟩⟩
    exact ⟨r, fun _ _ => rfl, hr, hg⟩
  | right =>
    refine ⟨fun r hr => ⟨hr, fun g hg => ⟨hg, trivial⟩⟩, fun r hr g hg _ => ?_, .refl k p,
      fun hFlexible haFlexible _ => ⟨hFlexible, haFlexible⟩⟩
    exact ⟨r, fun _ _ => rfl, hr, hg⟩
  | @mono a e q _ hRun =>
    obtain ⟨hRefines, hFlexible⟩ := hR hRun hp ha he k
    refine ⟨fun r hr => ?_, fun r hr g hga hge => ?_, hRefines.determines,
      fun hpFlexible _ _ => ⟨hFlexible hpFlexible, trivial⟩⟩
    · obtain ⟨hSol, hEq⟩ := hRefines.sound r hr
      refine ⟨hSol, fun g hg => ⟨hg, ?_⟩⟩
      rw [Polytype.Inst_mono] at hg ⊢
      rw [hg, hEq]
      rfl
    · obtain rfl : g = a.eval r := hga
      obtain ⟨r', hSame, hr'⟩ := hRefines.complete r hr hge
      exact ⟨r', hSame, hr', (ha.eval_congr hSame).symm⟩
  | @opened _ _ q _ _ _ hRun =>
    have hPair := opensPair hp ha he (closed_univ _) (fun _ _ => trivial) fun _ _ => trivial
    obtain ⟨hInside, -, hCovers⟩ := hPair.run hSafe hRun
    obtain ⟨hRefines, hInsideFlexible⟩ := hR hRun hPair.narrows.wellFormed hPair.coversActual
      hPair.second.covers (p.level + 1)
    have hSame : (q.generalize (p.enter.opened a).1).2 = q := by
      rw [generalize_eq hInside.wellFormed.scoping hCovers]
    -- inside, the instances of the two types that agree are the common ones
    have hOpens : Opens p.enter q Set.univ (p.enter.opened a).1 fun r => a.Inst r ∩ e.Inst r := by
      refine ⟨hInside, hCovers, fun _ _ _ => trivial, fun r hr => ?_, fun r hr g hg => ?_,
        hPair.determines.trans hRefines.determines fun r hr => (hRefines.sound r hr).1⟩
      · obtain ⟨hr₂, hEq⟩ := hRefines.sound r hr
        obtain ⟨hr₀, hActual, hExpected⟩ := hPair.sound hr₂
        exact ⟨isSolution_enter.2 hr₀, hActual, hEq ▸ hExpected⟩
      · obtain ⟨r₂, hSame₂, hr₂, hActual, hExpected⟩ :=
          hPair.complete he (isSolution_enter.1 hr) hg.1 hg.2
        obtain ⟨r₃, hSame₃, hr₃⟩ := hRefines.complete r₂ hr₂ (hActual.trans hExpected.symm)
        refine ⟨r₃, fun x hx => ?_, hr₃, ?_⟩
        · exact (hSame₃ x (hPair.narrows.binds hx)).trans (hSame₂ x (binds_enter.1 hx))
        · rw [hPair.coversActual.eval_congr hSame₃, hActual]
    -- when the level is left, the type has these instances
    have hTyped := hOpens.typed hp fun r r' hSame => by
      rw [ha.Inst_congr hSame, he.Inst_congr hSame]
    rw [hSame]
    refine ⟨fun r hr => ⟨(hTyped.refines 0 |>.sound r hr).1, fun g hg => ?_⟩, fun r hr g hga hge => ?_,
      (hTyped.refines k).determines, fun hFlexible haFlexible heFlexible => ?_⟩
    · exact (hTyped.inst r hr).subset hg
    · obtain ⟨r', hSame, hr'⟩ := (hTyped.refines k).complete r hr ⟨g, hga, hge⟩
      refine ⟨r', hSame, hr', (hTyped.inst r' hr').superset ⟨?_, ?_⟩⟩
      · rwa [ha.Inst_congr hSame]
      · rwa [he.Inst_congr hSame]
    · have hqFlexible := hInsideFlexible (hPair.flexible hFlexible haFlexible heFlexible)
      have hLevel := hInside.one_le_level (one_le_level_enter p)
      exact ⟨hqFlexible.leave hInside.wellFormed.owned hLevel,
        hqFlexible.generalize hInside.wellFormed hCovers trivial⟩

/-! ## Tied variables -/

/-- What follows a run on two types may be about a common instance of them. -/
theorem PolyExact.refines {k : Nat} {s : Prefix} {t : Polytype} {next holds : Valuation → Prop}
    (h : PolyExact k p q a e t) (hBinds : ∀ x, p.Binds x → q.Binds x) (hNext : Refines k q s next)
    (hSound : ∀ r, next r → holds r)
    (hComplete : ∀ r, p.IsSolution r → holds r → ∃ g ∈ a.Inst r, g ∈ e.Inst r ∧
      ∀ r', (∀ x, p.Binds x → r' x = r x) → g ∈ t.Inst r' → next r') : Refines k p s holds where
  sound r hr := by
    obtain ⟨hq, hHolds⟩ := hNext.sound r hr
    exact ⟨(h.sound r hq).1, hSound r hHolds⟩
  complete r hr hHolds := by
    obtain ⟨g, hga, hge, hAfter⟩ := hComplete r hr hHolds
    obtain ⟨r', hSame, hr', hg⟩ := h.complete r hr g hga hge
    obtain ⟨r'', hSame', hr''⟩ := hNext.complete r' hr' (hAfter r' hSame hg)
    exact ⟨r'', fun x hx => (hSame' x (hBinds x hx)).trans (hSame x hx), hr''⟩
  determines := h.determines.trans hNext.determines fun r hr => (hNext.sound r hr).1

/-- Variables that two types do not reach keep their bounds in a run on these types, and what the
run says about common instances does not rest on these bounds. -/
theorem TieRun.apart {R : Behavior} (hSafe : Safe R) (hR : Exact R) {T : Tie} {t : Polytype}
    (hp : p.WellFormed) (hT : T.Fits p Z)
    (hApart : ∀ x ∈ T.vars, p.occurs x T.actual = false ∧ p.occurs x T.expected = false)
    (h : PolyRun R p T.actual T.expected (some (q, [], t))) :
    (∀ x ∈ T.vars, ∀ e, p.find? x = some e → q.find? x = some e) ∧
      ∀ r, q.SolvedOn r {x | x ∈ T.vars}ᶜ →
        ∀ g ∈ t.Inst r, g ∈ T.actual.Inst r ∧ g ∈ T.expected.Inst r := by
  have hPoly := hT.poly_region hSafe hp h 0
  have hExact := h.exact hSafe hR hp hT.actual.1 hT.expected.1 0
  refine ⟨fun x hx e he => hT.kept hSafe hp hApart h hx he, fun r hr g hg => ?_⟩
  -- a valuation that solves all but the tied variables can be changed at those, where the types do
  -- not lead
  obtain ⟨r', hSame, hr'⟩ := hPoly.narrows.localize
    (fun x hx hAllowed => not_mem_region (hApart x hx) (hAllowed (hT.binds x hx))) hr
  have hBoth := (hExact.sound r' hr').2 g
  rw [Polytype.Inst_congr fun x hx => hSame x (hPoly.allowed x hx),
    Polytype.Inst_congr fun x hx => hSame x fun _ => ⟨x, Or.inl hx, .refl⟩,
    Polytype.Inst_congr fun x hx => hSame x fun _ => ⟨x, Or.inr hx, .refl⟩] at hBoth
  exact hBoth hg

/-- A variable that is solved without a report: the solutions that are left are those in which it
has the value of the type. -/
theorem TieRun.solve_exact {R : Behavior} (hSafe : Safe R) (hR : Exact R) (hp : p.WellFormed)
    {ex : Entry} (hx : p.find? x = some ex) {t : Monotype} (ht : p.Covers t) {swapped : Bool}
    (h : TieRun R p (.solve x ex.bound t swapped) (some (q, []))) (k : Nat) :
    (Refines k p q fun r => r x = t.eval r) ∧ (p.Flexible → q.Flexible) := by
  have hUniv := p.closed_univ
  have hT := Tie.solve_fits hp hx ht swapped hUniv trivial fun _ _ => trivial
  have hFinal := (h.narrows hSafe hp hUniv hT k).1
  cases h with
  | @tied q₁ q₂ u hBegins hPoly hQuiet hFree =>
    obtain ⟨hKept, hCommon⟩ := TieRun.apart hSafe hR hp hT (hBegins.apart hp.acyclic) hPoly
    have hExact := hPoly.exact hSafe hR hp hT.actual.1 hT.expected.1 k
    have hNarrows := (hT.poly hSafe hp hUniv hPoly k).narrows
    have hx₂ : q₂.find? x = some ex := by
      rw [hQuiet.find?]
      exact hKept x (by simp [Tie.solve]) ex hx
    have hUpdates := update_updates ⟨ex, hx₂⟩ ⟨ex.bound.kind, .mono t⟩
    -- an instance of both types is the type, and an instance of the bound
    have both {r : Valuation} {g : Ground} :
        g ∈ (Tie.solve x ex.bound t swapped).actual.Inst r ∧
          g ∈ (Tie.solve x ex.bound t swapped).expected.Inst r ↔
        g = t.eval r ∧ g ∈ ex.bound.type.Inst r := by
      cases swapped with
      | true => exact Iff.rfl
      | false => exact And.comm
    -- what the types have in common was found without a look at the bound of the variable
    have hOldBound (r : Valuation) (hRest : q₂.SolvedOn r {x}ᶜ)
        (hSelf : r x ∈ (Polytype.mono t).Inst r) : r x ∈ ex.bound.type.Inst r := by
      obtain ⟨g, hg⟩ := u.Inst_nonempty r
      have hRest₁ : q₁.SolvedOn r {y | y ∈ (Tie.solve x ex.bound t swapped).vars}ᶜ := by
        intro y hy e he
        exact hRest y (by simpa [Tie.solve] using hy) e (by rw [hQuiet.find?, he])
      obtain ⟨hEq, hBound⟩ := both.1 (hCommon r hRest₁ g hg)
      rwa [show r x = g from Eq.trans hSelf hEq.symm]
    have hUpdate := hUpdates.refines hFinal.wellFormed hx₂ hOldBound k
    -- a solution of the equation has a common instance, which is the value of the variable
    refine ⟨hExact.refines (fun y => hNarrows.binds) (hQuiet.refines_trans hUpdate) (fun r => id)
      fun r hr hEq => ?_, fun hFlexible => ?_⟩
    · obtain ⟨hActual, hExpected⟩ := both.2 ⟨hEq, hr x ex hx⟩
      refine ⟨r x, hActual, hExpected, fun r' hSame _ => ?_⟩
      show r' x = t.eval r'
      rw [hSame x ⟨ex, hx⟩, hEq, ht.eval_congr hSame]
    · have hBound := hFlexible x ex hx
      have hTypes : (Tie.solve x ex.bound t swapped).actual.Flexible ∧
          (Tie.solve x ex.bound t swapped).expected.Flexible := by
        cases swapped with
        | true => exact ⟨trivial, hBound.2⟩
        | false => exact ⟨hBound.2, trivial⟩
      have hq₁ := (hExact.flexible hFlexible hTypes.1 hTypes.2).1
      exact (hQuiet.flexible_iff.2 hq₁).updates hUpdates hBound.1 trivial

/-- Two variables that become one without a report: the solutions that are left are those in which
they have one value. -/
theorem TieRun.merge_exact {R : Behavior} (hSafe : Safe R) (hR : Exact R) (hp : p.WellFormed)
    {y : String} {ex ey : Entry} (hx : p.find? x = some ex) (hy : p.find? y = some ey)
    (hne : x ≠ y) (h : TieRun R p (.merge x y ex.bound ey.bound) (some (q, []))) (k : Nat) :
    (Refines k p q fun r => r x = r y) ∧ (p.Flexible → q.Flexible) := by
  have hUniv := p.closed_univ
  have hT := Tie.merge_fits hp hne hx hy hUniv trivial trivial
  have hFinal := (h.narrows hSafe hp hUniv hT k).1
  cases h with
  | @tied q₁ q₂ u hBegins hPoly hQuiet hFree =>
    obtain ⟨hKept, hCommon⟩ := TieRun.apart hSafe hR hp hT (hBegins.apart hp.acyclic) hPoly
    have hExact := hPoly.exact hSafe hR hp hT.actual.1 hT.expected.1 k
    have hTarget := hT.poly hSafe hp hUniv hPoly k
    have hBooks := hTarget.narrows.trans
      (hQuiet.narrows hTarget.narrows.wellFormed k hTarget.narrows.closed)
    have hx₂ : q₂.find? x = some ex := by
      rw [hQuiet.find?]
      exact hKept x (by simp [Tie.merge]) ex hx
    have hy₂ : q₂.find? y = some ey := by
      rw [hQuiet.find?]
      exact hKept y (by simp [Tie.merge]) ey hy
    -- the common instances are right whatever values the two variables have
    have hCommon₂ (r : Valuation) (hr : q₂.SolvedOn r {x, y}ᶜ) (g : Ground) (hg : g ∈ u.Inst r) :
        g ∈ ex.bound.type.Inst r ∧ g ∈ ey.bound.type.Inst r := by
      refine hCommon r (fun z hz e he => ?_) g hg
      exact hr z (by simpa [Tie.merge] using hz) e (by rw [hQuiet.find?, he])
    have hCovers : q₂.Covers u := hQuiet.covers hTarget.covers
    simp only [Tie.merge, id, List.mem_cons, List.not_mem_nil, or_false, forall_eq_or_imp,
      forall_eq] at hFree
    have hMerge (kind : BoundKind) := merge_refines hBooks.wellFormed hx₂ hy₂ hne (b := ⟨kind, u⟩)
      hTarget.normal hCovers
      (fun z hz => ⟨not_reaches_of_occurs hFree.1 z hz, not_reaches_of_occurs hFree.2 z hz⟩)
      hCommon₂ k
    -- the same, with the one value of both variables for the common instance
    refine ⟨hExact.refines (fun z => hTarget.narrows.binds) (hQuiet.refines_trans (hMerge _))
      (fun r hr => hr.2.symm) fun r hr hEq => ?_, fun hFlexible => ?_⟩
    · refine ⟨r x, hr x ex hx, ?_, fun r' hSame hg => ?_⟩
      · rw [show r x = r y from hEq]
        exact hr y ey hy
      · rw [hSame x ⟨ex, hx⟩, hSame y ⟨ey, hy⟩, hEq]
        exact ⟨hEq ▸ hg, rfl⟩
    · have hxBound := hFlexible x ex hx
      have hyBound := hFlexible y ey hy
      obtain ⟨hq₁, hu⟩ := hExact.flexible hFlexible hxBound.2 hyBound.2
      refine (hQuiet.flexible_iff.2 hq₁).merge ⟨ex, hx₂⟩ ⟨ey, hy₂⟩ ?_ hu
      simp [hxBound.1, hyBound.1]

/-! ## Steps and runs -/

/-- One step without reports keeps exactly the solutions under which the types agree, if the runs
that it calls do. -/
theorem StepRun.exact {R : Behavior} (hSafe : Safe R) (hR : Exact R) : Exact (StepRun R) := by
  intro p q a e h hp ha he k
  -- an equation of the types is one of their tops
  have tops {q : Prefix} {holds : Valuation → Prop} (h : Refines k p q holds)
      (hIff : ∀ r, holds r ↔ (p.top a).eval r = (p.top e).eval r) :
      Refines k p q fun r => a.eval r = e.eval r := by
    refine h.congr fun r hr => ?_
    rw [hIff, hr.eval_top, hr.eval_top]
  generalize ho : some (q, ([] : List Diagnostic)) = o at h
  cases h with
  | same hTop hQuiet =>
    cases ho
    refine ⟨tops (hQuiet.refines k) fun r => ?_, hQuiet.flexible_iff.2⟩
    rw [hTop]
    exact ⟨fun _ => rfl, fun _ => trivial⟩
  | unbound => cases ho
  | merge haTop heTop hne hQuiet hx hy hTie =>
    subst ho
    obtain ⟨hRefines, hFlexible⟩ := hTie.merge_exact hSafe hR (hQuiet.wellFormed hp).1 hx hy hne k
    refine ⟨tops (hQuiet.refines_trans hRefines) fun r => ?_,
      fun hpFlexible => hFlexible (hQuiet.flexible_iff.2 hpFlexible)⟩
    rw [haTop, heTop]
    rfl
  | @solve _ x t _ swapped _ hTops _ hQuiet hx hTie =>
    subst ho
    have ht : p.Covers t := by
      cases swapped with
      | true => exact hTops.1 ▸ hp.scoping.covers_top ha
      | false => exact hTops.2 ▸ hp.scoping.covers_top he
    obtain ⟨hRefines, hFlexible⟩ := hTie.solve_exact hSafe hR (hQuiet.wellFormed hp).1 hx
      (hQuiet.covers ht) k
    refine ⟨tops (hQuiet.refines_trans hRefines) fun r => ?_,
      fun hpFlexible => hFlexible (hQuiet.flexible_iff.2 hpFlexible)⟩
    cases swapped with
    | true =>
      rw [hTops.1, hTops.2]
      exact eq_comm
    | false =>
      rw [hTops.1, hTops.2]
      rfl
  | clash => cases ho
  | paramStuck => cases ho
  | bodyStuck => cases ho
  | @fn p' q₁ q₂ ds ds' a₁ a₂ e₁ e₂ u v haTop heTop hQuiet hPair hParam hBody =>
    obtain ⟨rfl, hReports⟩ := Prod.mk.inj (Option.some.inj ho)
    -- neither part has reported anything
    obtain ⟨rfl, rfl⟩ := List.append_eq_nil_iff.1 hReports.symm
    obtain ⟨hu, hv, ha₂, he₂⟩ := hQuiet.covers_parts hp ha he haTop heTop hPair
    have hp' := (hQuiet.wellFormed hp).1
    have hNarrows := hSafe.narrows hParam hp' hu hv k
    obtain ⟨hFirst, hFlexible⟩ := hR hParam hp' hu hv k
    obtain ⟨hSecond, hFlexible'⟩ := hR hBody hNarrows.wellFormed (hNarrows.covers ha₂)
      (hNarrows.covers he₂) k
    -- the equation of the bodies is over variables that were in play before
    have hBoth := hFirst.trans hSecond (fun _ => hNarrows.binds) fun r r' hSame hEq => by
      rw [ha₂.eval_congr hSame, he₂.eval_congr hSame, hEq]
    refine ⟨(hQuiet.refines_trans hBoth).congr fun r hr => (hr.eval_parts haTop heTop hPair).symm,
      fun hpFlexible => hFlexible' (hFlexible (hQuiet.flexible_iff.2 hpFlexible))⟩

theorem run_exact (fuel : Nat) : Exact (Run fuel) := by
  induction fuel with
  | zero => exact fun h => nomatch h
  | succ n ih => exact StepRun.exact (run_safe n) ih

end Unify

end Mlf
