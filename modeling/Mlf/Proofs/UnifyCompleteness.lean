import Mathlib
import Mlf.Proofs.UnifySolutions

/-!
# When unification fails

Where no bound is rigid, unification reports something only if no solution makes its two types
agree. Rigid bounds are another matter: they ask for more than their instances do.

A run cannot go deeper than twice the height of the common value in a solution, and that holds with
rigid bounds too, since what a run narrows before it fails still has the solution. So unification
ends for an equation that has a solution, given enough fuel, and without rigid bounds it succeeds.

A variable that a type leads to has a value smaller than the value of the type, unless the type is
the variable itself. That is why a failed occurs check rules out solutions, and why it matters that
variables are followed to their tops before they are compared.

Main results:

* `run_refuting` — a run with reports had no solution of the equation;
* `run_keeping` — a solution of the equation is kept, with reports or without;
* `run_shallow` — a run that goes too deep had no solution of small height;
* `unify_keeps_solutions` — what unification itself does to solutions.
-/

namespace Mlf

open Prefix Relation

variable {R : Unify.Behavior} {p q : Prefix} {a e : Monotype} {t : Polytype} {ex : Entry} {x : String}
  {g : Ground} {ds : List Diagnostic} {T : Unify.Tie} {r : Valuation}

namespace Prefix

/-- The parts of two types with function tops have values of lesser height. -/
theorem IsSolution.height_parts (h : p.IsSolution r) {a₁ a₂ e₁ e₂ u v : Monotype}
    (haTop : p.top a = .fn a₁ a₂) (heTop : p.top e = .fn e₁ e₂)
    (hPair : (u = a₁ ∧ v = e₁) ∨ (u = e₁ ∧ v = a₁)) (hEq : a.eval r = e.eval r) :
    (u.eval r).height < (a.eval r).height ∧ (a₂.eval r).height < (a.eval r).height := by
  obtain ⟨hFirst, -⟩ := (h.eval_parts haTop heTop hPair).1 hEq
  rw [← h.eval_top a, haTop, Monotype.eval, Ground.height]
  -- the parameters have one value, whichever is named first
  have hParam : u.eval r = a₁.eval r := by
    rcases hPair with ⟨rfl, rfl⟩ | ⟨rfl, rfl⟩
    · rfl
    · exact hFirst
  rw [hParam]
  omega

end Prefix

namespace Unify

/-- Runs with reports had no solution under which the types agree. -/
def Refuting (R : Behavior) : Prop :=
  ∀ {p q : Prefix} {a e : Monotype} {d : Diagnostic} {ds : List Diagnostic},
    R p a e (some (q, d :: ds)) → p.WellFormed → p.Flexible → p.Covers a → p.Covers e →
    ∀ r, p.IsSolution r → a.eval r ≠ e.eval r

/-- Runs keep the solutions under which the types agree, whether they report something or not. -/
def Keeping (R : Behavior) : Prop :=
  ∀ {p q : Prefix} {a e : Monotype} {ds : List Diagnostic}, R p a e (some (q, ds)) →
    p.WellFormed → p.Covers a → p.Covers e → ∀ r, p.IsSolution r → a.eval r = e.eval r →
    ∃ r', (∀ x, p.Binds x → r' x = r x) ∧ q.IsSolution r'

/-- Runs that go deeper than `depth` have no solution under which the types agree and that is too
small; what is left of the depth is one more if a variable comes first. -/
def Shallow (depth : Nat) (R : Behavior) : Prop :=
  ∀ {p : Prefix} {a e : Monotype}, R p a e none → p.WellFormed → p.Covers a →
    p.Covers e → ∀ r, p.IsSolution r → a.eval r = e.eval r →
    depth ≤ 2 * (a.eval r).height + 1 ∧
      ((∀ x, p.top a ≠ .var x) → (∀ x, p.top e ≠ .var x) → depth ≤ 2 * (a.eval r).height)

/-! ## Types with quantifiers -/

/-- A type that is not a variable has instances that are not variables. -/
theorem opened_ne_var (ht : t.IsNormal) (hNotBottom : t ≠ .bottom) (hne : ∀ x, t ≠ .mono (.var x))
    (p : Prefix) (x : String) : (p.opened t).1 ≠ .var x := by
  cases t with
  | mono m =>
    rw [opened_mono]
    exact fun hm => hne x (by rw [← hm])
  | bottom => exact absurd rfl hNotBottom
  | all y k b t =>
    obtain ⟨a, e, hFn⟩ := opened_eq_fn p ht rfl hNotBottom
    rw [hFn]
    exact nofun

theorem top_of_ne_var (p : Prefix) {t : Monotype} (h : ∀ x, t ≠ .var x) : p.top t = t := by
  cases t with
  | var x => exact absurd rfl (h x)
  | const c => rfl
  | fn a b => rfl

theorem PolyRun.ne_var {a e : Polytype} (h : PolyRun R p a e (some (q, ds, t)))
    (haNormal : a.IsNormal) (ha : ∀ x, a ≠ .mono (.var x)) (he : ∀ x, e ≠ .mono (.var x))
    (x : String) : t ≠ .mono (.var x) := by
  cases h with
  | left => exact he x
  | right => exact ha x
  | mono => exact ha x
  | opened haBottom => exact Polytype.quantifyAll_ne_var _ (opened_ne_var haNormal haBottom ha _) x

/-- A run with reports on two types that are not plain had no solution with a common instance. -/
theorem PolyRun.refuting (hR : Refuting R) {a e : Polytype} {d : Diagnostic}
    (h : PolyRun R p a e (some (q, d :: ds, t))) (hp : p.WellFormed) (hFlexible : p.Flexible)
    (ha : p.Covers a ∧ a.Flexible) (he : p.Covers e ∧ e.Flexible) (hr : p.IsSolution r)
    (hga : g ∈ a.Inst r) (hge : g ∈ e.Inst r) : False := by
  cases h with
  | @mono a e q _ hRun =>
    obtain rfl : g = a.eval r := hga
    exact hR hRun hp hFlexible ha.1 he.1 r hr hge
  | opened _ _ hRun =>
    have hPair := opensPair hp ha.1 he.1 (closed_univ _) (fun _ _ => trivial) fun _ _ =>
      trivial
    -- the common instance is a value for both, at the level of their own
    obtain ⟨r', -, hr', hActual, hExpected⟩ := hPair.complete he.1 hr hga hge
    exact hR hRun hPair.narrows.wellFormed (hPair.flexible hFlexible ha.2 he.2) hPair.coversActual
      hPair.second.covers r' hr' (hActual.trans hExpected.symm)

/-- A run on two types that are not plain keeps the solutions with a common instance. -/
theorem PolyRun.keeping (hSafe : Safe R) (hR : Keeping R) {a e : Polytype}
    (h : PolyRun R p a e (some (q, ds, t))) (hp : p.WellFormed) (ha : p.Covers a)
    (he : p.Covers e) (hr : p.IsSolution r) (hga : g ∈ a.Inst r) (hge : g ∈ e.Inst r) :
    ∃ r', (∀ x, p.Binds x → r' x = r x) ∧ q.IsSolution r' := by
  cases h with
  | left => exact ⟨r, fun _ _ => rfl, hr⟩
  | right => exact ⟨r, fun _ _ => rfl, hr⟩
  | @mono a e q _ hRun =>
    obtain rfl : g = a.eval r := hga
    exact hR hRun hp ha he r hr hge
  | @opened _ _ q _ _ _ hRun =>
    have hPair := opensPair hp ha he (closed_univ _) (fun _ _ => trivial) fun _ _ => trivial
    obtain ⟨hInside, -, hCovers⟩ := hPair.run hSafe hRun
    -- the common instance tells the values of the new variables
    obtain ⟨r₁, hSame₁, hr₁, hActual, hExpected⟩ := hPair.complete he hr hga hge
    obtain ⟨r₂, hSame₂, hr₂⟩ := hR hRun hPair.narrows.wellFormed hPair.coversActual
      hPair.second.covers r₁ hr₁ (hActual.trans hExpected.symm)
    refine ⟨r₂, fun x hx => ?_, ?_⟩
    · exact (hSame₂ x (hPair.narrows.binds (binds_enter.2 hx))).trans (hSame₁ x hx)
    · -- leaving the level asks less of a solution
      rw [generalize_eq hInside.wellFormed.scoping hCovers]
      exact hr₂.leave hInside.wellFormed.owned (hInside.one_le_level (one_le_level_enter p))

/-! ## Tied variables -/

/-- Variables for the common instances of types one of which has quantifiers and none of which is a
variable. -/
structure Tie.Open (T : Tie) : Prop where
  actual_ne : ∀ x, T.actual ≠ .mono (.var x)
  expected_ne : ∀ x, T.expected ≠ .mono (.var x)
  quantified : T.actual.mono? = none ∨ T.expected.mono? = none

/-- Variables that may be narrowed to such common instances. -/
structure Tie.Loose (T : Tie) : Prop extends T.Open where
  notRigid : ¬ T.rigid
  flexible : T.actual.Flexible ∧ T.expected.Flexible

/-- A solution gives the variables one value, which is a common instance. -/
structure Tie.Solved (T : Tie) (r : Valuation) (g : Ground) : Prop where
  vars : ∀ x ∈ T.vars, r x = g
  actual : g ∈ T.actual.Inst r
  expected : g ∈ T.expected.Inst r

theorem Tie.merge_open {y : String} {a b : Bound} (ha : a.type.mono? = none)
    (hb : b.type.mono? = none) : (Tie.merge x y a b).Open where
  actual_ne _ := Polytype.mono?_eq_none.1 ha _
  expected_ne _ := Polytype.mono?_eq_none.1 hb _
  quantified := Or.inl ha

theorem Tie.solve_open {b : Bound} (hb : b.type.mono? = none) {t : Monotype}
    (ht : ∀ y, t ≠ .var y) (swapped : Bool) : (Tie.solve x b t swapped).Open := by
  have hBound := Polytype.mono?_eq_none.1 hb
  have hType (y : String) : Polytype.mono t ≠ .mono (.var y) := fun h => ht y (by injection h)
  cases swapped with
  | true => exact ⟨hType, fun _ => hBound _, Or.inr hb⟩
  | false => exact ⟨fun _ => hBound _, hType, Or.inl hb⟩

theorem Tie.merge_loose (hp : p.Flexible) {y : String} {ey : Entry} (hx : p.find? x = some ex)
    (hy : p.find? y = some ey) (hOpen : (Tie.merge x y ex.bound ey.bound).Open) :
    (Tie.merge x y ex.bound ey.bound).Loose where
  toOpen := hOpen
  notRigid hRigid := by
    simp [Tie.merge, (hp x ex hx).1, (hp y ey hy).1] at hRigid
  flexible := ⟨(hp x ex hx).2, (hp y ey hy).2⟩

theorem Tie.solve_loose (hp : p.Flexible) (hx : p.find? x = some ex) {t : Monotype}
    {swapped : Bool} (hOpen : (Tie.solve x ex.bound t swapped).Open) :
    (Tie.solve x ex.bound t swapped).Loose := by
  have hKind : ¬ ex.bound.kind = .rigid := by
    rw [(hp x ex hx).1]
    exact nofun
  refine ⟨hOpen, hKind, ?_⟩
  cases swapped with
  | true => exact ⟨trivial, (hp x ex hx).2⟩
  | false => exact ⟨(hp x ex hx).2, trivial⟩

theorem Tie.merge_solved (hr : p.IsSolution r) {y : String} {ey : Entry}
    (hx : p.find? x = some ex) (hy : p.find? y = some ey) (hEq : r x = r y) :
    (Tie.merge x y ex.bound ey.bound).Solved r (r x) where
  vars := by simp [Tie.merge, hEq]
  actual := hr x ex hx
  expected := hEq ▸ hr y ey hy

theorem Tie.solve_solved (hr : p.IsSolution r) (hx : p.find? x = some ex) {t : Monotype}
    (hEq : r x = t.eval r) (swapped : Bool) : (Tie.solve x ex.bound t swapped).Solved r (r x) := by
  refine ⟨by simp [Tie.solve], ?_, ?_⟩
  · cases swapped with
    | true => exact hEq
    | false => exact hr x ex hx
  · cases swapped with
    | true => exact hr x ex hx
    | false => exact hEq

/-- A type that leads to a variable has only instances larger than the variable. -/
theorem height_lt_of_occurs (hp : p.WellFormed) (ht : t.IsNormal) (hne : ∀ y, t ≠ .mono (.var y))
    (hOccurs : p.occurs x t = true) (hr : p.IsSolution r) (hg : g ∈ t.Inst r) :
    (r x).height < g.height := by
  obtain ⟨y, hy, hyx⟩ := occurs_iff.1 hOccurs
  calc (r x).height ≤ (r y).height :=
        (hr.solvedOn Set.univ).height_le hp (fun _ _ => trivial) hyx
    _ < g.height := ht.height_lt hy (hne y) hg

/-- A solution that gives the variables a common instance leaves no way from the types to them: a
variable would be worth less than itself. -/
theorem Tie.Solved.not_cycle (h : T.Solved r g) (hp : p.WellFormed) (hT : T.Fits p Set.univ)
    (hOpen : T.Open) (hr : p.IsSolution r) (hx : x ∈ T.vars) :
    ¬ (p.occurs x T.actual = true ∨ p.occurs x T.expected = true) := by
  intro hOccurs
  have hLt : (r x).height < g.height := by
    rcases hOccurs with hOccurs | hOccurs
    · exact height_lt_of_occurs hp hT.actual.2.1 hOpen.actual_ne hOccurs hr h.actual
    · exact height_lt_of_occurs hp hT.expected.2.1 hOpen.expected_ne hOccurs hr h.expected
  rw [h.vars x hx] at hLt
  exact Nat.lt_irrefl _ hLt

/-- And there is no way from the new bound to the variables, since the solution is kept with the
common instance among those of the new bound. -/
theorem Tie.Solved.not_knot (h : T.Solved r g) (hSafe : Safe R) (hExact : Exact R)
    (hPoly : PolyRun R p T.actual T.expected (some (q, [], t))) (hp : p.WellFormed)
    (hT : T.Fits p Set.univ) (hOpen : T.Open) (hr : p.IsSolution r) (hx : x ∈ T.vars) :
    ¬ q.occurs x (T.target t) = true := by
  intro hOccurs
  have hPolySafe := hT.poly hSafe hp (closed_univ _) hPoly 0
  have hTarget := hT.target_safe hPolySafe
  have hPolyExact := hPoly.exact hSafe hExact hp hT.actual.1 hT.expected.1 0
  obtain ⟨r', hSame, hr', hg⟩ := hPolyExact.complete r hr g h.actual h.expected
  -- the new bound is the outcome or one of the two types, and none of these is a variable
  have hNew : g ∈ (T.target t).Inst r' ∧ ∀ y, T.target t ≠ .mono (.var y) := by
    rcases hT.target with hSelf | hActual | hExpected
    · rw [hSelf]
      exact ⟨hg, hPoly.ne_var hT.actual.2.1 hOpen.actual_ne hOpen.expected_ne⟩
    · rw [hActual, hT.actual.1.Inst_congr hSame]
      exact ⟨h.actual, hOpen.actual_ne⟩
    · rw [hExpected, hT.expected.1.Inst_congr hSame]
      exact ⟨h.expected, hOpen.expected_ne⟩
  have hLt := height_lt_of_occurs hPolySafe.narrows.wellFormed hTarget.normal hNew.2 hOccurs hr'
    hNew.1
  rw [hSame x (hT.binds x hx), h.vars x hx] at hLt
  exact Nat.lt_irrefl _ hLt

theorem TieRun.refuting (hSafe : Safe R) (hExact : Exact R) (hR : Refuting R) {d : Diagnostic}
    (h : TieRun R p T (some (q, d :: ds))) (hp : p.WellFormed) (hFlexible : p.Flexible)
    (hT : T.Fits p Set.univ) (hLoose : T.Loose) (hr : p.IsSolution r) (hSolved : T.Solved r g) :
    False := by
  cases h with
  | clash hRigid => exact hLoose.notRigid hRigid
  | cycle hx hOccurs => exact hSolved.not_cycle hp hT hLoose.toOpen hr hx hOccurs
  -- no common instance of the bounds
  | failed hPoly =>
    exact hPoly.refuting hR hp hFlexible ⟨hT.actual.1, hLoose.flexible.1⟩
      ⟨hT.expected.1, hLoose.flexible.2⟩ hr hSolved.actual hSolved.expected
  | rigid _ hRigid => exact hLoose.notRigid hRigid
  | knot hPoly hx hOccurs =>
    exact hSolved.not_knot hSafe hExact hPoly hp hT hLoose.toOpen hr hx hOccurs

/-- A failed attempt to tie variables keeps the solutions that give them a common instance. -/
theorem TieRun.keeping (hSafe : Safe R) (hR : Keeping R) {d : Diagnostic}
    (h : TieRun R p T (some (q, d :: ds))) (hp : p.WellFormed) (hT : T.Fits p Set.univ)
    (hr : p.IsSolution r) (hSolved : T.Solved r g) :
    ∃ r', (∀ x, p.Binds x → r' x = r x) ∧ q.IsSolution r' := by
  -- what is done before the attempt fails is to unify the bounds
  have hPolyKeeps {q : Prefix} {ds : List Diagnostic} {t : Polytype}
      (hPoly : PolyRun R p T.actual T.expected (some (q, ds, t))) :
      ∃ r', (∀ x, p.Binds x → r' x = r x) ∧ q.IsSolution r' :=
    hPoly.keeping hSafe hR hp hT.actual.1 hT.expected.1 hr hSolved.actual hSolved.expected
  cases h with
  | clash _ _ hQuiet _ => exact ⟨r, fun _ _ => rfl, hQuiet.isSolution_iff.2 hr⟩
  | cycle _ _ hQuiet _ => exact ⟨r, fun _ _ => rfl, hQuiet.isSolution_iff.2 hr⟩
  | failed hPoly => exact hPolyKeeps hPoly
  | rigid hPoly _ _ hQuiet _ =>
    obtain ⟨r', hSame, hr'⟩ := hPolyKeeps hPoly
    exact ⟨r', hSame, hQuiet.isSolution_iff.2 hr'⟩
  | knot hPoly _ _ hQuiet _ =>
    obtain ⟨r', hSame, hr'⟩ := hPolyKeeps hPoly
    exact ⟨r', hSame, hQuiet.isSolution_iff.2 hr'⟩

/-- Tying variables goes no deeper than a solution is high. -/
theorem TieRun.shallow {depth : Nat} (hR : Shallow depth R) (h : TieRun R p T none)
    (hp : p.WellFormed) (hT : T.Fits p Set.univ) (hOpen : T.Open) (hr : p.IsSolution r)
    (hSolved : T.Solved r g) : depth ≤ 2 * g.height := by
  have hPoly : PolyRun R p T.actual T.expected none := by
    cases h with
    | stuck hPoly => exact hPoly
  generalize hActual : T.actual = a at hPoly
  generalize hExpected : T.expected = e at hPoly
  cases hPoly with
  -- two monotypes would both be solutions of their variables
  | monoStuck =>
    have hQuantified := hOpen.quantified
    simp [hActual, hExpected, Polytype.mono?] at hQuantified
  | openedStuck haBottom heBottom hRun =>
    subst hActual hExpected
    have hPair := opensPair hp hT.actual.1 hT.expected.1 (closed_univ _) (fun _ _ => trivial)
      fun _ _ => trivial
    obtain ⟨r', -, hr', hActual, hExpected⟩ := hPair.complete hT.expected.1 hr hSolved.actual
      hSolved.expected
    -- both instances are functions or constants, so the next step is not about a variable
    have hFirst := opened_ne_var hT.actual.2.1 haBottom hOpen.actual_ne p.enter
    have hSecond := opened_ne_var hT.expected.2.1 heBottom hOpen.expected_ne
      (p.enter.opened T.actual).2
    have hDepth := (hR hRun hPair.narrows.wellFormed hPair.coversActual hPair.second.covers r' hr'
      (hActual.trans hExpected.symm)).2
    rw [top_of_ne_var _ hFirst, top_of_ne_var _ hSecond, hActual] at hDepth
    exact hDepth hFirst hSecond

/-! ## Steps and runs -/

/-- The variables at the tops of two types have no solutions yet, so they can be tied. -/
theorem bound_of_top (hp : p.WellFormed) (hQuiet : p.Quiet q) {t : Monotype} {e : Entry}
    (hTop : p.top t = .var x) (hx : q.find? x = some e) : e.bound.type.mono? = none := by
  rw [hQuiet.find?] at hx
  exact (solution?_eq_none hx).1 (hp.acyclic.solution?_top hTop)

theorem Tie.merge_ready (hp : p.WellFormed) {y : String} {ey : Entry} (ha : p.top a = .var x)
    (he : p.top e = .var y) (hne : x ≠ y) (hQuiet : p.Quiet q) (hx : q.find? x = some ex)
    (hy : q.find? y = some ey) (hr : p.IsSolution r) (hEq : a.eval r = e.eval r) :
    (Tie.merge x y ex.bound ey.bound).Fits q Set.univ ∧ (Tie.merge x y ex.bound ey.bound).Open ∧
      (Tie.merge x y ex.bound ey.bound).Solved r (a.eval r) := by
  have hSame : r x = r y := by
    rw [← hr.eval_top a, ← hr.eval_top e, ha, he] at hEq
    exact hEq
  have hValue : r x = a.eval r := by
    rw [← hr.eval_top a, ha]
    rfl
  refine ⟨merge_fits (hQuiet.wellFormed hp).1 hne hx hy (closed_univ _) trivial trivial,
    merge_open (bound_of_top hp hQuiet ha hx) (bound_of_top hp hQuiet he hy), ?_⟩
  rw [← hValue]
  exact merge_solved (hQuiet.isSolution_iff.2 hr) hx hy hSame

/-- All that is known about a variable and a type that is none, at the tops of types that agree in a
solution, on either side. -/
theorem Tie.solve_ready (hp : p.WellFormed) (ha : p.Covers a) (he : p.Covers e) {t : Monotype}
    {swapped : Bool}
    (hTops : if swapped then p.top a = t ∧ p.top e = .var x else p.top a = .var x ∧ p.top e = t)
    (ht : ∀ y, t ≠ .var y) (hQuiet : p.Quiet q) (hx : q.find? x = some ex) (hr : p.IsSolution r)
    (hEq : a.eval r = e.eval r) :
    (Tie.solve x ex.bound t swapped).Fits q Set.univ ∧ (Tie.solve x ex.bound t swapped).Open ∧
      (Tie.solve x ex.bound t swapped).Solved r (a.eval r) := by
  -- whichever side the variable is on
  have hSides : p.Covers t ∧ ex.bound.type.mono? = none ∧ r x = t.eval r ∧ r x = a.eval r := by
    have haEval := hr.eval_top a
    have heEval := hr.eval_top e
    cases swapped with
    | true =>
      obtain ⟨rfl, heTop⟩ := hTops
      rw [heTop] at heEval
      exact ⟨hp.scoping.covers_top ha, bound_of_top hp hQuiet heTop hx,
        heEval.trans (hEq.symm.trans haEval.symm), heEval.trans hEq.symm⟩
    | false =>
      obtain ⟨haTop, rfl⟩ := hTops
      rw [haTop] at haEval
      exact ⟨hp.scoping.covers_top he, bound_of_top hp hQuiet haTop hx,
        haEval.trans (hEq.trans heEval.symm), haEval⟩
  obtain ⟨htCovers, hOpen, hSame, hValue⟩ := hSides
  refine ⟨solve_fits (hQuiet.wellFormed hp).1 hx (hQuiet.covers htCovers) swapped
    (closed_univ _) trivial fun _ _ => trivial, solve_open hOpen ht swapped, ?_⟩
  rw [← hValue]
  exact solve_solved (hQuiet.isSolution_iff.2 hr) hx hSame swapped

/-- What is known at the body of two function types, once their parameters agree. -/
theorem Exact.next (hSafe : Safe R) (hR : Exact R) {u v : Monotype} (h : R p u v (some (q, [])))
    (hp : p.WellFormed) (hFlexible : p.Flexible) (hu : p.Covers u) (hv : p.Covers v)
    (ha : p.Covers a) (he : p.Covers e) (hr : p.IsSolution r) (hParam : u.eval r = v.eval r)
    (hBody : a.eval r = e.eval r) :
    q.WellFormed ∧ q.Flexible ∧ q.Covers a ∧ q.Covers e ∧
      ∃ r', q.IsSolution r' ∧ a.eval r' = e.eval r' := by
  have hNarrows := hSafe.narrows h hp hu hv 0
  obtain ⟨hRefines, hKeeps⟩ := hR h hp hu hv 0
  obtain ⟨r', hSame, hr'⟩ := hRefines.complete r hr hParam
  refine ⟨hNarrows.wellFormed, hKeeps hFlexible, hNarrows.covers ha, hNarrows.covers he, r', hr', ?_⟩
  rw [ha.eval_congr hSame, he.eval_congr hSame, hBody]

/-- A step with reports had no solution, if the runs that it calls refute theirs. -/
theorem StepRun.refuting (hSafe : Safe R) (hExact : Exact R) (hR : Refuting R) :
    Refuting (StepRun R) := by
  intro p q a e d ds h hp hFlexible ha he r hr hEq
  generalize ho : some (q, d :: ds) = o at h
  cases h with
  | same => cases ho
  -- what the types lead to is in play
  | unbound hx hUnbound =>
    refine hUnbound ?_
    rcases hx with hx | hx
    · exact hp.scoping.binds_top ha hx
    · exact hp.scoping.binds_top he hx
  | merge haTop heTop hne hQuiet hx hy hTie =>
    subst ho
    have hFlexible' := hQuiet.flexible_iff.2 hFlexible
    obtain ⟨hFits, hOpen, hSolved⟩ := Tie.merge_ready hp haTop heTop hne hQuiet hx hy hr hEq
    exact hTie.refuting hSafe hExact hR (hQuiet.wellFormed hp).1 hFlexible' hFits
      (Tie.merge_loose hFlexible' hx hy hOpen) (hQuiet.isSolution_iff.2 hr) hSolved
  | solve hTops ht hQuiet hx hTie =>
    subst ho
    have hFlexible' := hQuiet.flexible_iff.2 hFlexible
    obtain ⟨hFits, hOpen, hSolved⟩ := Tie.solve_ready hp ha he hTops ht hQuiet hx hr hEq
    exact hTie.refuting hSafe hExact hR (hQuiet.wellFormed hp).1 hFlexible' hFits
      (Tie.solve_loose hFlexible' hx hOpen) (hQuiet.isSolution_iff.2 hr) hSolved
  -- different constants, or a constant and a function
  | clash hDiffer =>
    apply hDiffer r
    rw [hr.eval_top, hr.eval_top, hEq]
  | paramStuck => cases ho
  | bodyStuck => cases ho
  | @fn p' q₁ q₂ ds₁ ds₂ a₁ a₂ e₁ e₂ u v haTop heTop hQuiet hPair hParam hBody =>
    obtain ⟨hu, hv, ha₂, he₂⟩ := hQuiet.covers_parts hp ha he haTop heTop hPair
    obtain ⟨hFirst, hSecond⟩ := (hr.eval_parts haTop heTop hPair).1 hEq
    have hp' := (hQuiet.wellFormed hp).1
    have hFlexible' := hQuiet.flexible_iff.2 hFlexible
    have hr' := hQuiet.isSolution_iff.2 hr
    -- the first report is from the parameters if there is one from them
    cases ds₁ with
    | cons => exact hR hParam hp' hFlexible' hu hv r hr' hFirst
    | nil =>
      obtain ⟨rfl, rfl⟩ := Prod.mk.inj (Option.some.inj ho)
      obtain ⟨hq₁, hqFlexible, haq, heq, r₁, hr₁, hEq₁⟩ :=
        hExact.next hSafe hParam hp' hFlexible' hu hv ha₂ he₂ hr' hFirst hSecond
      exact hR hBody hq₁ hqFlexible haq heq r₁ hr₁ hEq₁

theorem run_refuting (fuel : Nat) : Refuting (Run fuel) := by
  induction fuel with
  | zero => exact fun h => nomatch h
  | succ n ih => exact StepRun.refuting (run_safe n) (run_exact n) ih

/-- What is known at the body of two function types: the solution is kept by their parameters. -/
theorem Keeping.next (hSafe : Safe R) (hR : Keeping R) {u v : Monotype}
    (h : R p u v (some (q, ds))) (hp : p.WellFormed) (hu : p.Covers u) (hv : p.Covers v)
    (ha : p.Covers a) (he : p.Covers e) (hr : p.IsSolution r) (hParam : u.eval r = v.eval r)
    (hBody : a.eval r = e.eval r) :
    q.WellFormed ∧ q.Covers a ∧ q.Covers e ∧
      ∃ r', (∀ x, p.Binds x → r' x = r x) ∧ q.IsSolution r' ∧ a.eval r' = e.eval r' := by
  have hNarrows := hSafe.narrows h hp hu hv 0
  obtain ⟨r', hSame, hr'⟩ := hR h hp hu hv r hr hParam
  refine ⟨hNarrows.wellFormed, hNarrows.covers ha, hNarrows.covers he, r', hSame, hr', ?_⟩
  rw [ha.eval_congr hSame, he.eval_congr hSame, hBody]

/-- A step keeps the solutions under which the types agree. -/
theorem StepRun.keeping (hSafe : Safe R) (hExact : Exact R) (hR : Keeping R) :
    Keeping (StepRun R) := by
  intro p q a e ds h hp ha he r hr hEq
  -- nothing but the books has changed
  have books {q : Prefix} (hQuiet : p.Quiet q) :
      ∃ r', (∀ x, p.Binds x → r' x = r x) ∧ q.IsSolution r' :=
    ⟨r, fun _ _ => rfl, hQuiet.isSolution_iff.2 hr⟩
  -- without reports this is what it means to be exact
  cases ds with
  | nil => exact (StepRun.exact hSafe hExact h hp ha he 0).1.complete r hr hEq
  | cons d ds =>
    generalize ho : some (q, d :: ds) = o at h
    cases h with
    | same => cases ho
    | unbound _ _ hQuiet =>
      cases ho
      exact books hQuiet
    | merge haTop heTop hne hQuiet hx hy hTie =>
      subst ho
      obtain ⟨hFits, -, hSolved⟩ := Tie.merge_ready hp haTop heTop hne hQuiet hx hy hr hEq
      obtain ⟨r', hSame, hr'⟩ := hTie.keeping hSafe hR (hQuiet.wellFormed hp).1 hFits
        (hQuiet.isSolution_iff.2 hr) hSolved
      exact ⟨r', fun x hx => hSame x ((hQuiet.binds x).2 hx), hr'⟩
    | solve hTops ht hQuiet hx hTie =>
      subst ho
      obtain ⟨hFits, -, hSolved⟩ := Tie.solve_ready hp ha he hTops ht hQuiet hx hr hEq
      obtain ⟨r', hSame, hr'⟩ := hTie.keeping hSafe hR (hQuiet.wellFormed hp).1 hFits
        (hQuiet.isSolution_iff.2 hr) hSolved
      exact ⟨r', fun x hx => hSame x ((hQuiet.binds x).2 hx), hr'⟩
    | clash _ hQuiet =>
      cases ho
      exact books hQuiet
    | paramStuck => cases ho
    | bodyStuck => cases ho
    | fn haTop heTop hQuiet hPair hParam hBody =>
      obtain ⟨rfl, -⟩ := Prod.mk.inj (Option.some.inj ho)
      obtain ⟨hu, hv, ha₂, he₂⟩ := hQuiet.covers_parts hp ha he haTop heTop hPair
      obtain ⟨hFirst, hSecond⟩ := (hr.eval_parts haTop heTop hPair).1 hEq
      have hp' := (hQuiet.wellFormed hp).1
      obtain ⟨hq₁, haq, heq, r₁, hSame₁, hr₁, hEq₁⟩ := hR.next hSafe hParam hp' hu hv ha₂ he₂
        (hQuiet.isSolution_iff.2 hr) hFirst hSecond
      obtain ⟨r₂, hSame₂, hr₂⟩ := hR hBody hq₁ haq heq r₁ hr₁ hEq₁
      refine ⟨r₂, fun x hx => ?_, hr₂⟩
      have hx' := (hQuiet.binds x).2 hx
      exact (hSame₂ x ((hSafe.narrows hParam hp' hu hv 0).binds hx')).trans (hSame₁ x hx')

theorem run_keeping (fuel : Nat) : Keeping (Run fuel) := by
  induction fuel with
  | zero => exact fun h => nomatch h
  | succ n ih => exact StepRun.keeping (run_safe n) (run_exact n) ih

/-- One step deeper. -/
theorem StepRun.shallow {depth : Nat} (hSafe : Safe R) (hKeeping : Keeping R)
    (hR : Shallow depth R) : Shallow (depth + 1) (StepRun R) := by
  intro p a e h hp ha he r hr hEq
  generalize ho : (none : Outcome) = o at h
  cases h with
  | same => cases ho
  | unbound => cases ho
  | merge haTop heTop hne hQuiet hx hy hTie =>
    subst ho
    obtain ⟨hFits, hOpen, hSolved⟩ := Tie.merge_ready hp haTop heTop hne hQuiet hx hy hr hEq
    -- a variable comes first here, so one more step is granted
    have hDepth := hTie.shallow hR (hQuiet.wellFormed hp).1 hFits hOpen
      (hQuiet.isSolution_iff.2 hr) hSolved
    exact ⟨by omega, fun hNotVar => absurd haTop (hNotVar _)⟩
  | @solve _ _ _ _ swapped _ hTops ht hQuiet hx hTie =>
    subst ho
    obtain ⟨hFits, hOpen, hSolved⟩ := Tie.solve_ready hp ha he hTops ht hQuiet hx hr hEq
    have hDepth := hTie.shallow hR (hQuiet.wellFormed hp).1 hFits hOpen
      (hQuiet.isSolution_iff.2 hr) hSolved
    refine ⟨by omega, fun haNotVar heNotVar => ?_⟩
    cases swapped with
    | true => exact absurd hTops.2 (heNotVar _)
    | false => exact absurd hTops.1 (haNotVar _)
  | clash => cases ho
  | paramStuck haTop heTop hQuiet hPair hParam =>
    obtain ⟨hu, hv, -, -⟩ := hQuiet.covers_parts hp ha he haTop heTop hPair
    obtain ⟨hFirst, -⟩ := (hr.eval_parts haTop heTop hPair).1 hEq
    have hDepth := (hR hParam (hQuiet.wellFormed hp).1 hu hv r (hQuiet.isSolution_iff.2 hr)
      hFirst).1
    -- the parts are smaller, which pays for two steps
    have hHeight := hr.height_parts haTop heTop hPair hEq
    exact ⟨by omega, fun _ _ => by omega⟩
  | @bodyStuck p' q₁ ds a₁ a₂ e₁ e₂ u v haTop heTop hQuiet hPair hParam hBody =>
    obtain ⟨hu, hv, ha₂, he₂⟩ := hQuiet.covers_parts hp ha he haTop heTop hPair
    obtain ⟨hFirst, hSecond⟩ := (hr.eval_parts haTop heTop hPair).1 hEq
    obtain ⟨hq₁, haq, heq, r₁, hSame, hr₁, hEq₁⟩ := hKeeping.next hSafe hParam
      (hQuiet.wellFormed hp).1 hu hv ha₂ he₂ (hQuiet.isSolution_iff.2 hr) hFirst hSecond
    have hDepth := (hR hBody hq₁ haq heq r₁ hr₁ hEq₁).1
    rw [ha₂.eval_congr hSame] at hDepth
    have hHeight := hr.height_parts haTop heTop hPair hEq
    exact ⟨by omega, fun _ _ => by omega⟩
  | fn => cases ho

theorem run_shallow (fuel : Nat) : Shallow fuel (Run fuel) := by
  induction fuel with
  | zero => exact fun _ _ _ _ _ _ _ => ⟨Nat.zero_le _, fun _ _ => Nat.zero_le _⟩
  | succ n ih => exact StepRun.shallow (run_safe n) (run_keeping n) ih

/-! ## Unification itself -/

theorem within_refines {fuel : Nat} {call : Bool} {s s' : Session}
    (h : within fuel a e call s = .ok (none, s')) (hp : s.vars.WellFormed) (ha : s.vars.Covers a)
    (he : s.vars.Covers e) (k : Nat) :
    (Refines k s.vars s'.vars fun r => a.eval r = e.eval r) ∧
      (s.vars.Flexible → s'.vars.Flexible) ∧ s'.sink = s.sink := by
  obtain ⟨ds, hRun, hVerdict, hSink⟩ := run_of_within_ok h
  obtain rfl : ds = [] := List.head?_eq_none_iff.1 hVerdict.symm
  obtain ⟨hRefines, hFlexible⟩ := run_exact fuel hRun hp ha he k
  exact ⟨hRefines, hFlexible, hSink⟩

theorem within_refutes {fuel : Nat} {call : Bool} {s s' : Session} {d : Diagnostic}
    (h : within fuel a e call s = .ok (some d, s')) (hp : s.vars.WellFormed)
    (hFlexible : s.vars.Flexible) (ha : s.vars.Covers a) (he : s.vars.Covers e)
    (hr : s.vars.IsSolution r) : a.eval r ≠ e.eval r := by
  obtain ⟨ds, hRun, hVerdict, -⟩ := run_of_within_ok h
  obtain ⟨rest, rfl⟩ := List.head?_eq_some_iff.1 hVerdict.symm
  exact run_refuting fuel hRun hp hFlexible ha he r hr

/-- An equation that has a solution is solved, with more fuel than twice the height of the value. -/
theorem within_returns {fuel : Nat} {s : Session} (hp : s.vars.WellFormed)
    (hFlexible : s.vars.Flexible) (ha : s.vars.Covers a) (he : s.vars.Covers e)
    (hr : s.vars.IsSolution r) (hEq : a.eval r = e.eval r)
    (hFuel : 2 * (a.eval r).height + 1 < fuel) (call : Bool) :
    ∃ s', within fuel a e call s = .ok (none, s') := by
  obtain ⟨o, lost, hRun, hResult⟩ := within_follows fuel a e call s
  rcases o with _ | ⟨q, _ | ⟨d, ds⟩⟩
  · have hDepth := (run_shallow fuel hRun hp ha he r hr hEq).1
    omega
  · exact ⟨_, hResult⟩
  · exact absurd hEq (run_refuting fuel hRun hp hFlexible ha he r hr)

/-- Unification that succeeds keeps exactly the solutions that make its types agree. Where no bound
is rigid, it fails only if there are none, and it succeeds if there is one, given the fuel. -/
theorem unify_keeps_solutions {p : Prefix} (hp : p.WellFormed) {a e : Monotype} (ha : p.Covers a)
    (he : p.Covers e) (fuel : Nat) (sink : Sink) :
    (∀ s, Mlf.unify fuel a e ⟨p, sink⟩ = .ok (none, s) ∨
        Mlf.unifyCall fuel a e ⟨p, sink⟩ = .ok (none, s) →
      ∀ r, (∃ r', (∀ x, p.Binds x → r' x = r x) ∧ s.vars.IsSolution r') ↔
        p.IsSolution r ∧ a.eval r = e.eval r) ∧
    (p.Flexible → ∀ d s, Mlf.unify fuel a e ⟨p, sink⟩ = .ok (some d, s) ∨
        Mlf.unifyCall fuel a e ⟨p, sink⟩ = .ok (some d, s) →
      ∀ r, p.IsSolution r → a.eval r ≠ e.eval r) ∧
    (p.Flexible → ∀ r, p.IsSolution r → a.eval r = e.eval r → 2 * (a.eval r).height + 1 < fuel →
      (∃ s, Mlf.unify fuel a e ⟨p, sink⟩ = .ok (none, s)) ∧
        ∃ s, Mlf.unifyCall fuel a e ⟨p, sink⟩ = .ok (none, s)) := by
  refine ⟨fun s h r => ?_, fun hFlexible d s h r hr => ?_, fun hFlexible r hr hEq hFuel => ?_⟩
  · -- either way to call unification
    have hRefines : Refines 0 p s.vars fun r => a.eval r = e.eval r := by
      rcases h with h | h
      · exact (within_refines h hp ha he 0).1
      · exact (within_refines h hp ha he 0).1
    constructor
    · rintro ⟨r', hSame, hr'⟩
      obtain ⟨hSolution, hEq⟩ := hRefines.sound r' hr'
      -- the types are over the variables that were in play before
      rw [ha.eval_congr hSame, he.eval_congr hSame] at hEq
      exact ⟨hSolution.congr hp.scoping fun x hx => (hSame x hx).symm, hEq⟩
    · rintro ⟨hr, hEq⟩
      exact hRefines.complete r hr hEq
  · rcases h with h | h
    · exact within_refutes h hp hFlexible ha he hr
    · exact within_refutes h hp hFlexible ha he hr
  · exact ⟨within_returns hp hFlexible ha he hr hEq hFuel false,
      within_returns hp hFlexible ha he hr hEq hFuel true⟩

/-- The identity called with a number: its type has instances of all shapes, and one is left. -/
theorem unify_keeps_solutions_identity : ∃ p s,
    p = (empty.enter.add "f" ⟨.flexible, .all "b" .flexible .bottom
      (.mono (.fn (.var "b") (.var "b")))⟩).add "y" .unbounded ∧
    p.WellFormed ∧
    Mlf.unifyCall 4 (.var "f") (.fn (.const .number) (.var "y")) ⟨p, .empty⟩ = .ok (none, s) ∧
    ∀ r, (∃ r', (∀ x, p.Binds x → r' x = r x) ∧ s.vars.IsSolution r') ↔
      p.IsSolution r ∧ r "f" = .fn (.const .number) (r "y") := by
  obtain ⟨p, s, hEq, hRun⟩ : ∃ p s,
      p = (empty.enter.add "f" ⟨.flexible, .all "b" .flexible .bottom
        (.mono (.fn (.var "b") (.var "b")))⟩).add "y" .unbounded ∧
      Mlf.unifyCall 4 (.var "f") (.fn (.const .number) (.var "y")) ⟨p, .empty⟩ = .ok (none, s) :=
    ⟨_, _, rfl, by cbv⟩
  have hp : p.WellFormed := by
    subst hEq
    exact (wellFormed_empty.enter.add (by decide)).add (by decide)
  have hActual : p.Covers (Monotype.var "f") := by
    subst hEq
    decide
  have hExpected : p.Covers (Monotype.fn (.const .number) (.var "y")) := by
    subst hEq
    decide
  exact ⟨p, s, hEq, hp, hRun, (unify_keeps_solutions hp hActual hExpected 4 .empty).1 s (Or.inr hRun)⟩

end Unify

end Mlf
