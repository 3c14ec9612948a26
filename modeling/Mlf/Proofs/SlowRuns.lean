import Mathlib.Order.Filter.AtTopBot.Basic
import Mlf.Proofs.UnifySolutions

/-!
# Runs that look at every part

Types that are one solution of one variable are the same without a look at their parts. Whether a run
sees that depends on where its types come from, and two runs on the same types may well have got them
from different places. A slow run never sees it: it goes down two function types even where they are
the same. It does what the other runs do, it only takes more fuel for that.

So runs that differ in what they see can be compared by way of slow runs. There is always fuel that is
enough for the slow run too (`eventually_slowRun`), and on the way there a slow run is at most stuck
where the other one has ended (`slowRun_or_stuck`).
-/

namespace Mlf

open Prefix Filter

namespace Unify

variable {R R' : Behavior} {S : Nat → Behavior} {T : Tie} {p q : Prefix} {a e u v : Monotype}
  {o : Outcome}

/-! ## Where the parts of a run start -/

/-- The runs of a behavior that start where they should: from a well-formed prefix, on types over its
variables. -/
def Safely (R : Behavior) : Behavior :=
  fun p a e o => p.WellFormed ∧ p.Covers a ∧ p.Covers e ∧ R p a e o

theorem PolyRun.safely {a e : Polytype} {o : Option (Prefix × List Diagnostic × Polytype)}
    (h : PolyRun R p a e o) (hp : p.WellFormed) (ha : p.Covers a) (he : p.Covers e) :
    PolyRun (Safely R) p a e o := by
  have hPair := opensPair hp ha he (closed_univ p) (fun _ _ => trivial) fun _ _ => trivial
  cases h with
  | left => exact .left _
  | right => exact .right _
  | monoStuck hRun => exact .monoStuck ⟨hp, ha, he, hRun⟩
  | mono hRun => exact .mono ⟨hp, ha, he, hRun⟩
  | openedStuck hActual hExpected hRun =>
    exact .openedStuck hActual hExpected
      ⟨hPair.narrows.wellFormed, hPair.coversActual, hPair.second.covers, hRun⟩
  | opened hActual hExpected hRun =>
    exact .opened hActual hExpected
      ⟨hPair.narrows.wellFormed, hPair.coversActual, hPair.second.covers, hRun⟩

theorem TieRun.safely (h : TieRun R p T o) (hp : p.WellFormed) (hT : T.Fits p Set.univ) :
    TieRun (Safely R) p T o := by
  -- the two types of the tie are over the variables in play
  have poly {o : Option (Prefix × List Diagnostic × Polytype)}
      (hPoly : PolyRun R p T.actual T.expected o) : PolyRun (Safely R) p T.actual T.expected o :=
    hPoly.safely hp hT.actual.1 hT.expected.1
  cases h with
  | clash hRigid hBottom hQuiet hd hBounds => exact .clash hRigid hBottom hQuiet hd hBounds
  | cycle hx hOccurs hQuiet hd => exact .cycle hx hOccurs hQuiet hd
  | stuck hPoly hBegins => exact .stuck (poly hPoly) hBegins
  | failed hPoly hBegins => exact .failed (poly hPoly) hBegins
  | rigid hPoly hRigid hDiffer hQuiet hd hBegins =>
    exact .rigid (poly hPoly) hRigid hDiffer hQuiet hd hBegins
  | knot hPoly hx hOccurs hQuiet hd hBegins => exact .knot (poly hPoly) hx hOccurs hQuiet hd hBegins
  | tied hBegins hPoly hQuiet hFree hSame => exact .tied hBegins (poly hPoly) hQuiet hFree hSame

/-- The parts of a run that starts where it should start where they should. -/
theorem StepRun.safely (hSafe : Safe R) (h : StepRun R p a e o) (hp : p.WellFormed)
    (ha : p.Covers a) (he : p.Covers e) : StepRun (Safely R) p a e o := by
  have hOver : ∀ t : Monotype, ∀ x ∈ t.freeVars, x ∈ (Set.univ : Set String) := fun _ _ _ => trivial
  cases h with
  | same hTop hQuiet => exact .same hTop hQuiet
  | unbound hx hUnbound hQuiet => exact .unbound hx hUnbound hQuiet
  | merge haTop heTop hne hQuiet hx hy hTie =>
    have hp' := (hQuiet.wellFormed hp).1
    exact .merge haTop heTop hne hQuiet hx hy
      (hTie.safely hp' (Tie.merge_fits hp' hne hx hy (closed_univ _) trivial trivial))
  | @solve _ _ t _ swapped _ hTops ht hQuiet hx hTie =>
    have hp' := (hQuiet.wellFormed hp).1
    have hCovers : p.Covers t := by
      cases swapped with
      | true => exact hTops.1 ▸ hp.scoping.covers_top ha
      | false => exact hTops.2 ▸ hp.scoping.covers_top he
    exact .solve hTops ht hQuiet hx (hTie.safely hp' (Tie.solve_fits hp' hx (hQuiet.covers hCovers)
      swapped (closed_univ _) trivial (hOver t)))
  | clash hDiffer hQuiet hd hConst => exact .clash hDiffer hQuiet hd hConst
  | paramStuck haTop heTop hQuiet hPair hParam =>
    obtain ⟨hu, hv, -⟩ := hQuiet.covers_parts hp ha he haTop heTop hPair
    exact .paramStuck haTop heTop hQuiet hPair ⟨(hQuiet.wellFormed hp).1, hu, hv, hParam⟩
  | bodyStuck haTop heTop hQuiet hPair hParam hBody =>
    obtain ⟨hu, hv, ha₂, he₂⟩ := hQuiet.covers_parts hp ha he haTop heTop hPair
    have hp' := (hQuiet.wellFormed hp).1
    -- the bodies are over the variables that the parameters leave in play
    have hNarrows := hSafe.narrows hParam hp' hu hv 0
    exact .bodyStuck haTop heTop hQuiet hPair ⟨hp', hu, hv, hParam⟩
      ⟨hNarrows.wellFormed, hNarrows.covers ha₂, hNarrows.covers he₂, hBody⟩
  | fn haTop heTop hQuiet hPair hParam hBody =>
    obtain ⟨hu, hv, ha₂, he₂⟩ := hQuiet.covers_parts hp ha he haTop heTop hPair
    have hp' := (hQuiet.wellFormed hp).1
    have hNarrows := hSafe.narrows hParam hp' hu hv 0
    exact .fn haTop heTop hQuiet hPair ⟨hp', hu, hv, hParam⟩
      ⟨hNarrows.wellFormed, hNarrows.covers ha₂, hNarrows.covers he₂, hBody⟩

/-! ## Runs that need more fuel for their parts -/

section

variable (h : ∀ (p : Prefix) (a e : Monotype) (out : Prefix × List Diagnostic),
  R p a e (some out) → ∀ᶠ n in atTop, S n p a e (some out))
include h

theorem PolyRun.eventually {a e : Polytype} {out : Prefix × List Diagnostic × Polytype}
    (hRun : PolyRun R p a e (some out)) : ∀ᶠ n in atTop, PolyRun (S n) p a e (some out) := by
  cases hRun with
  | left => exact .of_forall fun _ => .left _
  | right => exact .of_forall fun _ => .right _
  | mono hRun => exact (h _ _ _ _ hRun).mono fun _ hNext => .mono hNext
  | opened ha he hRun => exact (h _ _ _ _ hRun).mono fun _ hNext => .opened ha he hNext

theorem TieRun.eventually {out : Prefix × List Diagnostic} (hRun : TieRun R p T (some out)) :
    ∀ᶠ n in atTop, TieRun (S n) p T (some out) := by
  cases hRun with
  | clash hRigid hBottom hQuiet hd hBounds =>
    exact .of_forall fun _ => .clash hRigid hBottom hQuiet hd hBounds
  | cycle hx hOccurs hQuiet hd => exact .of_forall fun _ => .cycle hx hOccurs hQuiet hd
  | failed hPoly hBegins => exact (hPoly.eventually h).mono fun _ hNext => .failed hNext hBegins
  | rigid hPoly hRigid hDiffer hQuiet hd hBegins =>
    exact (hPoly.eventually h).mono fun _ hNext => .rigid hNext hRigid hDiffer hQuiet hd hBegins
  | knot hPoly hx hOccurs hQuiet hd hBegins =>
    exact (hPoly.eventually h).mono fun _ hNext => .knot hNext hx hOccurs hQuiet hd hBegins
  | tied hBegins hPoly hQuiet hFree hSame =>
    exact (hPoly.eventually h).mono fun _ hNext => .tied hBegins hNext hQuiet hFree hSame

/-- If there is always fuel for the parts of a run, then there is fuel for all of them. -/
theorem StepRun.eventually {out : Prefix × List Diagnostic} (hRun : StepRun R p a e (some out)) :
    ∀ᶠ n in atTop, StepRun (S n) p a e (some out) := by
  cases hRun with
  | same hTop hQuiet => exact .of_forall fun _ => .same hTop hQuiet
  | unbound hx hUnbound hQuiet => exact .of_forall fun _ => .unbound hx hUnbound hQuiet
  | merge haTop heTop hne hQuiet hx hy hTie =>
    exact (hTie.eventually h).mono fun _ hNext => .merge haTop heTop hne hQuiet hx hy hNext
  | solve hTops ht hQuiet hx hTie =>
    exact (hTie.eventually h).mono fun _ hNext => .solve hTops ht hQuiet hx hNext
  | clash hDiffer hQuiet hd hConst =>
    exact .of_forall fun _ => .clash hDiffer hQuiet hd hConst
  | fn haTop heTop hQuiet hPair hParam hBody =>
    -- the larger of the two amounts is enough for both parts
    filter_upwards [h _ _ _ _ hParam, h _ _ _ _ hBody] with n hParam' hBody'
    exact .fn haTop heTop hQuiet hPair hParam' hBody'

end

section

variable (h : ∀ (p : Prefix) (a e : Monotype) (o : Outcome), R p a e o → R' p a e o ∨ R' p a e none)
include h

theorem PolyRun.or_stuck {a e : Polytype} {o : Option (Prefix × List Diagnostic × Polytype)}
    (hRun : PolyRun R p a e o) : PolyRun R' p a e o ∨ PolyRun R' p a e none := by
  cases hRun with
  | left => exact Or.inl (.left _)
  | right => exact Or.inl (.right _)
  | monoStuck hRun => exact Or.inl (.monoStuck ((h _ _ _ _ hRun).elim id id))
  | mono hRun => exact (h _ _ _ _ hRun).imp .mono .monoStuck
  | openedStuck ha he hRun => exact Or.inl (.openedStuck ha he ((h _ _ _ _ hRun).elim id id))
  | opened ha he hRun => exact (h _ _ _ _ hRun).imp (.opened ha he) (.openedStuck ha he)

theorem TieRun.or_stuck (hRun : TieRun R p T o) : TieRun R' p T o ∨ TieRun R' p T none := by
  cases hRun with
  | clash hRigid hBottom hQuiet hd hBounds =>
    exact Or.inl (.clash hRigid hBottom hQuiet hd hBounds)
  | cycle hx hOccurs hQuiet hd => exact Or.inl (.cycle hx hOccurs hQuiet hd)
  | stuck hPoly hBegins => exact Or.inl (.stuck ((hPoly.or_stuck h).elim id id) hBegins)
  | failed hPoly hBegins => exact (hPoly.or_stuck h).imp (.failed · hBegins) (.stuck · hBegins)
  | rigid hPoly hRigid hDiffer hQuiet hd hBegins =>
    exact (hPoly.or_stuck h).imp (.rigid · hRigid hDiffer hQuiet hd hBegins) (.stuck · hBegins)
  | knot hPoly hx hOccurs hQuiet hd hBegins =>
    exact (hPoly.or_stuck h).imp (.knot · hx hOccurs hQuiet hd hBegins) (.stuck · hBegins)
  | tied hBegins hPoly hQuiet hFree hSame =>
    exact (hPoly.or_stuck h).imp (.tied hBegins · hQuiet hFree hSame) (.stuck · hBegins)

/-- If the parts of a run are at most stuck, then so is the run. -/
theorem StepRun.or_stuck (hRun : StepRun R p a e o) :
    StepRun R' p a e o ∨ StepRun R' p a e none := by
  cases hRun with
  | same hTop hQuiet => exact Or.inl (.same hTop hQuiet)
  | unbound hx hUnbound hQuiet => exact Or.inl (.unbound hx hUnbound hQuiet)
  | merge haTop heTop hne hQuiet hx hy hTie =>
    exact (hTie.or_stuck h).imp (.merge haTop heTop hne hQuiet hx hy)
      (.merge haTop heTop hne hQuiet hx hy)
  | solve hTops ht hQuiet hx hTie =>
    exact (hTie.or_stuck h).imp (.solve hTops ht hQuiet hx) (.solve hTops ht hQuiet hx)
  | clash hDiffer hQuiet hd hConst => exact Or.inl (.clash hDiffer hQuiet hd hConst)
  | paramStuck haTop heTop hQuiet hPair hParam =>
    exact Or.inl (.paramStuck haTop heTop hQuiet hPair ((h _ _ _ _ hParam).elim id id))
  | bodyStuck haTop heTop hQuiet hPair hParam hBody =>
    -- a parameter that is stuck leaves the body aside
    rcases h _ _ _ _ hParam with hParam' | hParam'
    · exact Or.inl (.bodyStuck haTop heTop hQuiet hPair hParam' ((h _ _ _ _ hBody).elim id id))
    · exact Or.inl (.paramStuck haTop heTop hQuiet hPair hParam')
  | fn haTop heTop hQuiet hPair hParam hBody =>
    rcases h _ _ _ _ hParam with hParam' | hParam'
    · exact (h _ _ _ _ hBody).imp (.fn haTop heTop hQuiet hPair hParam')
        (.bodyStuck haTop heTop hQuiet hPair hParam')
    · exact Or.inr (.paramStuck haTop heTop hQuiet hPair hParam')

end

/-! ## Slow runs -/

/-- A run on two types and then a run on two others. -/
inductive Both (R : Behavior) (p : Prefix) (u v w z : Monotype) : Outcome → Prop
  | firstStuck (h : R p u v none) : Both R p u v w z none
  | secondStuck {q : Prefix} {ds : List Diagnostic} (h : R p u v (some (q, ds)))
    (h' : R q w z none) : Both R p u v w z none
  | ends {q q' : Prefix} {ds ds' : List Diagnostic} (h : R p u v (some (q, ds)))
    (h' : R q w z (some (q', ds'))) : Both R p u v w z (some (q', ds ++ ds'))

/-- A step that goes down two function types even where they are the same. -/
inductive SlowStep (R : Behavior) (p : Prefix) (a e : Monotype) (o : Outcome) : Prop
  | parts {q : Prefix} {u v : Monotype} (ha : p.top a = .fn u v) (he : p.top e = .fn u v)
    (hQuiet : p.Quiet q) (h : Both R q u u v v o)
  | step (hDiffer : ∀ u v, p.top a = .fn u v → p.top e ≠ .fn u v) (h : StepRun R p a e o)

/-- Slow runs with a bound on the depth of the recursion. -/
def SlowRun : (fuel : Nat) → Behavior
  | 0 => fun _ _ _ o => o = none
  | n + 1 => SlowStep (SlowRun n)

/-- Slow steps are steps. -/
theorem SlowStep.stepRun (h : SlowStep R p a e o) : StepRun R p a e o := by
  cases h with
  | parts ha he hQuiet hBoth =>
    cases hBoth with
    | firstStuck hFirst => exact .paramStuck ha he hQuiet (Or.inl ⟨rfl, rfl⟩) hFirst
    | secondStuck hFirst hSecond =>
      exact .bodyStuck ha he hQuiet (Or.inl ⟨rfl, rfl⟩) hFirst hSecond
    | ends hFirst hSecond => exact .fn ha he hQuiet (Or.inl ⟨rfl, rfl⟩) hFirst hSecond
  | step _ h => exact h

theorem slowRun_safe (fuel : Nat) : Safe (SlowRun fuel) := by
  induction fuel with
  | zero => exact fun h => nomatch h
  | succ n ih => exact fun h => StepRun.narrows ih h.stepRun

/-- A step on types that are one function type either looks at the parts or does nothing. -/
theorem StepRun.same_or_both (h : StepRun R p a e o) (ha : p.top a = .fn u v)
    (he : p.top e = .fn u v) :
    ∃ q, p.Quiet q ∧ (o = some (q, []) ∨ Both R q u u v v o) := by
  -- neither top is a variable or a constant
  have hVar {t : Monotype} {x : String} (ht : p.top t = .fn u v) (hx : p.top t = .var x) : False := by
    rw [ht] at hx
    cases hx
  have hParts {t a₁ a₂ : Monotype} (ht : p.top t = .fn u v) (hFn : p.top t = .fn a₁ a₂) :
      a₁ = u ∧ a₂ = v := by
    rw [ht] at hFn
    obtain ⟨rfl, rfl⟩ := Monotype.fn.inj hFn
    exact ⟨rfl, rfl⟩
  cases h with
  | same _ hQuiet => exact ⟨_, hQuiet, Or.inl rfl⟩
  | unbound hx => exact (hx.elim (hVar ha) (hVar he)).elim
  | merge haTop => exact (hVar ha haTop).elim
  | @solve _ _ _ _ swapped _ hTops =>
    cases swapped with
    | true => exact (hVar he hTops.2).elim
    | false => exact (hVar ha hTops.1).elim
  | clash hDiffer => exact absurd (by rw [ha, he]) (hDiffer fun _ => .const .number)
  | paramStuck haTop heTop hQuiet hPair hParam =>
    obtain ⟨rfl, rfl⟩ := hParts ha haTop
    obtain ⟨rfl, rfl⟩ := hParts he heTop
    obtain ⟨rfl, rfl⟩ := hPair.elim id id
    exact ⟨_, hQuiet, Or.inr (.firstStuck hParam)⟩
  | bodyStuck haTop heTop hQuiet hPair hParam hBody =>
    obtain ⟨rfl, rfl⟩ := hParts ha haTop
    obtain ⟨rfl, rfl⟩ := hParts he heTop
    obtain ⟨rfl, rfl⟩ := hPair.elim id id
    exact ⟨_, hQuiet, Or.inr (.secondStuck hParam hBody)⟩
  | fn haTop heTop hQuiet hPair hParam hBody =>
    obtain ⟨rfl, rfl⟩ := hParts ha haTop
    obtain ⟨rfl, rfl⟩ := hParts he heTop
    obtain ⟨rfl, rfl⟩ := hPair.elim id id
    exact ⟨_, hQuiet, Or.inr (.ends hParam hBody)⟩

/-- A slow run on types that are the same has nothing to report, if it ends. -/
theorem slowRun_same_or_stuck (fuel : Nat) (hTop : p.top a = p.top e) (hQuiet : p.Quiet q) :
    SlowRun fuel p a e (some (q, [])) ∨ SlowRun fuel p a e none := by
  induction fuel generalizing q a e with
  | zero => exact Or.inr rfl
  | succ n ih =>
    by_cases hFn : ∃ u v, p.top a = .fn u v
    · obtain ⟨u, v, ha⟩ := hFn
      have he := hTop.symm.trans ha
      rcases ih (a := u) rfl (Quiet.refl p) with hFirst | hFirst
      · exact (ih (a := v) rfl hQuiet).imp
          (fun hSecond => .parts ha he (.refl p) (.ends hFirst hSecond))
          fun hSecond => .parts ha he (.refl p) (.secondStuck hFirst hSecond)
      · exact Or.inr (.parts ha he (.refl p) (.firstStuck hFirst))
    · exact Or.inl (.step (fun u v ha => absurd ⟨u, v, ha⟩ hFn) (.same hTop hQuiet))

/-- A slow run ends like another run with the same fuel, unless it is stuck. -/
theorem slowRun_or_stuck (fuel : Nat) (h : Run fuel p a e o) :
    SlowRun fuel p a e o ∨ SlowRun fuel p a e none := by
  induction fuel generalizing p a e o with
  | zero => exact Or.inl h
  | succ n ih =>
    -- functions with the same parts, where the slow run goes on with the parts
    by_cases hSame : ∃ u v, p.top a = .fn u v ∧ p.top e = .fn u v
    · obtain ⟨u, v, ha, he⟩ := hSame
      obtain ⟨q, hQuiet, rfl | hBoth⟩ := StepRun.same_or_both h ha he
      · exact slowRun_same_or_stuck (n + 1) (ha.trans he.symm) hQuiet
      cases hBoth with
      | firstStuck hFirst =>
        exact Or.inl (.parts ha he hQuiet (.firstStuck ((ih hFirst).elim id id)))
      | secondStuck hFirst hSecond =>
        rcases ih hFirst with hFirst' | hFirst'
        · exact Or.inl (.parts ha he hQuiet (.secondStuck hFirst' ((ih hSecond).elim id id)))
        · exact Or.inl (.parts ha he hQuiet (.firstStuck hFirst'))
      | ends hFirst hSecond =>
        rcases ih hFirst with hFirst' | hFirst'
        · exact (ih hSecond).imp (fun hSecond' => .parts ha he hQuiet (.ends hFirst' hSecond'))
            fun hSecond' => .parts ha he hQuiet (.secondStuck hFirst' hSecond')
        · exact Or.inr (.parts ha he hQuiet (.firstStuck hFirst'))
    · have hDiffer : ∀ u v, p.top a = .fn u v → p.top e ≠ .fn u v :=
        fun u v ha he => hSame ⟨u, v, ha, he⟩
      -- otherwise it takes the same step
      have hStep : StepRun (SlowRun n) p a e o ∨ StepRun (SlowRun n) p a e none :=
        StepRun.or_stuck (fun _ _ _ _ hPart => ih hPart) h
      exact hStep.imp (.step hDiffer) (.step hDiffer)

theorem eventually_slowRun_of_step (h : ∀ᶠ n in atTop, SlowStep (SlowRun n) p a e o) :
    ∀ᶠ n in atTop, SlowRun n p a e o := by
  rw [← map_add_atTop_eq_nat 1]
  exact h

/-- A slow run on types that are the same ends, since it goes down one type. -/
theorem eventually_slowRun_same (hp : p.Acyclic) (hTop : p.top a = p.top e) (hQuiet : p.Quiet q) :
    ∀ᶠ n in atTop, SlowRun n p a e (some (q, [])) := by
  obtain ⟨r, hr⟩ := hp.exists_isSolution
  generalize hSize : (a.eval r).height = size
  induction size using Nat.strong_induction_on generalizing a e q with
  | _ size ih =>
    apply eventually_slowRun_of_step
    by_cases hFn : ∃ u v, p.top a = .fn u v
    · obtain ⟨u, v, ha⟩ := hFn
      have he := hTop.symm.trans ha
      have hParts : (u.eval r).height < size ∧ (v.eval r).height < size := by
        rw [← hSize, ← hr.eval_top a, ha]
        simp only [Monotype.eval, Ground.height]
        omega
      filter_upwards [ih _ hParts.1 (a := u) rfl (.refl p) rfl, ih _ hParts.2 (a := v) rfl hQuiet rfl]
        with n hFirst hSecond
      exact .parts ha he (.refl p) (.ends hFirst hSecond)
    · exact .of_forall fun n => .step (fun u v ha => absurd ⟨u, v, ha⟩ hFn) (.same hTop hQuiet)

/-- Whatever a run leaves behind, slow runs with enough fuel leave behind too. -/
theorem eventually_slowRun (fuel : Nat) {out : Prefix × List Diagnostic}
    (h : Run fuel p a e (some out)) (hp : p.WellFormed) (ha : p.Covers a) (he : p.Covers e) :
    ∀ᶠ n in atTop, SlowRun n p a e (some out) := by
  induction fuel generalizing p a e out with
  | zero => cases h
  | succ n ih =>
    have hStep := StepRun.safely (run_safe n) h hp ha he
    -- parts are met safely, so the induction applies to them
    have hParts {p : Prefix} {a e : Monotype} {out : Prefix × List Diagnostic}
        (h : Safely (Run n) p a e (some out)) : ∀ᶠ m in atTop, SlowRun m p a e (some out) :=
      ih h.2.2.2 h.1 h.2.1 h.2.2.1
    by_cases hSame : ∃ u v, p.top a = .fn u v ∧ p.top e = .fn u v
    · obtain ⟨u, v, haTop, heTop⟩ := hSame
      obtain ⟨q, hQuiet, hEq | hBoth⟩ := hStep.same_or_both haTop heTop
      · obtain rfl := Option.some.inj hEq
        exact eventually_slowRun_same hp.acyclic (haTop.trans heTop.symm) hQuiet
      · apply eventually_slowRun_of_step
        cases hBoth with
        | ends hFirst hSecond =>
          -- as much fuel as both parts take
          filter_upwards [hParts hFirst, hParts hSecond] with m hFirst' hSecond'
          exact .parts haTop heTop hQuiet (.ends hFirst' hSecond')
    · apply eventually_slowRun_of_step
      exact (hStep.eventually fun _ _ _ _ => hParts).mono fun m hNext =>
        .step (fun u v haTop heTop => hSame ⟨u, v, haTop, heTop⟩) hNext

end Unify

end Mlf
