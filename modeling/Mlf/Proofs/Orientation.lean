import Mathlib
import Mlf.Proofs.Lockstep
import Mlf.Proofs.SlowRuns
import Mlf.Proofs.Termination

/-!
# The order of the two types

Unification takes an actual and an expected type, and it may be told that they are the type of a
function and the type at which it is called. Neither matters for whether the types match. The runs from
copies of one prefix all end or none does, and they all succeed or all report mismatches. It is the
reports that differ, and how much fuel is needed: where two types come from one variable in one run,
one of them may have been written out in another run, which then has to look at its parts.

Slow runs look at all parts, so they need the same fuel too. A step of theirs goes by how the tops of
the two types are read, in some order, and two runs on types that are read alike take steps of one
kind. The induction on the fuel then has nothing to do with the order any more. What is found out about
slow runs goes for the others, if only there is fuel enough.

Main results:

* `slowRun_lockstep` — slow runs with the same fuel are in step;
* `orientation_agrees` — the four runs on two types end alike, if one of them ends;
* `orientation_diverges` — and they need not end.
-/

namespace Mlf

open Prefix Filter

namespace Unify

variable {R : Behavior} {p q : Prefix} {ρ : Reading ℕ} {o o' : Outcome}
  {A B C E P Q : Nameless.Mono ℕ}

/-! ## Functions -/

/-- A run on the parts of two functions, the parameters first. -/
inductive Parts (R : Behavior) (ρ : Reading ℕ) (p : Prefix) (P B Q C : Nameless.Mono ℕ)
    (o : Outcome) : Prop
  | intro {u v w z : Monotype} (hParams : p.Covers u ∧ p.Covers v)
    (hBodies : p.Covers w ∧ p.Covers z) (hPair : s(u.nameless ρ, v.nameless ρ) = s(P, Q))
    (hPair' : s(w.nameless ρ, z.nameless ρ) = s(B, C)) (h : Both R p u v w z o)

/-- What makes the members of a pair equal makes those of the same pair equal. -/
theorem agree_of_pair {α β : Type} {a e b c : α} (h : s(a, e) = s(b, c)) (f : α → β)
    (hSame : f a = f e) : f b = f c := by
  rcases Sym2.eq_iff.1 h with ⟨rfl, rfl⟩ | ⟨rfl, rfl⟩
  · exact hSame
  · exact hSame.symm

/-- Two runs on the parts of functions are in step, if runs on each part are. -/
theorem parts_lockstep (hLock : Lockstep R) {M : Matching p q} (h : Parts R M.left p P B Q C o)
    (h' : Parts R M.right q P B Q C o') : M.Ends (.fn P B) (.fn Q C) o o' := by
  obtain ⟨⟨hu, hv⟩, ⟨hw, hz⟩, hParams, hBodies, hRuns⟩ := h
  obtain ⟨⟨hu', hv'⟩, ⟨hw', hz'⟩, hParams', hBodies', hRuns'⟩ := h'
  -- the parameters are a pair with one reading in both runs
  have hFirst {r r' : Outcome} :=
    @hLock p q _ _ _ _ r r' M hu hv hu' hv' (hParams.trans hParams'.symm)
  -- and so are the bodies, seen from where the parameters have moved the matching
  have hSecond {p₁ q₁ : Prefix} {f : ℕ → Nameless.Mono ℕ} {N : Matching p₁ q₁}
      (hMoves : M.Moves f N) {r r' : Outcome} :=
    @hLock p₁ q₁ _ _ _ _ r r' N (hMoves.covers hw) (hMoves.covers hz) (hMoves.symm.covers hw')
      (hMoves.symm.covers hz') (hMoves.pair hw hz hw' hz' (hBodies.trans hBodies'.symm))
  cases hRuns with
  | firstStuck hr =>
    cases hRuns' with
    | firstStuck => exact .stuck
    | secondStuck hr' => cases hFirst hr hr'
    | ends hr' => cases hFirst hr hr'
  | secondStuck hr hs =>
    cases hRuns' with
    | firstStuck hr' => cases hFirst hr hr'
    | secondStuck => exact .stuck
    | ends hr' hs' =>
      cases hFirst hr hr' with
      | ends N f hMoves => cases hSecond hMoves hs hs'
  | ends hr hs =>
    cases hRuns' with
    | firstStuck hr' => cases hFirst hr hr'
    | secondStuck hr' hs' =>
      cases hFirst hr hr' with
      | ends N f hMoves => cases hSecond hMoves hs hs'
    | ends hr' hs' =>
      cases hFirst hr hr' with
      | ends N f hMoves hReports hSame =>
        cases hSecond hMoves hs hs' with
        | ends O g hMoves' hReports' hSame' =>
          refine .ends O _ (hMoves.trans hMoves') (by simp [hReports, hReports']) fun hNil => ?_
          obtain ⟨hds, hds'⟩ := List.append_eq_nil_iff.1 hNil
          have hBody := hSame' hds'
          rw [hMoves.mono hw, hMoves.mono hz, Nameless.Mono.bind_bind, Nameless.Mono.bind_bind]
            at hBody
          have hParam := congrArg (Nameless.Mono.bind g) (hSame hds)
          rw [Nameless.Mono.bind_bind, Nameless.Mono.bind_bind] at hParam
          rw [Nameless.Mono.bind, Nameless.Mono.bind,
            agree_of_pair hParams (Nameless.Mono.bind fun i => (f i).bind g) hParam,
            agree_of_pair hBodies (Nameless.Mono.bind fun i => (f i).bind g) hBody]

/-! ## Steps -/

/-- What a step does to types that are read in a certain way. -/
def Performs (R : Behavior) (ρ : Reading ℕ) (p : Prefix) (o : Outcome) :
    Nameless.Mono ℕ → Nameless.Mono ℕ → Prop
  | .var i, .var j => (i = j ∧ o = some (p, [])) ∨ (i ≠ j ∧ Merges R ρ p i j o)
  | .var i, A => Solves R ρ p i A o
  | A, .var i => Solves R ρ p i A o
  | .const c, .const c' => (c = c' ∧ o = some (p, [])) ∨ (c ≠ c' ∧ ∃ d, o = some (p, [d]))
  | .fn P B, .fn Q C => Parts R ρ p P B Q C o
  | _, _ => ∃ d, o = some (p, [d])

/-- A step does the same in the other order. -/
theorem Performs.symm (h : Performs R ρ p o A E) : Performs R ρ p o E A := by
  cases A with
  | var i =>
    cases E with
    | var j =>
      rcases h with ⟨rfl, ho⟩ | ⟨hne, hx, hy, hxOpen, hyOpen, hxy, hNumbers, hRun⟩
      · exact Or.inl ⟨rfl, ho⟩
      · exact Or.inr ⟨hne.symm, hx, hy, hxOpen, hyOpen, hxy, hNumbers.trans Sym2.eq_swap, hRun⟩
    | const c => exact h
    | fn Q C => exact h
  | const c =>
    cases E with
    | var j => exact h
    | const c' => exact h.imp (fun ⟨hc, ho⟩ => ⟨hc.symm, ho⟩) fun ⟨hne, ho⟩ => ⟨hne.symm, ho⟩
    | fn Q C => exact h
  | fn P B =>
    cases E with
    | var j => exact h
    | const c' => exact h
    | fn Q C =>
      -- only the pairs that the parts are read as are turned around
      obtain ⟨hParams, hBodies, hPair, hPair', hRun⟩ := h
      exact ⟨hParams, hBodies, hPair.trans Sym2.eq_swap, hPair'.trans Sym2.eq_swap, hRun⟩

theorem performs_solve {i : ℕ} {t : Monotype} (ht : ∀ y, t ≠ .var y)
    (h : Solves R ρ p i (t.nameless ρ) o) : Performs R ρ p o (.var i) (t.nameless ρ) := by
  cases t with
  | var y => exact absurd rfl (ht y)
  | const c => exact h
  | fn u v => exact h

theorem performs_clash {a : Monotype} {c : BaseType} {d : Diagnostic} (ha : ∀ x, a ≠ .var x)
    (hDiffer : ∀ r, (Monotype.const c).eval r ≠ a.eval r) :
    Performs R ρ p (some (p, [d])) (.const c) (a.nameless ρ) := by
  cases a with
  | var x => exact absurd rfl (ha x)
  | const c' =>
    refine Or.inr ⟨?_, d, rfl⟩
    -- the same constant would not differ
    rintro rfl
    exact hDiffer (fun _ => .const c) rfl
  | fn u v => exact ⟨d, rfl⟩

theorem performs_parts {a e a₁ a₂ e₁ e₂ u v : Monotype} (hQuiet : p.Quiet q) (hp : p.WellFormed)
    (ha : p.Covers a) (he : p.Covers e) (haTop : p.top a = .fn a₁ a₂) (heTop : p.top e = .fn e₁ e₂)
    (hPair : (u = a₁ ∧ v = e₁) ∨ (u = e₁ ∧ v = a₁)) (h : Both R q u v a₂ e₂ o) :
    Performs R ρ q o ((p.top a).nameless ρ) ((p.top e).nameless ρ) := by
  obtain ⟨hu, hv, ha₂, he₂⟩ := hQuiet.covers_parts hp ha he haTop heTop hPair
  rw [haTop, heTop]
  refine .intro ⟨hu, hv⟩ ⟨ha₂, he₂⟩ ?_ rfl h
  rcases hPair with ⟨rfl, rfl⟩ | ⟨rfl, rfl⟩
  · rfl
  · exact Sym2.eq_swap

/-- A step on types that are not the same function type goes by how the types are read. -/
theorem StepRun.performs {S : Layout} {a e : Monotype} (h : StepRun R p a e o) (hLays : S.Lays ρ p)
    (ha : p.Covers a) (he : p.Covers e) (hDiffer : ∀ u v, p.top a = .fn u v → p.top e ≠ .fn u v) :
    ∃ q, p.Quiet q ∧ Performs R ρ q o (a.nameless ρ) (e.nameless ρ) := by
  have hp := hLays.wellFormed
  -- a variable at the top is unsolved, whatever is noted in the books
  have hOpen {q : Prefix} {t : Monotype} {x : String} (hQuiet : p.Quiet q) (ht : p.Covers t)
      (hTop : p.top t = .var x) : q.Unsolved x :=
    (hLays.quiet hQuiet).unsolved_top (hQuiet.covers ht) ((hQuiet.top t).trans hTop)
  rw [← hLays.nameless_top a, ← hLays.nameless_top e]
  cases h with
  | same hTop hQuiet =>
    rw [← hTop]
    cases haTop : p.top a with
    | var x =>
      -- the same variable has the same number
      obtain ⟨i, hi⟩ := hLays.exists_var (hLays.unsolved_top ha haTop)
      rw [Monotype.nameless, hi]
      exact ⟨_, hQuiet, Or.inl ⟨rfl, rfl⟩⟩
    | const c => exact ⟨_, hQuiet, Or.inl ⟨rfl, rfl⟩⟩
    | fn u v => exact absurd (hTop.symm.trans haTop) (hDiffer u v haTop)
  | unbound hx hUnbound =>
    refine absurd ?_ hUnbound
    exact hx.elim (hp.scoping.binds_top ha) (hp.scoping.binds_top he)
  | @merge q x y ex ey _ haTop heTop hne hQuiet hx hy hRun =>
    have hLays' := hLays.quiet hQuiet
    obtain ⟨i, hi⟩ := hLays'.exists_var (hOpen hQuiet ha haTop)
    obtain ⟨j, hj⟩ := hLays'.exists_var (hOpen hQuiet he heTop)
    rw [haTop, heTop, Monotype.nameless, Monotype.nameless, hi, hj]
    refine ⟨q, hQuiet, Or.inr ⟨?_, .intro hx hy (hOpen hQuiet ha haTop) (hOpen hQuiet he heTop) hne
      (by rw [hi, hj]) hRun⟩⟩
    -- two variables with one number are one
    rintro rfl
    exact hne (hLays'.unique x y i (hOpen hQuiet ha haTop) (hOpen hQuiet he heTop) hi hj)
  | @solve q x t ex swapped _ hTops ht hQuiet hx hRun =>
    -- whichever side the variable is on
    have hSolves {t' : Monotype} (ht' : p.Covers t') (hTop : p.top t' = t) (hxOpen : q.Unsolved x) :
        ∃ i, ρ x = .var i ∧ Performs R ρ q o (.var i) (t.nameless ρ) := by
      obtain ⟨i, hi⟩ := (hLays.quiet hQuiet).exists_var hxOpen
      have hCovers := hQuiet.covers (hp.scoping.covers_top ht')
      rw [hTop] at hCovers
      exact ⟨i, hi, performs_solve ht (.intro hx hxOpen hi hCovers rfl hRun)⟩
    cases swapped with
    | true =>
      obtain ⟨haTop, heTop⟩ := hTops
      obtain ⟨i, hi, hPerforms⟩ := hSolves ha haTop (hOpen hQuiet he heTop)
      rw [haTop, heTop, Monotype.nameless, hi]
      exact ⟨q, hQuiet, hPerforms.symm⟩
    | false =>
      obtain ⟨haTop, heTop⟩ := hTops
      obtain ⟨i, hi, hPerforms⟩ := hSolves he heTop (hOpen hQuiet ha haTop)
      rw [haTop, heTop, Monotype.nameless, hi]
      exact ⟨q, hQuiet, hPerforms⟩
  | clash hDiffer hQuiet _ hConst =>
    rcases hConst with ⟨c, haTop, heTop⟩ | ⟨c, heTop, haTop⟩
    · rw [haTop] at hDiffer ⊢
      exact ⟨_, hQuiet, performs_clash heTop hDiffer⟩
    · rw [heTop] at hDiffer ⊢
      exact ⟨_, hQuiet, (performs_clash haTop fun r => (hDiffer r).symm).symm⟩
  | paramStuck haTop heTop hQuiet hPair hr =>
    exact ⟨_, hQuiet, performs_parts hQuiet hp ha he haTop heTop hPair (.firstStuck hr)⟩
  | bodyStuck haTop heTop hQuiet hPair hr hs =>
    exact ⟨_, hQuiet, performs_parts hQuiet hp ha he haTop heTop hPair (.secondStuck hr hs)⟩
  | fn haTop heTop hQuiet hPair hr hs =>
    exact ⟨_, hQuiet, performs_parts hQuiet hp ha he haTop heTop hPair (.ends hr hs)⟩

/-- A slow step goes by how the types are read. -/
theorem SlowStep.performs {S : Layout} {a e : Monotype} (h : SlowStep R p a e o)
    (hLays : S.Lays ρ p) (ha : p.Covers a) (he : p.Covers e) :
    ∃ q, p.Quiet q ∧ Performs R ρ q o (a.nameless ρ) (e.nameless ρ) := by
  cases h with
  | parts haTop heTop hQuiet hBoth =>
    rw [← hLays.nameless_top a, ← hLays.nameless_top e]
    exact ⟨_, hQuiet, performs_parts hQuiet hLays.wellFormed ha he haTop heTop (Or.inl ⟨rfl, rfl⟩)
      hBoth⟩
  | step hDiffer hStep => exact hStep.performs hLays ha he hDiffer

/-- Steps that do what the readings of their types ask for are in step. -/
theorem performs_lockstep (hSafe : Safe R) (hLock : Lockstep R) {M : Matching p q}
    (h : Performs R M.left p o A E) (h' : Performs R M.right q o' A E) : M.Ends A E o o' := by
  cases A with
  | var i =>
    cases E with
    | var j =>
      rcases h with ⟨rfl, rfl⟩ | ⟨hne, hRun⟩
      · -- whether two positions are one does not depend on the side
        rcases h' with ⟨-, rfl⟩ | ⟨hne, -⟩
        · exact Matching.ends_same (.refl p) (.refl q)
        · exact absurd rfl hne
      · rcases h' with ⟨rfl, -⟩ | ⟨-, hRun'⟩
        · exact absurd rfl hne
        · exact merge_lockstep hSafe hLock hRun hRun'
    | const c => exact solve_lockstep hSafe hLock h h'
    | fn Q C => exact solve_lockstep hSafe hLock h h'
  | const c =>
    cases E with
    | var j => exact (solve_lockstep hSafe hLock h h').swap
    | const c' =>
      rcases h with ⟨rfl, rfl⟩ | ⟨hne, d, rfl⟩
      · rcases h' with ⟨-, rfl⟩ | ⟨hne, -⟩
        · exact Matching.ends_same (.refl p) (.refl q)
        · exact absurd rfl hne
      · rcases h' with ⟨rfl, -⟩ | ⟨-, d', rfl⟩
        · exact absurd rfl hne
        · exact Matching.ends_refused (.refl p) (.refl q) d d'
    | fn Q C =>
      -- a constant and a function are reported on both sides
      obtain ⟨d, rfl⟩ := h
      obtain ⟨d', rfl⟩ := h'
      exact Matching.ends_refused (.refl p) (.refl q) d d'
  | fn P B =>
    cases E with
    | var j => exact (solve_lockstep hSafe hLock h h').swap
    | const c' =>
      obtain ⟨d, rfl⟩ := h
      obtain ⟨d', rfl⟩ := h'
      exact Matching.ends_refused (.refl p) (.refl q) d d'
    | fn Q C => exact parts_lockstep hLock h h'

/-- Slow steps are in step if what they run is. -/
theorem SlowStep.lockstep (hSafe : Safe R) (hLock : Lockstep R) : Lockstep (SlowStep R) := by
  intro p q a e b c o o' M ha he hb hc hPair h h'
  obtain ⟨p₁, hQuiet, hPerforms⟩ := h.performs M.laysLeft ha he
  obtain ⟨q₁, hQuiet', hPerforms'⟩ := h'.performs M.laysRight hb hc
  refine .of_quiet hQuiet hQuiet' (performs_lockstep hSafe hLock hPerforms ?_)
  rcases Sym2.eq_iff.1 hPair with ⟨hab, hec⟩ | ⟨hac, heb⟩
  · rw [hab, hec]
    exact hPerforms'
  · rw [hac, heb]
    exact hPerforms'.symm

/-! ## Runs -/

theorem slowRun_lockstep (fuel : Nat) : Lockstep (SlowRun fuel) := by
  induction fuel with
  | zero =>
    rintro p q a e b c o o' M - - - - - rfl rfl
    exact .stuck
  | succ n ih => exact SlowStep.lockstep (slowRun_safe n) ih

/-- If a run on two types ends, then so do the runs on the same two types that have enough fuel, and
neither or both of the verdicts are diagnostics. -/
theorem eventually_within_alike (hp : p.WellFormed) {a e b c : Monotype} (ha : p.Covers a)
    (he : p.Covers e) (hPair : s(b, c) = s(a, e)) {fuel : Nat} {call : Bool} (call' : Bool)
    {sink : Sink} {verdict : Verdict} {s : Session}
    (h : within fuel a e call ⟨p, sink⟩ = .ok (verdict, s)) :
    ∀ᶠ n in atTop, ∃ verdict' s', within n b c call' ⟨p, sink⟩ = .ok (verdict', s') ∧
      (verdict = none ↔ verdict' = none) := by
  obtain ⟨S, ρ, hLays⟩ := Layout.exists_lays hp
  have hCovers : p.Covers b ∧ p.Covers c := by
    rcases Sym2.eq_iff.1 hPair with ⟨rfl, rfl⟩ | ⟨rfl, rfl⟩
    · exact ⟨ha, he⟩
    · exact ⟨he, ha⟩
  obtain ⟨ds, hRun, rfl, -⟩ := run_of_within_ok h
  -- with as much fuel as the slow run takes, the other slow run is not stuck either
  filter_upwards [eventually_slowRun fuel hRun hp ha he] with n hSlow
  obtain ⟨o, lost, hRun', hResult⟩ := within_follows n b c call' ⟨p, sink⟩
  have hAlike {o' : Outcome} (hSlow' : SlowRun n p b c o') :=
    slowRun_lockstep n ⟨S, ρ, ρ, hLays, hLays⟩ ha he hCovers.1 hCovers.2
      (congrArg (Sym2.map (Monotype.nameless ρ)) hPair.symm) hSlow hSlow'
  -- a run that has ended agrees with the slow one, which is not stuck
  rcases slowRun_or_stuck n hRun' with hSlow' | hStuck
  · cases hAlike hSlow' with
    | ends N f hMoves hReports =>
      refine ⟨_, _, hResult, ?_⟩
      rw [List.head?_eq_none_iff, List.head?_eq_none_iff, hReports]
  · cases hAlike hStuck

/-- The runs on two types: in either order, and at a call or not. -/
def orientations (fuel : Nat) (a e : Monotype) (s : Session) :
    List (Except Halt (Verdict × Session)) :=
  [Mlf.unify fuel a e s, Mlf.unify fuel e a s, Mlf.unifyCall fuel a e s, Mlf.unifyCall fuel e a s]

theorem exists_of_mem_orientations {fuel : Nat} {a e : Monotype} {s : Session}
    {r : Except Halt (Verdict × Session)} (h : r ∈ orientations fuel a e s) :
    ∃ b c call, s(b, c) = s(a, e) ∧ r = within fuel b c call s := by
  simp only [orientations, List.mem_cons, List.not_mem_nil, or_false] at h
  rcases h with rfl | rfl | rfl | rfl
  · exact ⟨a, e, false, rfl, rfl⟩
  · exact ⟨e, a, false, Sym2.eq_swap, rfl⟩
  · exact ⟨a, e, true, rfl, rfl⟩
  · exact ⟨e, a, true, Sym2.eq_swap, rfl⟩

/-- If one of the four runs ends, then all do that have enough fuel, with verdicts alike. -/
theorem eventually_orientations (hp : p.WellFormed) {a e b c : Monotype} (ha : p.Covers a)
    (he : p.Covers e) (hPair : s(b, c) = s(a, e)) {fuel : Nat} {call : Bool} {sink : Sink}
    {verdict : Verdict} {s : Session} (h : within fuel b c call ⟨p, sink⟩ = .ok (verdict, s)) :
    ∀ᶠ n in atTop, ∀ r ∈ orientations n a e ⟨p, sink⟩, ∃ verdict' s', r = .ok (verdict', s') ∧
      (verdict = none ↔ verdict' = none) := by
  have hCovers : p.Covers b ∧ p.Covers c := by
    rcases Sym2.eq_iff.1 hPair with ⟨rfl, rfl⟩ | ⟨rfl, rfl⟩
    · exact ⟨ha, he⟩
    · exact ⟨he, ha⟩
  have hEach (b' c' : Monotype) (call' : Bool) (hPair' : s(b', c') = s(a, e)) :=
    eventually_within_alike hp hCovers.1 hCovers.2 (hPair'.trans hPair.symm) call' h
  -- as much fuel as all four need
  filter_upwards [hEach a e false rfl, hEach e a false Sym2.eq_swap, hEach a e true rfl,
    hEach e a true Sym2.eq_swap] with n h₁ h₂ h₃ h₄
  simp only [orientations, List.mem_cons, List.not_mem_nil, or_false, forall_eq_or_imp, forall_eq]
  exact ⟨h₁, h₂, h₃, h₄⟩

/-- Whichever of two types is the actual one, and at a call or not, unification ends always or
never, and it matches the types always or never. It ends if the equation has a solution, and if no
bound that the types lead to has quantifiers. -/
theorem orientation_agrees {p : Prefix} (hp : p.WellFormed) {a e : Monotype} (ha : p.Covers a)
    (he : p.Covers e) (sink : Sink) :
    ((∀ n, ∀ r ∈ orientations n a e ⟨p, sink⟩, ∃ out, r = .error (.outOfFuel out)) ∨
      ∃ n, (∀ m, n ≤ m → ∀ r ∈ orientations m a e ⟨p, sink⟩, ∃ s, r = .ok (none, s)) ∨
        ∀ m, n ≤ m → ∀ r ∈ orientations m a e ⟨p, sink⟩, ∃ d s, r = .ok (some d, s)) ∧
    ((∃ r, p.IsSolution r ∧ a.eval r = e.eval r) ∨ p.PlainOn (Region p a e) →
      ∃ n, ∀ m, n ≤ m → ∀ r ∈ orientations m a e ⟨p, sink⟩, ∃ verdict s, r = .ok (verdict, s)) := by
  constructor
  · -- one of the runs ends with some fuel, or none ever does
    by_cases hEnds : ∃ n, ∃ r ∈ orientations n a e ⟨p, sink⟩, ∃ out, r = .ok out
    · right
      obtain ⟨n, r, hr, ⟨verdict, s⟩, hOk⟩ := hEnds
      obtain ⟨b, c, call, hPair, rfl⟩ := exists_of_mem_orientations hr
      obtain ⟨m, hm⟩ := eventually_atTop.1 (eventually_orientations hp ha he hPair hOk)
      refine ⟨m, ?_⟩
      cases verdict with
      | none =>
        refine Or.inl fun k hk r hr => ?_
        obtain ⟨verdict, s', rfl, hSame⟩ := hm k hk r hr
        rw [hSame.1 rfl]
        exact ⟨s', rfl⟩
      | some d =>
        refine Or.inr fun k hk r hr => ?_
        obtain ⟨verdict, s', rfl, hSame⟩ := hm k hk r hr
        obtain ⟨d', rfl⟩ := Option.ne_none_iff_exists'.1 fun hNone => nomatch hSame.2 hNone
        exact ⟨d', s', rfl⟩
    · refine Or.inl fun n r hr => ?_
      obtain ⟨b, c, call, -, rfl⟩ := exists_of_mem_orientations hr
      obtain ⟨o, lost, -, hResult⟩ := within_follows n b c call ⟨p, sink⟩
      cases o with
      | none => exact ⟨_, hResult⟩
      | some out => exact absurd ⟨n, _, hr, _, hResult⟩ hEnds
  · intro hCase
    -- one of the four ends, and this is enough
    have hEnds : Ends a e false ⟨p, sink⟩ := by
      rcases hCase with ⟨r, hr, hEq⟩ | hPlain
      · exact ends_of_solution hp ha he hr hEq
      · exact ends_of_plain hp ha he (closed_region p a e) hPlain
          (fun x hx => ⟨x, Or.inl hx, .refl⟩) fun x hx => ⟨x, Or.inr hx, .refl⟩
    obtain ⟨n, ⟨verdict, s⟩, hOk⟩ := hEnds
    obtain ⟨m, hm⟩ := eventually_atTop.1 (eventually_orientations hp ha he rfl (hOk n le_rfl))
    refine ⟨m, fun k hk r hr => ?_⟩
    obtain ⟨verdict', s', hr', -⟩ := hm k hk r hr
    exact ⟨verdict', s', hr'⟩

/-- A rigid variable and a younger flexible one have common instances, but fewer than the rigid one
stands for. No order of the two makes them match. -/
theorem orientation_agrees_rigid : ∃ p,
    p = (empty.enter.add "x" ⟨.rigid, .all "a" .flexible .bottom (.all "b" .flexible .bottom
        (.mono (.fn (.var "a") (.fn (.var "b") (.var "a")))))⟩).enter.add "y"
      ⟨.flexible, .all "c" .flexible .bottom
        (.mono (.fn (.var "c") (.fn (.var "c") (.var "c"))))⟩ ∧
    p.WellFormed ∧ p.Covers (Monotype.var "x") ∧ p.Covers (Monotype.var "y") ∧
    ∃ n, ∀ m, n ≤ m → ∀ r ∈ orientations m (.var "x") (.var "y") ⟨p, .empty⟩,
      ∃ d s, r = .ok (some d, s) := by
  obtain ⟨p, d, s, hEq, hRun⟩ : ∃ p d s,
      p = (empty.enter.add "x" ⟨.rigid, .all "a" .flexible .bottom (.all "b" .flexible .bottom
          (.mono (.fn (.var "a") (.fn (.var "b") (.var "a")))))⟩).enter.add "y"
        ⟨.flexible, .all "c" .flexible .bottom
          (.mono (.fn (.var "c") (.fn (.var "c") (.var "c"))))⟩ ∧
      Mlf.unify 6 (.var "x") (.var "y") ⟨p, .empty⟩ = .ok (some d, s) := ⟨_, _, _, rfl, by cbv⟩
  have hp : p.WellFormed := by
    subst hEq
    exact (wellFormed_empty.enter.add (by decide)).enter.add (by decide)
  have hx : p.Covers (Monotype.var "x") := by
    subst hEq
    decide
  have hy : p.Covers (Monotype.var "y") := by
    subst hEq
    decide
  have hMember (n : Nat) : Mlf.unify n (.var "x") (.var "y") ⟨p, .empty⟩ ∈
      orientations n (.var "x") (.var "y") ⟨p, .empty⟩ := List.mem_cons_self
  refine ⟨p, hEq, hp, hx, hy, ?_⟩
  rcases (orientation_agrees hp hx hy .empty).1 with hNever | ⟨n, hNone | hSome⟩
  · -- one of the runs ends, with a report; so the runs neither all diverge nor all succeed
    obtain ⟨out, hStuck⟩ := hNever 6 _ (hMember 6)
    rw [hRun] at hStuck
    cases hStuck
  · obtain ⟨s', hOk⟩ := hNone (max n 6) (le_max_left n 6) _ (hMember (max n 6))
    have hLater : Mlf.unify (max n 6) (.var "x") (.var "y") ⟨p, .empty⟩ = .ok (some d, s) :=
      within_mono (le_max_right n 6) hRun
    rw [hLater] at hOk
    cases hOk
  · exact ⟨n, hSome⟩

/-- Unification does not end for `(s → x → s → v → Boolean) → x` and `(yb → ya) → (ya → s) → v`, in
whichever order they are given, where `ya` and `yb` have the wheel as their rigid bound, and `x`,
`s` and `v` have no bounds. -/
theorem orientation_diverges :
    (empty.enter.addAll spokes).WellFormed ∧ 1 ≤ (empty.enter.addAll spokes).level ∧
    (empty.enter.addAll spokes).Covers actualTurn ∧ (empty.enter.addAll spokes).Covers expectedTurn ∧
    ∀ fuel sink,
      ∀ r ∈ orientations fuel actualTurn expectedTurn ⟨empty.enter.addAll spokes, sink⟩,
        ∃ out, r = .error (.outOfFuel out) := by
  obtain ⟨hTurning, hLevel⟩ := turning_spokes wellFormed_empty.enter (one_le_level_enter empty)
    fun b _ ⟨e, he⟩ => nomatch he
  refine ⟨hTurning.wellFormed, hLevel.ge, hTurning.covers.1, hTurning.covers.2,
    fun fuel sink r hr => ?_⟩
  obtain ⟨b, c, call, hPair, rfl⟩ := exists_of_mem_orientations hr
  obtain ⟨o, lost, -, hResult⟩ := within_follows fuel b c call ⟨empty.enter.addAll spokes, sink⟩
  cases o with
  | none => exact ⟨_, hResult⟩
  | some out =>
    -- if one run ended, then all of them would
    obtain ⟨n, hn⟩ := (eventually_orientations hTurning.wellFormed hTurning.covers.1
      hTurning.covers.2 hPair hResult).exists
    obtain ⟨verdict, s, hOk, -⟩ := hn _ List.mem_cons_self
    obtain ⟨out', hStuck⟩ := within_diverges hTurning n false sink
    exact nomatch hOk.symm.trans hStuck

end Unify

end Mlf
