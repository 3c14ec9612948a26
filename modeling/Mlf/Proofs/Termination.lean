import Mathlib
import Mlf.Proofs.Divergence
import Mlf.Proofs.InferRun

/-!
# When unification ends

Fuel bounds the depth of the recursion and has no other bearing on a run: what a run returns, it
returns with more fuel as well. So a run either ends in one way, given enough fuel, or never.

It ends for an equation that has a solution, since it cannot go deeper than the solution is high. It
also ends, with or without a solution, where no bound that it can get to has quantifiers: a variable
is then solved once and for all, and as long as none is solved, the types at hand become smaller.

Main results:

* `within_mono` — more fuel does not change what a run returns;
* `ends_of_solution` — an equation with a solution;
* `run_settling`, `ends_of_plain` — variables without quantified bounds;
* `unify_ends` — both for unification itself;
* `unify_diverges` — where it does not end.
-/

namespace Mlf

open Prefix Relation

variable {R : Unify.Behavior} {p q : Prefix} {x : String} {Z : Set String}

namespace Solve

/-! ## More fuel -/

variable {α β : Type} {act act' : Solve α} {next next' : α → Solve β}

/-- The second part of a run returns whatever the first one returns. -/
def Approx (act act' : Solve α) : Prop := ∀ s out, act s = .ok out → act' s = .ok out

theorem Approx.refl (act : Solve α) : Approx act act := fun _ _ h => h

theorem Approx.bind (h : Approx act act') (h' : ∀ a, Approx (next a) (next' a)) :
    Approx (act >>= next) (act' >>= next') := by
  rintro s ⟨b, s'⟩ hRun
  obtain ⟨a, s₁, hAct, hNext⟩ := of_bind_ok hRun
  rw [bind_of_ok (h s _ hAct)]
  exact h' a s₁ _ hNext

theorem Approx.ite {c : Prop} [Decidable c] {other other' : Solve α} (h : Approx act act')
    (h' : Approx other other') : Approx (if c then act else other) (if c then act' else other') := by
  split_ifs
  · exact h
  · exact h'

theorem Approx.atLevel (h : Approx act act') : Approx (atLevel act) (atLevel act') := by
  rintro s ⟨a, s'⟩ hRun
  obtain ⟨s₁, hAct, rfl⟩ := of_atLevel_ok hRun
  exact atLevel_of_ok (h _ _ hAct)

/-- What is returned with some fuel is returned with any more. -/
theorem Approx.mono {act : Nat → Solve α} (h : ∀ n, Approx (act n) (act (n + 1))) {n m : Nat}
    (hle : n ≤ m) : Approx (act n) (act m) := by
  induction hle with
  | refl => exact .refl _
  | step _ ih => exact fun s out hRun => h _ s out (ih s out hRun)

end Solve

namespace Unify

open Solve

section

variable {unify unify' : Unifier} (h : ∀ a e call, Approx (unify a e call) (unify' a e call))
include h

theorem unifyPoly_approx (a e : Polytype) (call : Bool) :
    Approx (unifyPoly unify a e call) (unifyPoly unify' a e call) := by
  unfold unifyPoly
  split
  · exact .refl _
  · exact .refl _
  · exact .bind (h _ _ _) fun _ => .refl _
  · exact .atLevel (.bind (.refl _) fun _ => .bind (.refl _) fun _ => .bind (h _ _ _) fun _ =>
      .refl _)

theorem mergeVars_approx (x y : String) (call : Bool) :
    Approx (mergeVars unify x y call) (mergeVars unify' x y call) := by
  refine .bind (.refl _) fun s => ?_
  dsimp only
  split
  · exact .refl _
  · exact .refl _
  · exact .ite (.refl _) (.ite (.refl _) (.ite (.refl _)
      (.bind (unifyPoly_approx h _ _ _) fun _ => .refl _)))

theorem solveVar_approx (x : String) (t : Monotype) (swapped call : Bool) :
    Approx (solveVar unify x t swapped call) (solveVar unify' x t swapped call) := by
  refine .bind (.refl _) fun s => ?_
  dsimp only
  split
  · exact .refl _
  · exact .ite (.refl _) (.ite (.bind (unifyPoly_approx h _ _ _) fun _ => .refl _)
      (.bind (unifyPoly_approx h _ _ _) fun _ => .refl _))

theorem step_approx (a e : Monotype) (call : Bool) :
    Approx (step unify a e call) (step unify' a e call) := by
  refine .bind (.refl _) fun a => .bind (.refl _) fun e => .bind (.refl _) fun _ =>
    .bind (.refl _) fun _ => .ite (.refl _) ?_
  split
  · exact .ite (.refl _) (mergeVars_approx h _ _ _)
  · exact solveVar_approx h _ _ _ _
  · exact solveVar_approx h _ _ _ _
  · exact .refl _
  · exact .ite (.bind (h _ _ _) fun _ => .bind (h _ _ _) fun _ => .refl _)
      (.bind (h _ _ _) fun _ => .bind (h _ _ _) fun _ => .refl _)
  · exact .refl _

end

theorem within_approx (n : Nat) (a e : Monotype) (call : Bool) :
    Approx (within n a e call) (within (n + 1) a e call) := by
  induction n generalizing a e call with
  | zero =>
    intro s out hRun
    cases hRun
  | succ n ih => exact step_approx ih a e call

variable {a e : Monotype} {call : Bool} {s : Session}

/-- More fuel does not change what a run returns. -/
theorem within_mono {n m : Nat} {out : Verdict × Session} (hle : n ≤ m)
    (h : within n a e call s = .ok out) : within m a e call s = .ok out :=
  Approx.mono (within_approx · a e call) hle s out h

/-- Some fuel suffices, and more fuel does not change the answer. -/
def Ends (a e : Monotype) (call : Bool) (s : Session) : Prop :=
  ∃ n out, ∀ fuel, n ≤ fuel → within fuel a e call s = .ok out

theorem Ends.of_ok {n : Nat} {out : Verdict × Session} (h : within n a e call s = .ok out) :
    Ends a e call s := ⟨n, out, fun _ hle => within_mono hle h⟩

/-! ## Equations with a solution -/

/-- A run on an equation that has a solution ends. -/
theorem ends_of_solution (hp : s.vars.WellFormed) (ha : s.vars.Covers a) (he : s.vars.Covers e)
    {r : Valuation} (hr : s.vars.IsSolution r) (hEq : a.eval r = e.eval r) : Ends a e call s := by
  obtain ⟨o, lost, hRun, hResult⟩ := within_follows (2 * (a.eval r).height + 2) a e call s
  cases o with
  | none =>
    -- a run that is stuck has gone deeper than the solution is high
    have hDepth := (run_shallow _ hRun hp ha he r hr hEq).1
    omega
  | some out => exact .of_ok hResult

end Unify

/-! ## Variables without quantified bounds -/

namespace Prefix

/-- The variables among the names `Z` are solved or may be anything. -/
def PlainOn (p : Prefix) (Z : Set String) : Prop :=
  ∀ x ∈ Z, ∀ e, p.find? x = some e → e.bound.type = .bottom ∨ ∃ m, e.bound.type = .mono m

/-- The variables among the names `Z` that are not solved. -/
def openIn (p : Prefix) (Z : Set String) : Set String :=
  {x | x ∈ Z ∧ p.Binds x ∧ p.solution? x = none}

theorem finite_openIn (p : Prefix) (Z : Set String) : (p.openIn Z).Finite :=
  (List.finite_toSet p.entries.keys).subset fun _ hx => mem_keys_iff.2 hx.2.1

theorem PlainOn.bottom (h : p.PlainOn Z) (hx : x ∈ Z) {e : Entry} (he : p.find? x = some e)
    (hNone : e.bound.type.mono? = none) : e.bound.type = .bottom := by
  rcases h x hx e he with hBottom | ⟨m, hm⟩
  · exact hBottom
  · rw [hm] at hNone
    cases hNone

/-- Variables among the names `Z` were solved, or none was and nothing else happened either. -/
structure Settles (p q : Prefix) (Z : Set String) : Prop where
  closed : q.Closed Z
  plain : q.PlainOn Z
  fewer : q.openIn Z ⊆ p.openIn Z
  same : p.openIn Z ⊆ q.openIn Z →
    ∀ x e', q.find? x = some e' → ∃ e, p.find? x = some e ∧ e'.bound.type = e.bound.type

theorem Settles.trans {s : Prefix} (h : p.Settles q Z) (h' : q.Settles s Z) : p.Settles s Z where
  closed := h'.closed
  plain := h'.plain
  fewer := h'.fewer.trans h.fewer
  same hSub x e'' he'' := by
    obtain ⟨e', he', hType'⟩ := h'.same (h.fewer.trans hSub) x e'' he''
    obtain ⟨e, he, hType⟩ := h.same (hSub.trans h'.fewer) x e' he'
    exact ⟨e, he, hType'.trans hType⟩

theorem Quiet.settles (h : p.Quiet q) (hClosed : p.Closed Z) (hPlain : p.PlainOn Z) :
    p.Settles q Z where
  closed := by rwa [Closed, h.mentions]
  plain x hx e he := hPlain x hx e (by rwa [← h.find?])
  fewer x hx := ⟨hx.1, (h.binds x).1 hx.2.1, by rw [← h.solution?]; exact hx.2.2⟩
  same _ x e' he' := ⟨e', by rwa [← h.find?], rfl⟩

/-- An open variable that gets a bound without quantifiers. -/
theorem Updates.settles {b : Bound} (h : p.Updates q x b) {ex : Entry} (hx : p.find? x = some ex)
    (hOpen : ex.bound.type = .bottom) (hxZ : x ∈ Z) (hClosed : p.Closed Z) (hPlain : p.PlainOn Z)
    (hb : b.type = .bottom ∨ ∃ m, b.type = .mono m) (hbZ : ∀ y ∈ b.type.freeVars, y ∈ Z) :
    p.Settles q Z := by
  have hNone : p.solution? x = none := by simp [solution?, hx, hOpen, Polytype.mono?]
  -- a variable of the new prefix, and what it was before
  have hOld {y : String} {e' : Entry} (he' : q.find? y = some e') :
      ∃ e, p.find? y = some e ∧ e'.bound = if y = x then b else e.bound := by
    obtain ⟨e, he⟩ := (h.binds y).1 ⟨e', he'⟩
    obtain ⟨l, hNew, -⟩ := h.bound y e he
    obtain rfl := Option.some.inj (hNew.symm.trans he')
    exact ⟨e, he, rfl⟩
  refine ⟨fun y hy z hyz => ?_, fun y hy e' he' => ?_, fun y hy => ?_, fun hSub y e' he' => ?_⟩
  · rw [h.mentions ⟨ex, hx⟩] at hyz
    split_ifs at hyz with hyx
    · exact hbZ z hyz
    · exact hClosed y hy z hyz
  · obtain ⟨e, he, hBound⟩ := hOld he'
    rw [hBound]
    split_ifs with hyx
    · exact hb
    · exact hPlain y hy e he
  · -- a variable that is open afterwards was open before
    obtain ⟨hyZ, ⟨e', he'⟩, hyNone⟩ := hy
    obtain ⟨e, he, hBound⟩ := hOld he'
    refine ⟨hyZ, ⟨e, he⟩, ?_⟩
    by_cases hyx : y = x
    · rw [hyx]
      exact hNone
    · rw [if_neg hyx] at hBound
      rwa [solution?_eq_none he, ← hBound, ← solution?_eq_none he']
  · obtain ⟨e, he, hBound⟩ := hOld he'
    refine ⟨e, he, ?_⟩
    rw [hBound]
    split_ifs with hyx
    · -- the variable is still open, so the new bound says as little as the old one
      subst hyx
      obtain rfl := Option.some.inj (hx.symm.trans he)
      obtain ⟨-, -, hyNone⟩ := hSub ⟨hxZ, ⟨ex, hx⟩, hNone⟩
      rw [solution?_eq_none he', hBound, if_pos rfl] at hyNone
      rcases hb with hb | ⟨m, hm⟩
      · rw [hb, hOpen]
      · rw [hm] at hyNone
        cases hyNone
    · rfl

theorem Settles.isSolution (h : p.Settles q Z) (hSub : p.openIn Z ⊆ q.openIn Z) {r : Valuation}
    (hr : p.IsSolution r) : q.IsSolution r := by
  intro x e' he'
  obtain ⟨e, he, hType⟩ := h.same hSub x e' he'
  rw [hType]
  exact hr x e he

end Prefix

namespace Unify

open Solve

/-- Runs only settle variables, where the two types lead to none with a quantified bound. -/
def Settling (R : Behavior) : Prop :=
  ∀ {p q : Prefix} {a e : Monotype} {ds : List Diagnostic} {Z : Set String},
    R p a e (some (q, ds)) → p.WellFormed → p.Covers a → p.Covers e → p.Closed Z → p.PlainOn Z →
    (∀ x ∈ a.freeVars, x ∈ Z) → (∀ x ∈ e.freeVars, x ∈ Z) → p.Settles q Z

/-- Tying a variable that may be anything. -/
theorem TieRun.settles {T : Tie} {ds : List Diagnostic} (h : TieRun R p T (some (q, ds)))
    (hBottom : T.actual = .bottom ∨ T.expected = .bottom) (hClosed : p.Closed Z)
    (hPlain : p.PlainOn Z)
    (hFinish : ∀ {p' : Prefix} {t : Polytype}, p.Quiet p' → (t = T.actual ∨ t = T.expected) →
      p'.Settles (T.finish p' t) Z) : p.Settles q Z := by
  cases h with
  | clash _ _ hQuiet _ => exact hQuiet.settles hClosed hPlain
  | cycle _ _ hQuiet _ => exact hQuiet.settles hClosed hPlain
  -- nothing is reported about a bound that says nothing
  | failed hPoly =>
    obtain ⟨-, hNil, -⟩ := hPoly.eq_of_bottom hBottom
    cases hNil
  | rigid hPoly _ _ hQuiet _ =>
    obtain ⟨rfl, -, -⟩ := hPoly.eq_of_bottom hBottom
    exact hQuiet.settles hClosed hPlain
  | knot hPoly _ _ hQuiet _ =>
    obtain ⟨rfl, -, -⟩ := hPoly.eq_of_bottom hBottom
    exact hQuiet.settles hClosed hPlain
  | tied _ hPoly hQuiet _ _ =>
    obtain ⟨rfl, -, ht⟩ := hPoly.eq_of_bottom hBottom
    refine (hQuiet.settles hClosed hPlain).trans (hFinish hQuiet ?_)
    exact ht.elim (fun h => Or.inr h.2) fun h => Or.inl h.2

/-- Two open variables become one. -/
theorem TieRun.merge_settles {y : String} {ex ey : Entry} {ds : List Diagnostic}
    (h : TieRun R p (.merge x y ex.bound ey.bound) (some (q, ds))) (hx : p.find? x = some ex)
    (hy : p.find? y = some ey) (hxOpen : ex.bound.type = .bottom)
    (hyOpen : ey.bound.type = .bottom) (hClosed : p.Closed Z) (hPlain : p.PlainOn Z) (hxZ : x ∈ Z)
    (hyZ : y ∈ Z) (hne : x ≠ y) : p.Settles q Z := by
  refine h.settles (Or.inl hxOpen) hClosed hPlain fun {p' t} hQuiet ht => ?_
  have ht' : t = .bottom := by
    rcases ht with rfl | rfl
    · exact hxOpen
    · exact hyOpen
  have hBooks := hQuiet.settles hClosed hPlain
  -- whichever stays keeps its bound, and the other one stands for it
  have link {u v : String} {eu ev : Entry} (hu : p'.find? u = some eu) (hv : p'.find? v = some ev)
      (huOpen : eu.bound.type = .bottom) (hvOpen : ev.bound.type = .bottom) (huZ : u ∈ Z)
      (hvZ : v ∈ Z) (huv : v ≠ u) (k : BoundKind) :
      p'.Settles ((p'.update u ⟨k, t⟩).update v ⟨.flexible, .mono (.var u)⟩) Z := by
    have hFirst := update_updates ⟨eu, hu⟩ ⟨k, t⟩
    have hStays := hFirst.settles hu huOpen huZ hBooks.closed hBooks.plain (Or.inl ht')
      fun z hz => by simp [ht', Polytype.freeVars] at hz
    obtain ⟨l, hv', -⟩ := hFirst.bound v ev hv
    rw [if_neg huv] at hv'
    refine hStays.trans ((update_updates ⟨_, hv'⟩ _).settles hv' hvOpen hvZ hStays.closed
      hStays.plain (Or.inr ⟨_, rfl⟩) fun z hz => ?_)
    obtain rfl : z = u := by simpa [Polytype.freeVars, Monotype.freeVars] using hz
    exact huZ
  have hx' : p'.find? x = some ex := by rwa [hQuiet.find?]
  have hy' : p'.find? y = some ey := by rwa [hQuiet.find?]
  obtain ⟨stays, goes, hWhich, hEq⟩ := merge_eq ⟨ex, hx'⟩ ⟨ey, hy'⟩
    ⟨if ex.bound.kind = .rigid ∨ ey.bound.kind = .rigid then .rigid else .flexible, t⟩
  show p'.Settles (p'.merge x y _).2 Z
  rw [hEq]
  rcases hWhich with ⟨rfl, rfl⟩ | ⟨rfl, rfl⟩
  · exact link hx' hy' hxOpen hyOpen hxZ hyZ hne.symm _
  · exact link hy' hx' hyOpen hxOpen hyZ hxZ hne _

/-- An open variable is solved. -/
theorem TieRun.solve_settles {ex : Entry} {t : Monotype} {swapped : Bool} {ds : List Diagnostic}
    (h : TieRun R p (.solve x ex.bound t swapped) (some (q, ds))) (hx : p.find? x = some ex)
    (hxOpen : ex.bound.type = .bottom) (hClosed : p.Closed Z) (hPlain : p.PlainOn Z) (hxZ : x ∈ Z)
    (htZ : ∀ y ∈ t.freeVars, y ∈ Z) : p.Settles q Z := by
  refine h.settles ?_ hClosed hPlain fun {p' u} hQuiet _ => ?_
  · cases swapped with
    | true => exact Or.inr hxOpen
    | false => exact Or.inl hxOpen
  · have hBooks := hQuiet.settles hClosed hPlain
    have hx' : p'.find? x = some ex := by rwa [hQuiet.find?]
    exact (update_updates ⟨ex, hx'⟩ _).settles hx' hxOpen hxZ hBooks.closed hBooks.plain
      (Or.inr ⟨t, rfl⟩) htZ

/-- The variable at the top of a type is open. -/
theorem open_of_top {p' : Prefix} (hp : p.WellFormed) (hQuiet : p.Quiet p') (hClosed : p.Closed Z)
    (hPlain : p.PlainOn Z) {t : Monotype} (ht : ∀ x ∈ t.freeVars, x ∈ Z) {e : Entry}
    (hTop : p.top t = .var x) (hx : p'.find? x = some e) : e.bound.type = .bottom :=
  hPlain.bottom (hClosed.mem_top ht hTop) (by rwa [← hQuiet.find?]) (bound_of_top hp hQuiet hTop hx)

/-- One step settles variables, if the runs that it calls do. -/
theorem StepRun.settling (hSafe : Safe R) (hR : Settling R) : Settling (StepRun R) := by
  intro p q a e ds Z h hp ha he hClosed hPlain haZ heZ
  have books {p' : Prefix} (hQuiet : p.Quiet p') : p.Settles p' Z := hQuiet.settles hClosed hPlain
  cases h with
  | same _ hQuiet => exact books hQuiet
  | unbound _ _ hQuiet => exact books hQuiet
  | merge haTop heTop hne hQuiet hx hy hTie =>
    have hBooks := books hQuiet
    exact hBooks.trans (hTie.merge_settles hx hy (open_of_top hp hQuiet hClosed hPlain haZ haTop hx)
      (open_of_top hp hQuiet hClosed hPlain heZ heTop hy) hBooks.closed hBooks.plain
      (hClosed.mem_top haZ haTop) (hClosed.mem_top heZ heTop) hne)
  | @solve _ _ _ _ swapped _ hTops _ hQuiet hx hTie =>
    have hBooks := books hQuiet
    -- whichever side the variable is on
    cases swapped with
    | true =>
      obtain ⟨rfl, heTop⟩ := hTops
      exact hBooks.trans (hTie.solve_settles hx
        (open_of_top hp hQuiet hClosed hPlain heZ heTop hx) hBooks.closed hBooks.plain
        (hClosed.mem_top heZ heTop) (hClosed.top haZ))
    | false =>
      obtain ⟨haTop, rfl⟩ := hTops
      exact hBooks.trans (hTie.solve_settles hx
        (open_of_top hp hQuiet hClosed hPlain haZ haTop hx) hBooks.closed hBooks.plain
        (hClosed.mem_top haZ haTop) (hClosed.top heZ))
  | clash _ hQuiet _ => exact books hQuiet
  | fn haTop heTop hQuiet hPair hParam hBody =>
    obtain ⟨hu, hv, ha₂, he₂⟩ := hQuiet.covers_parts hp ha he haTop heTop hPair
    obtain ⟨⟨huZ, hvZ⟩, ha₂Z, he₂Z⟩ := hClosed.parts haZ heZ haTop heTop hPair
    have hBooks := books hQuiet
    have hp' := (hQuiet.wellFormed hp).1
    have hNarrows := hSafe.narrows hParam hp' hu hv 0
    -- the parameters and then the bodies
    have hFirst := hR hParam hp' hu hv hBooks.closed hBooks.plain huZ hvZ
    exact hBooks.trans (hFirst.trans (hR hBody hNarrows.wellFormed (hNarrows.covers ha₂)
      (hNarrows.covers he₂) hFirst.closed hFirst.plain ha₂Z he₂Z))

/-- A run on variables without quantified bounds only settles them. -/
theorem run_settling (fuel : Nat) : Settling (Run fuel) := by
  induction fuel with
  | zero => exact fun h => nomatch h
  | succ n ih => exact StepRun.settling (run_safe n) ih

/-- One step is enough, unless both types are function types. -/
theorem StepRun.not_stuck {a e : Monotype} (h : StepRun R p a e none) (hp : p.WellFormed)
    (hClosed : p.Closed Z) (hPlain : p.PlainOn Z) (haZ : ∀ x ∈ a.freeVars, x ∈ Z)
    (heZ : ∀ x ∈ e.freeVars, x ∈ Z) : ∃ a₁ a₂ e₁ e₂, p.top a = .fn a₁ a₂ ∧ p.top e = .fn e₁ e₂ := by
  -- tying takes no fuel here, since one of the types says nothing
  have hTied {q : Prefix} {T : Tie} (hTie : TieRun R q T none)
      (hBottom : T.actual = .bottom ∨ T.expected = .bottom) : False := by
    cases hTie with
    | stuck hPoly =>
      obtain ⟨t, hEq, -⟩ := hPoly.of_bottom hBottom
      cases hEq
  generalize ho : (none : Outcome) = o at h
  cases h with
  | same => cases ho
  | unbound => cases ho
  | merge haTop heTop hne hQuiet hx hy hTie =>
    subst ho
    exact (hTied hTie (Or.inl (open_of_top hp hQuiet hClosed hPlain haZ haTop hx))).elim
  | @solve _ _ _ _ swapped _ hTops _ hQuiet hx hTie =>
    subst ho
    cases swapped with
    | true =>
      exact (hTied hTie (Or.inr (open_of_top hp hQuiet hClosed hPlain heZ hTops.2 hx))).elim
    | false =>
      exact (hTied hTie (Or.inl (open_of_top hp hQuiet hClosed hPlain haZ hTops.1 hx))).elim
  | clash => cases ho
  | paramStuck haTop heTop => exact ⟨_, _, _, _, haTop, heTop⟩
  | bodyStuck haTop heTop => exact ⟨_, _, _, _, haTop, heTop⟩
  | fn => cases ho

variable {a e : Monotype} {call : Bool} {s : Session}

/-- A step on function types goes on with their parts, unless it is known without a look at them
that there is nothing to do. -/
theorem step_parts {a₁ a₂ e₁ e₂ : Monotype} (ha : p.top a = .fn a₁ a₂) (he : p.top e = .fn e₁ e₂)
    (call : Bool) :
    (∀ unify sink, step unify a e call ⟨p, sink⟩ = .ok (none, ⟨followed p a e, sink⟩)) ∨
      ∃ u v, ((u = a₁ ∧ v = e₁) ∨ (u = e₁ ∧ v = a₁)) ∧
        ∀ (unify : Unifier) sink, step unify a e call ⟨p, sink⟩ = (do
          let verdict ← unify u v false
          return verdict.or (← unify a₂ e₂ false)) ⟨followed p a e, sink⟩ := by
  simp only [step, stepUpTo_apply, ha, he]
  -- known to be the same, or compared part by part
  by_cases hSame : Prefix.shares (followed p a e) a e = true ∧ Monotype.fn a₁ a₂ = .fn e₁ e₂
  · exact Or.inl fun _ _ => if_pos hSame
  · simp only [if_neg hSame]
    cases call with
    | true => exact Or.inr ⟨e₁, a₁, Or.inr ⟨rfl, rfl⟩, fun _ _ => rfl⟩
    | false => exact Or.inr ⟨a₁, e₁, Or.inl ⟨rfl, rfl⟩, fun _ _ => rfl⟩

/-- A run on function types ends if the runs on their parts do, one after the other. -/
theorem ends_of_parts {a₁ a₂ e₁ e₂ : Monotype} (ha : s.vars.top a = .fn a₁ a₂)
    (he : s.vars.top e = .fn e₁ e₂)
    (hParam : ∀ s' u v, s.vars.Quiet s'.vars → ((u = a₁ ∧ v = e₁) ∨ (u = e₁ ∧ v = a₁)) →
      Ends u v false s' ∧ ∀ n verdict s₁, within n u v false s' = .ok (verdict, s₁) →
        Ends a₂ e₂ false s₁) : Ends a e call s := by
  obtain hDone | ⟨u, v, hPair, hStep⟩ := step_parts ha he call
  · exact .of_ok (n := 1) (hDone _ s.sink)
  obtain ⟨⟨n, ⟨verdict, s₁⟩, hFirst⟩, hBody⟩ :=
    hParam ⟨followed s.vars a e, s.sink⟩ u v (quiet_followed s.vars a e) hPair
  -- the larger of the two amounts of fuel is enough for both parts
  obtain ⟨m, ⟨verdict', s₂⟩, hSecond⟩ := hBody n verdict s₁ (hFirst n (Nat.le_refl n))
  have hRun : within (max n m + 1) a e call s = .ok (verdict.or verdict', s₂) := by
    show step (within (max n m)) a e call ⟨s.vars, s.sink⟩ = _
    rw [hStep, bind_of_ok (hFirst _ (Nat.le_max_left n m)),
      bind_of_ok (hSecond _ (Nat.le_max_right n m))]
    rfl
  exact .of_ok hRun

/-- A run on types that lead to no quantified bound ends. The variables that are not solved become
fewer, or else the values of the types in a solution become smaller. -/
theorem ends_of_plain (hp : s.vars.WellFormed) (ha : s.vars.Covers a) (he : s.vars.Covers e)
    (hClosed : s.vars.Closed Z) (hPlain : s.vars.PlainOn Z) (haZ : ∀ x ∈ a.freeVars, x ∈ Z)
    (heZ : ∀ x ∈ e.freeVars, x ∈ Z) : Ends a e call s := by
  obtain ⟨r, hr⟩ := hp.acyclic.exists_isSolution
  generalize hCount : (s.vars.openIn Z).ncard = count
  generalize hSize : (a.eval r).height + (e.eval r).height = size
  induction count using Nat.strong_induction_on generalizing a e call s r size with
  | _ count ihCount =>
  -- on the open variables first and then on the heights of the two values
  induction size using Nat.strong_induction_on generalizing a e call s with
  | _ size ihSize =>
  obtain ⟨o, lost, hRun, hResult⟩ := within_follows 1 a e call s
  cases o with
  | some out => exact .of_ok hResult
  | none =>
    -- one unit of fuel is too little for function types only
    obtain ⟨a₁, a₂, e₁, e₂, haTop, heTop⟩ := StepRun.not_stuck hRun hp hClosed hPlain haZ heZ
    refine ends_of_parts haTop heTop fun s' u v hQuiet hPair => ?_
    obtain ⟨hu, hv, ha₂, he₂⟩ := hQuiet.covers_parts hp ha he haTop heTop hPair
    obtain ⟨⟨huZ, hvZ⟩, ha₂Z, he₂Z⟩ := hClosed.parts haZ heZ haTop heTop hPair
    have hBooks := hQuiet.settles hClosed hPlain
    have hp' := (hQuiet.wellFormed hp).1
    have hSame : s'.vars.openIn Z = s.vars.openIn Z := by
      ext x
      simp only [openIn, Set.mem_ofPred_eq, hQuiet.binds, hQuiet.solution?]
    -- the parts have smaller values
    have hParts : (u.eval r).height + (v.eval r).height < size ∧
        (a₂.eval r).height + (e₂.eval r).height < size := by
      rw [← hSize, ← hr.eval_top a, ← hr.eval_top e, haTop, heTop]
      simp only [Monotype.eval, Ground.height]
      rcases hPair with ⟨rfl, rfl⟩ | ⟨rfl, rfl⟩ <;> omega
    refine ⟨ihSize _ hParts.1 hp' hu hv hBooks.closed hBooks.plain huZ hvZ
      (hQuiet.isSolution_iff.2 hr) (by rw [hSame, hCount]) rfl, fun n verdict s₁ hFirst => ?_⟩
    obtain ⟨ds, hFirst, -, -⟩ := run_of_within_ok hFirst
    have hNarrows := Safe.narrows (run_safe n) hFirst hp' hu hv 0
    have hSettles := run_settling n hFirst hp' hu hv hBooks.closed hBooks.plain huZ hvZ
    have hFinite := finite_openIn s'.vars Z
    have hLe := Set.ncard_le_ncard hSettles.fewer hFinite
    rw [hSame, hCount] at hLe
    rcases Nat.lt_or_eq_of_le hLe with hLt | hEq
    · -- a variable was solved, and any solution will do from here on
      obtain ⟨r₁, hr₁⟩ := hNarrows.wellFormed.acyclic.exists_isSolution
      exact ihCount _ hLt hNarrows.wellFormed (hNarrows.covers ha₂) (hNarrows.covers he₂)
        hSettles.closed hSettles.plain ha₂Z he₂Z r₁ hr₁ rfl _ rfl
    · -- nothing happened
      have hOpen : s₁.vars.openIn Z = s'.vars.openIn Z :=
        Set.eq_of_subset_of_ncard_le hSettles.fewer (by rw [hSame, hCount, hEq]) hFinite
      exact ihSize _ hParts.2 hNarrows.wellFormed (hNarrows.covers ha₂) (hNarrows.covers he₂)
        hSettles.closed hSettles.plain ha₂Z he₂Z
        (hSettles.isSolution hOpen.ge (hQuiet.isSolution_iff.2 hr)) hEq rfl

/-- Whatever the fuel, unification either runs out of it or returns what it returns with any more
fuel. It ends if the equation has a solution, and if no bound that the types lead to has
quantifiers. -/
theorem unify_ends {p : Prefix} (hp : p.WellFormed) {a e : Monotype} (ha : p.Covers a)
    (he : p.Covers e) (sink : Sink) {run : Nat → Monotype → Monotype → Solve Verdict}
    (hRun : run = Mlf.unify ∨ run = Mlf.unifyCall) :
    (∀ n, (∃ out, run n a e ⟨p, sink⟩ = .error (.outOfFuel out)) ∨
      ∃ out, ∀ m, n ≤ m → run m a e ⟨p, sink⟩ = .ok out) ∧
    ((∃ r, p.IsSolution r ∧ a.eval r = e.eval r) ∨ p.PlainOn (Region p a e) →
      ∃ n out, ∀ m, n ≤ m → run m a e ⟨p, sink⟩ = .ok out) := by
  -- both ways to call unification are one function
  obtain ⟨call, rfl⟩ : ∃ call, run = fun n a e => within n a e call := by
    rcases hRun with rfl | rfl
    · exact ⟨false, rfl⟩
    · exact ⟨true, rfl⟩
  refine ⟨fun n => ?_, fun h => ?_⟩
  · -- a run has an outcome or is out of fuel, and there is no third way
    obtain ⟨o, lost, -, hResult⟩ := within_follows n a e call ⟨p, sink⟩
    cases o with
    | none => exact Or.inl ⟨_, hResult⟩
    | some out => exact Or.inr ⟨_, fun m hle => within_mono hle hResult⟩
  · show Ends a e call ⟨p, sink⟩
    rcases h with ⟨r, hr, hEq⟩ | hPlain
    · exact ends_of_solution hp ha he hr hEq
    · exact ends_of_plain hp ha he (closed_region p a e) hPlain
        (fun x hx => ⟨x, Or.inl hx, .refl⟩) fun x hx => ⟨x, Or.inr hx, .refl⟩

/-- A variable cannot be both a number and a boolean, and the run ends all the same. -/
theorem unify_ends_of_mismatch : ∃ (p : Prefix) (a e : Monotype),
    p = empty.enter.add "x" .unbounded ∧ a = .fn (.var "x") (.var "x") ∧
    e = .fn (.const .number) (.const .boolean) ∧
    p.WellFormed ∧ p.Covers a ∧ p.Covers e ∧ p.PlainOn (Region p a e) ∧
    (¬ ∃ r, p.IsSolution r ∧ a.eval r = e.eval r) ∧
    ∃ n out, ∀ m, n ≤ m → Mlf.unify m a e ⟨p, .empty⟩ = .ok out := by
  have hGrows : empty.enter.Grows (empty.enter.add "x" .unbounded) "x" .unbounded :=
    add_grows (by decide) (by decide) _
  have hp : (empty.enter.add "x" .unbounded).WellFormed := wellFormed_empty.enter.add (by decide)
  have ha : (empty.enter.add "x" .unbounded).Covers (.mono (.fn (.var "x") (.var "x"))) := by decide
  have he : (empty.enter.add "x" .unbounded).Covers
      (.mono (.fn (.const .number) (.const .boolean))) := by decide
  have hPlain (Z : Set String) : (empty.enter.add "x" .unbounded).PlainOn Z := by
    intro y _ b hb
    rw [hGrows.find?] at hb
    split_ifs at hb
    · obtain rfl := Option.some.inj hb
      exact Or.inl rfl
    · cases hb
  refine ⟨_, _, _, rfl, rfl, rfl, hp, ha, he, hPlain _, ?_, ?_⟩
  · -- one value would have to be both constants
    rintro ⟨r, -, hEq⟩
    simp only [Monotype.eval, Ground.fn.injEq] at hEq
    simp [hEq.1] at hEq
  · exact (unify_ends hp ha he .empty (Or.inl rfl)).2 (Or.inr (hPlain _))

/-- Unification does not end for `(s → x → s → v → Boolean) → x` and `(yb → ya) → (ya → s) → v`,
where `ya` and `yb` have the wheel as their rigid bound, and `x`, `s` and `v` have no bounds. -/
theorem unify_diverges :
    (empty.enter.addAll spokes).WellFormed ∧ 1 ≤ (empty.enter.addAll spokes).level ∧
    (empty.enter.addAll spokes).Covers actualTurn ∧ (empty.enter.addAll spokes).Covers expectedTurn ∧
    ∀ fuel sink,
      (∃ out, Mlf.unify fuel actualTurn expectedTurn ⟨empty.enter.addAll spokes, sink⟩ =
        .error (.outOfFuel out)) ∧
      ∃ out, Mlf.unifyCall fuel actualTurn expectedTurn ⟨empty.enter.addAll spokes, sink⟩ =
        .error (.outOfFuel out) := by
  obtain ⟨hTurning, hLevel⟩ := turning_spokes wellFormed_empty.enter (one_le_level_enter empty)
    -- no name is in play at the start
    fun b _ hb => by
      obtain ⟨e, he⟩ := hb
      cases he
  exact ⟨hTurning.wellFormed, hLevel.ge, hTurning.covers.1, hTurning.covers.2, fun fuel sink =>
    ⟨within_diverges hTurning fuel false sink, within_diverges hTurning fuel true sink⟩⟩

end Unify

end Mlf
