import Mathlib
import Mlf.Proofs.InferInvariant
import Mlf.Proofs.Loads
import Mlf.Proofs.Reports

/-!
# Silent runs end

Unification may go on forever, but it does not do so in silence. As long as nothing is reported, the
load of the variables in play goes down with each variable that is tied, so there are only so many
bounds to be opened, and between two of them the types at hand become smaller. What makes a run endless
is a mismatch: it is reported, the variables stay as they were narrowed by then, and the load may go up.

So whatever two types a run is about, there is an amount of fuel from which on it comes to its end, or
has reported something when it runs out.

Inference calls unification a fixed number of times and is otherwise done at once, so it is not silent
forever either.

`Speaks` says so of a part of a run. An empty sink is enough to tell, since nothing looks at it.

Main results:

* `Speaks.bind` — a part of a run and what follows it;
* `within_speaks` — unification is not silent forever;
* `expr_speaks`, `infer_speaks` — neither is inference.
-/

namespace Mlf

/-- A sink is empty if nothing was in it and nothing was reported to it. -/
theorem foldl_report_eq_empty {ds : List Diagnostic} {sink : Sink}
    (h : ds.foldl .report sink = .empty) : sink = .empty ∧ ds = [] := by
  induction ds generalizing sink with
  | nil => exact ⟨h, rfl⟩
  | cons d ds ih =>
    obtain ⟨hReport, -⟩ := ih h
    cases sink <;> simp [Sink.report, Sink.empty] at hReport

namespace Solve

variable {α β : Type} {act : Nat → Solve α} {next : Nat → α → Solve β} {p q : Prefix}

/-- A part of a run that is told how much fuel there is. It does not look at the sink, and what it
returns with some fuel it returns with any more. -/
structure Steady (act : Nat → Solve α) : Prop where
  blind : ∀ n, Blind (act n)
  approx : ∀ n, Approx (act n) (act (n + 1))

theorem Prompt.steady {act : Solve α} (h : Prompt act) : Steady fun _ => act :=
  ⟨fun _ => h.blind, fun _ => .refl act⟩

theorem Steady.bind (h : Steady act) (h' : ∀ a, Steady fun n => next n a) :
    Steady fun n => act n >>= next n :=
  ⟨fun n => .bind (h.blind n) fun a => (h' a).blind n,
    fun n => .bind (h.approx n) fun a => (h' a).approx n⟩

theorem Steady.atLevel (h : Steady act) : Steady fun n => atLevel (act n) :=
  ⟨fun n => .atLevel (h.blind n), fun n => .atLevel (h.approx n)⟩

/-- With enough fuel, a part of a run comes to its end or reports something on the way. -/
def Speaks (act : Nat → Solve α) (p : Prefix) : Prop :=
  ∃ n, ∀ m, n ≤ m → act m ⟨p, .empty⟩ ≠ .error (.outOfFuel .empty)

theorem Prompt.speaks {act : Solve α} (h : Prompt act) (p : Prefix) : Speaks (fun _ => act) p := by
  obtain ⟨ds, a, q, hAct⟩ := h p
  refine ⟨0, fun m _ => ?_⟩
  dsimp only
  rw [hAct]
  nofun

theorem Speaks.of_eq {act' : Nat → Solve α}
    (h : ∀ n, act n ⟨p, .empty⟩ = act' n ⟨q, .empty⟩) (h' : Speaks act' q) : Speaks act p := by
  obtain ⟨n, hSpeaks⟩ := h'
  exact ⟨n, fun m hm => by rw [h]; exact hSpeaks m hm⟩

/-- The first unit of fuel does not count. -/
theorem Speaks.of_succ (h : Speaks (fun n => act (n + 1)) p) : Speaks act p := by
  obtain ⟨n, hSpeaks⟩ := h
  refine ⟨n + 1, fun m hm => ?_⟩
  obtain ⟨k, rfl⟩ := Nat.exists_eq_add_of_le' hm
  exact hSpeaks (k + n) (Nat.le_add_left n k)

theorem Speaks.bind_of_ne (h : Speaks act p)
    (hNext : ∀ m a s, act m ⟨p, .empty⟩ = .ok (a, s) → next m a s ≠ .error (.outOfFuel .empty)) :
    Speaks (fun n => act n >>= next n) p := by
  obtain ⟨n, hSpeaks⟩ := h
  refine ⟨n, fun m hm hStuck => ?_⟩
  dsimp only at hStuck
  cases hFirst : act m ⟨p, .empty⟩ with
  | error halt =>
    rw [bind_of_error hFirst] at hStuck
    obtain rfl := Except.error.inj hStuck
    exact hSpeaks m hm hFirst
  | ok out =>
    rw [bind_of_ok hFirst] at hStuck
    exact hNext m out.1 out.2 hFirst hStuck

/-- A part of a run and what follows it. What follows is met with the variables as they are after a
silent end of the first part. There is only one, since more fuel does not change it. -/
theorem Speaks.bind (h : Speaks act p) (hAct : Steady act) (hRest : ∀ a, Steady fun n => next n a)
    (hNext : ∀ n a q, act n ⟨p, .empty⟩ = .ok (a, ⟨q, .empty⟩) → Speaks (fun n => next n a) q) :
    Speaks (fun n => act n >>= next n) p := by
  -- either the first part ends in silence with some fuel, and then in the same way with any more
  by_cases hSilent : ∃ n a q, act n ⟨p, .empty⟩ = .ok (a, ⟨q, .empty⟩)
  · obtain ⟨n, a, q, hEnd⟩ := hSilent
    obtain ⟨k, hSpeaks⟩ := hNext n a q hEnd
    refine ⟨max n k, fun m hm => ?_⟩
    dsimp only
    rw [bind_of_ok (Approx.mono hAct.approx (by omega) _ _ hEnd)]
    exact hSpeaks m (by omega)
  · -- or it never does, and then it has reported something by the time it ends or is out of fuel
    refine h.bind_of_ne ?_
    rintro m a ⟨q, sink⟩ hFirst hStuck
    -- what was reported by then would still be there
    obtain ⟨ds, hNext | ⟨b, q', hNext⟩⟩ := (hRest a).blind m q
    · have hSink := Halt.outOfFuel.inj (Except.error.inj ((hNext sink).symm.trans hStuck))
      exact hSilent ⟨m, a, q, by rw [hFirst, (foldl_report_eq_empty hSink).1]⟩
    · have hBoth := (hNext sink).symm.trans hStuck
      cases hBoth

/-- What follows a part of a run may not need fuel. -/
theorem Speaks.bind_prompt {next : α → Solve β} (h : Speaks act p) (hNext : ∀ a, Prompt (next a)) :
    Speaks (fun n => act n >>= next) p := by
  refine h.bind_of_ne fun m a s _ hStuck => ?_
  obtain ⟨ds, b, q, hEnd⟩ := hNext a s.vars
  cases (hEnd s.sink).symm.trans hStuck

theorem Speaks.atLevel (h : Speaks act p.enter) : Speaks (fun n => atLevel (act n)) p := by
  obtain ⟨n, hSpeaks⟩ := h
  refine ⟨n, fun m hm hStuck => ?_⟩
  dsimp only at hStuck
  cases hAct : act m ⟨p.enter, .empty⟩ with
  | error halt =>
    rw [atLevel_of_error (s := ⟨p, .empty⟩) hAct] at hStuck
    obtain rfl := Except.error.inj hStuck
    exact hSpeaks m hm hAct
  | ok out =>
    rw [atLevel_of_ok (s := ⟨p, .empty⟩) hAct] at hStuck
    cases hStuck

end Solve

namespace Unify

open Solve Prefix

/-! ## Tying variables -/

theorem within_steady (a e : Monotype) (call : Bool) : Steady fun n => within n a e call :=
  ⟨fun n => withinUpTo_blind _ n a e call, fun n => within_approx n a e call⟩

/-- Types that are not both monotypes are opened, unless one of them is no bound at all. -/
theorem unifyPoly_of_open {a e : Polytype} (ha : a ≠ .bottom) (he : e ≠ .bottom)
    (hOpen : a.mono? = none ∨ e.mono? = none) (unify : Unifier) (call : Bool) :
    unifyPoly unify a e call = atLevel do
      let a ← instantiate a
      let e ← instantiate e
      let verdict ← unify a e call
      return (← onVars (·.generalize a), verdict) := by
  cases a with
  | bottom => exact absurd rfl ha
  | mono a =>
    cases e with
    | bottom => exact absurd rfl he
    | mono e => rcases hOpen with hOpen | hOpen <;> cases hOpen
    | all x k b t => rfl
  | all x k b t =>
    cases e with
    | bottom => exact absurd rfl he
    | mono e => rfl
    | all y l c u => rfl

/-- The common instances of two types are found or something is reported, if this goes for the types
as they are opened. -/
theorem unifyPoly_speaks {a e : Polytype} (hOpen : a.mono? = none ∨ e.mono? = none) (call : Bool)
    {p : Prefix}
    (h : a ≠ .bottom → e ≠ .bottom →
      Speaks (fun n => within n (p.enter.opened a).1 ((p.enter.opened a).2.opened e).1 call)
        ((p.enter.opened a).2.opened e).2) :
    Speaks (fun n => unifyPoly (within n) a e call) p := by
  -- if one of the types is no bound at all, there is nothing to open
  by_cases ha : a = .bottom
  · subst ha
    exact (Prompt.pure (e, none)).speaks p
  by_cases he : e = .bottom
  · subst he
    refine .of_eq (fun n => ?_) ((Prompt.pure (a, (none : Verdict))).speaks p)
    cases a <;> rfl
  simp only [unifyPoly_of_open ha he hOpen]
  refine .atLevel (.of_eq (fun n => ?_) ((h ha he).bind_prompt
    fun verdict => .bind (.onVars (·.generalize (p.enter.opened a).1)) fun t => .pure (t, verdict)))
  rw [bind_of_ok (instantiate_apply a _), bind_of_ok (instantiate_apply e _)]

/-- What is known of a run on two types: they are about variables in play, and the names `Z` are all
that it may come across. -/
structure About (p : Prefix) (a e : Monotype) (Z : Set String) : Prop where
  wellFormed : p.WellFormed
  actual : p.Covers a
  expected : p.Covers e
  arena : Arena p Z
  actual_mem : ∀ x ∈ a.freeVars, x ∈ Z
  expected_mem : ∀ x ∈ e.freeVars, x ∈ Z

theorem About.quiet {p q : Prefix} {a e : Monotype} {Z : Set String} (h : About p a e Z)
    (hQuiet : p.Quiet q) : About q a e Z :=
  ⟨(hQuiet.wellFormed h.wellFormed).1, hQuiet.covers h.actual, hQuiet.covers h.expected,
    h.arena.mono (hQuiet.narrows h.wellFormed 0 h.arena.closed), h.actual_mem, h.expected_mem⟩

/-- A run may come across all names there are. -/
theorem About.univ {p : Prefix} {a e : Monotype} (hp : p.WellFormed) (ha : p.Covers a)
    (he : p.Covers e) : About p a e Set.univ :=
  ⟨hp, ha, he, ⟨closed_univ p, fun _ _ => trivial⟩, fun _ _ => trivial, fun _ _ => trivial⟩

/-- Runs on names with less load than `count` are not silent forever. -/
def SpeaksBelow (count : Nat) : Prop :=
  ∀ {p : Prefix} {a e : Monotype} {Z : Set String} (call : Bool), p.load Z < count →
    About p a e Z → Speaks (fun n => within n a e call) p

/-- A variable is tied or something is reported. The types of the tie do not lead to its variables,
whose load is more than what it takes to open the types. -/
theorem Ties.speaks {tie : Unifier → Solve Verdict} {T : Tie} {call : Bool} {p : Prefix}
    {Z : Set String} (h : Ties tie T call p) (hp : p.WellFormed) (hZ : Arena p Z) (hT : T.Fits p Z)
    (hNodup : T.vars.Nodup) (hOpen : T.Open)
    (hPays : T.actual.quantifiers + T.expected.quantifiers < (T.vars.map p.cost).sum)
    (hBelow : SpeaksBelow (p.load Z)) : Speaks (fun n => tie (within n)) p := by
  rcases h with ⟨act, hAct, hEq⟩ | ⟨hBegins, rest, hRest, hEq⟩
  · exact .of_eq (fun n => hEq _ _) (hAct.speaks p)
  refine .of_eq (fun n => hEq _ _) (Speaks.bind_prompt ?_ hRest)
  refine unifyPoly_speaks hOpen.quantified call fun haBottom heBottom => ?_
  -- the names aside have less load, even with the two types opened
  have hArena := hT.arena_aside hZ
  obtain ⟨hActual, hExpected⟩ := hT.mem_aside hp.acyclic hBegins
  have hPair := opensPair hp hT.actual.1 hT.expected.1 hArena.closed hActual hExpected
  have hAllowed := hArena.enter.allowed_eq
  have hOpened := hPair.load_le hArena hT.actual.2.1 haBottom hT.expected.2.1 heBottom
  have hAside := hT.load_aside_le hNodup
  exact hBelow call (by omega) ⟨hPair.narrows.wellFormed, hPair.coversActual, hPair.second.covers,
    hArena.enter.mono hPair.narrows, hAllowed ▸ hPair.first.allowed,
    hAllowed ▸ hPair.allowedExpected⟩

/-! ## Unification -/

section

variable {p : Prefix} {a e : Monotype} {Z : Set String} (h : About p a e Z)
  (hBelow : SpeaksBelow (p.load Z))
include h hBelow

theorem mergeVars_speaks {x y : String} (ha : p.top a = .var x) (he : p.top e = .var y)
    (hne : x ≠ y) (call : Bool) : Speaks (fun n => mergeVars (within n) x y call) p := by
  have hp := h.wellFormed
  obtain ⟨ex, hx⟩ : p.Binds x := hp.scoping.closed.mem_top h.actual ha
  obtain ⟨ey, hy⟩ : p.Binds y := hp.scoping.closed.mem_top h.expected he
  have hxOpen := bound_of_top hp (.refl p) ha hx
  have hyOpen := bound_of_top hp (.refl p) he hy
  refine (mergeVars_ties hx hy call).speaks hp h.arena (Tie.merge_fits hp hne hx hy h.arena.closed
    (h.arena.closed.mem_top h.actual_mem ha) (h.arena.closed.mem_top h.expected_mem he))
    (by simpa [Tie.merge] using hne) (Tie.merge_open hxOpen hyOpen) ?_ hBelow
  -- what the two variables cost is more than the quantifiers of their bounds
  simp only [Tie.merge, List.map_cons, List.map_nil, List.sum_cons, List.sum_nil,
    open_cost hx hxOpen, open_cost hy hyOpen]
  omega

/-- An open variable is solved or something is reported. -/
theorem solveVar_speaks {x : String} {t : Monotype} (swapped : Bool)
    (hTops : if swapped then p.top a = t ∧ p.top e = .var x else p.top a = .var x ∧ p.top e = t)
    (ht : ∀ y, t ≠ .var y) (call : Bool) :
    Speaks (fun n => solveVar (within n) x t swapped call) p := by
  have hp := h.wellFormed
  have hZ := h.arena.closed
  -- whichever side the variable is on
  obtain ⟨u, hTop, huCovers, hxZ, htCovers, htZ⟩ : ∃ u, p.top u = .var x ∧ p.Covers u ∧ x ∈ Z ∧
      p.Covers t ∧ ∀ y ∈ t.freeVars, y ∈ Z := by
    cases swapped with
    | true =>
      obtain ⟨rfl, he⟩ := hTops
      exact ⟨e, he, h.expected, hZ.mem_top h.expected_mem he, hp.scoping.covers_top h.actual,
        hZ.top h.actual_mem⟩
    | false =>
      obtain ⟨ha, rfl⟩ := hTops
      exact ⟨a, ha, h.actual, hZ.mem_top h.actual_mem ha, hp.scoping.covers_top h.expected,
        hZ.top h.expected_mem⟩
  obtain ⟨ex, hx⟩ : p.Binds x := hp.scoping.closed.mem_top huCovers hTop
  have hxOpen := bound_of_top hp (.refl p) hTop hx
  refine (solveVar_ties hx t swapped call).speaks hp h.arena
    (Tie.solve_fits hp hx htCovers swapped hZ hxZ htZ) (by simp [Tie.solve])
    (Tie.solve_open hxOpen ht swapped) ?_ hBelow
  cases swapped <;> simp [Tie.solve, open_cost hx hxOpen, Polytype.quantifiers]

/-- Two tops are the same or differ, have a variable among them that is tied, or are functions. -/
theorem meet_speaks (call : Bool)
    (hParts : ∀ {a₁ a₂ e₁ e₂ u v : Monotype}, p.top a = .fn a₁ a₂ → p.top e = .fn e₁ e₂ →
      ((u = a₁ ∧ v = e₁) ∨ (u = e₁ ∧ v = a₁)) →
      Speaks (fun n => do
        let verdict ← within n u v false
        return verdict.or (← within n a₂ e₂ false)) p) :
    Speaks (fun n => meet (within n) (p.top a) (p.top e) call) p := by
  have hNone : Speaks (fun _ => (pure none : Solve Verdict)) p := (Prompt.pure none).speaks p
  have hMismatch (t u : Monotype) : Speaks (fun _ => mismatch (.mono t) (.mono u)) p :=
    (mismatch_prompt _ _).speaks p
  cases ha : p.top a with
  | var x =>
    cases he : p.top e with
    | var y =>
      simp only [meet]
      split_ifs with hxy
      · exact hNone
      · exact mergeVars_speaks h hBelow ha he hxy call
    | const c => exact solveVar_speaks h hBelow false ⟨ha, he⟩ (by simp) call
    | fn e₁ e₂ => exact solveVar_speaks h hBelow false ⟨ha, he⟩ (by simp) call
  | const c =>
    cases he : p.top e with
    | var y => exact solveVar_speaks h hBelow true ⟨ha, he⟩ (by simp) call
    | const d =>
      simp only [meet]
      split_ifs with hcd
      · exact hNone
      · exact hMismatch _ _
    | fn e₁ e₂ => exact hMismatch _ _
  | fn a₁ a₂ =>
    cases he : p.top e with
    | var y => exact solveVar_speaks h hBelow true ⟨ha, he⟩ (by simp) call
    | const d => exact hMismatch _ _
    | fn e₁ e₂ =>
      -- the parameters are swapped in a call
      cases call with
      | true => exact hParts ha he (Or.inr ⟨rfl, rfl⟩)
      | false => exact hParts ha he (Or.inl ⟨rfl, rfl⟩)

end

/-- Unification is not silent forever. A silent run on the parameters of two functions leaves less
load for the bodies, or else the solutions are the same ones, in which the bodies have smaller
values. -/
theorem within_speaks {p : Prefix} {a e : Monotype} {Z : Set String} (h : About p a e Z)
    (call : Bool) : Speaks (fun n => within n a e call) p := by
  -- any solution serves to measure the types
  obtain ⟨r, hr⟩ := h.wellFormed.acyclic.exists_isSolution
  generalize hCount : p.load Z = count
  generalize hSize : (a.eval r).height + (e.eval r).height = size
  induction count using Nat.strong_induction_on generalizing p a e Z call r size with
  | _ count ihCount =>
  -- on the load first and then on the heights of the two values
  induction size using Nat.strong_induction_on generalizing p a e call with
  | _ size ihSize =>
  have hQuiet := quiet_followed p a e
  have h' := h.quiet hQuiet
  have hr' := hQuiet.isSolution_iff.2 hr
  have hLoad : (followed p a e).load Z = count := (hQuiet.load_eq Z).trans hCount
  -- with less load, heights do not matter
  have hBelow : SpeaksBelow ((followed p a e).load Z) := by
    intro q b c Z' call hLt hAbout
    obtain ⟨r', hr'⟩ := hAbout.wellFormed.acyclic.exists_isSolution
    exact ihCount _ (hLoad ▸ hLt) hAbout call r' hr' rfl _ rfl
  refine .of_succ ?_
  by_cases hSame : Prefix.shares (followed p a e) a e = true ∧ p.top a = p.top e
  · refine .of_eq (fun n => ?_) ((Prompt.pure (none : Verdict)).speaks (followed p a e))
    rw [within, withinUpTo, stepUpTo_apply, if_pos hSame]
    rfl
  refine .of_eq (fun n => ?_) (meet_speaks h' hBelow call fun {a₁ a₂ e₁ e₂ u v} ha he hPair => ?_)
  · rw [within, withinUpTo, stepUpTo_apply, if_neg hSame, hQuiet.top, hQuiet.top]
    rfl
  obtain ⟨⟨hu, hv⟩, ha₂, he₂⟩ := h'.wellFormed.scoping.closed.parts h'.actual h'.expected ha he hPair
  obtain ⟨⟨huZ, hvZ⟩, ha₂Z, he₂Z⟩ := h'.arena.closed.parts h'.actual_mem h'.expected_mem ha he hPair
  -- the parts have smaller values
  have hParts : (u.eval r).height + (v.eval r).height < size ∧
      (a₂.eval r).height + (e₂.eval r).height < size := by
    rw [← hSize, ← hr'.eval_top a, ← hr'.eval_top e, ha, he]
    simp only [Monotype.eval, Ground.height]
    rcases hPair with ⟨rfl, rfl⟩ | ⟨rfl, rfl⟩ <;> omega
  refine (ihSize _ hParts.1 ⟨h'.wellFormed, hu, hv, h'.arena, huZ, hvZ⟩ false hr' hLoad rfl).bind
    (within_steady u v false)
    (fun _ => .bind (within_steady a₂ e₂ false) fun _ => (Prompt.pure _).steady)
    fun n verdict q hFirst => ?_
  refine Speaks.bind_prompt ?_ fun _ => .pure _
  obtain ⟨ds, hRun, -, hSink⟩ := run_of_within_ok hFirst
  obtain rfl := (foldl_report_eq_empty hSink.symm).2
  have hNarrows := (run_safe n hRun h'.wellFormed hu hv h'.arena.closed huZ hvZ 0).1
  have hLightens := run_lightens n hRun h'.wellFormed hu hv h'.arena huZ hvZ
  have hBody : About q a₂ e₂ Z := ⟨hNarrows.wellFormed, hNarrows.covers ha₂, hNarrows.covers he₂,
    h'.arena.mono hNarrows, ha₂Z, he₂Z⟩
  -- the parameters have been unified in silence
  rcases Nat.lt_or_eq_of_le hLightens.le with hLt | hEq
  · exact hBelow false hLt hBody
  · exact ihSize _ hParts.2 hBody false (hLightens.same hEq r hr') (hEq.trans hLoad) rfl

end Unify

namespace Infer

open Solve Prefix

/-! ## Inference -/

theorem fault_prompt (fuel : Nat) (f : Fault) : Prompt (fault ⟨false, fuel⟩ f) := .report _

theorem monomorphize_prompt (t : Polytype) (kind : BoundKind) : Prompt (monomorphize t kind) := by
  unfold monomorphize
  split
  · exact .pure _
  · exact .bind (.onVars _) fun _ => .pure _

theorem settle_prompt (e : Expr Stamp) : Prompt (settle e) :=
  fun p => ⟨[], e.map p.settle, p.settled e, fun sink => settle_apply e ⟨p, sink⟩⟩

/-- What is done about a call once its two parts are typed. -/
def applyTyped (fuel : Nat) (callee arg : Expr Stamp × Polytype) :
    Solve (Expr Stamp × Expr Stamp × Polytype × Verdict) := do
  let function ← monomorphize callee.2 .flexible
  let param ← monomorphize arg.2 .flexible
  let result := Monotype.var (← onVars (·.newType .unbounded))
  let verdict ← unifyCall fuel function (.fn param result)
  let t ← onVars (·.generalize result)
  return (← settle callee.1, ← settle arg.1, t, verdict)

/-- What is done about an annotation once its value is typed. -/
def annotTyped (fuel : Nat) (value : Expr Stamp × Polytype) (declared : Polytype) :
    Solve (Expr Stamp × Polytype × Verdict) := do
  let actual ← monomorphize value.2 .flexible
  let expected ← monomorphize declared .rigid
  let verdict ← unify fuel actual expected
  let t ← onVars (·.generalize declared)
  return (← settle value.1, t.normal, verdict)

theorem expr_call_typed (fuel : Nat) (scope : Scope) (info : Unit) (callee arg : Program) :
    expr ⟨false, fuel⟩ scope (.call info callee arg) = do
      let (callee, arg, t, verdict) ← atLevel do
        let callee ← expr ⟨false, fuel⟩ scope callee
        let arg ← expr ⟨false, fuel⟩ scope arg
        applyTyped fuel callee arg
      note (.call t verdict.isSome)
      return (wrap verdict (.of t) (.call (.of t) callee arg), t) := rfl

theorem expr_annot_typed (fuel : Nat) (scope : Scope) (info : Unit) (value : Program)
    (declared : Polytype) :
    expr ⟨false, fuel⟩ scope (.annot info value declared) = do
      let (value, t, verdict) ← atLevel do
        changeVars fun p => p.declare (p.wildcards declared)
        let value ← expr ⟨false, fuel⟩ scope value
        annotTyped fuel value declared
      return (wrap verdict (.of t) (.annot (.of t) value declared), t) := rfl

theorem applyTyped_steady (callee arg : Expr Stamp × Polytype) :
    Steady fun n => applyTyped n callee arg := by
  refine .bind (monomorphize_prompt _ _).steady fun _ => .bind (monomorphize_prompt _ _).steady
    fun _ => .bind (Prompt.onVars _).steady fun _ => .bind (Unify.within_steady _ _ true) fun _ => ?_
  exact (Prompt.bind (.onVars _) fun _ => .bind (settle_prompt _) fun _ =>
    .bind (settle_prompt _) fun _ => .pure _).steady

theorem annotTyped_steady (value : Expr Stamp × Polytype) (declared : Polytype) :
    Steady fun n => annotTyped n value declared := by
  refine .bind (monomorphize_prompt _ _).steady fun _ => .bind (monomorphize_prompt _ _).steady
    fun _ => .bind (Unify.within_steady _ _ false) fun _ => ?_
  exact (Prompt.bind (.onVars _) fun _ => .bind (settle_prompt _) fun _ => .pure _).steady

/-- What inference returns does not depend on the sink, and more fuel does not change it. -/
theorem expr_steady (scope : Scope) (e : Program) : Steady fun n => expr ⟨false, n⟩ scope e := by
  induction e generalizing scope with
  | missing => exact (Prompt.bind (fault_prompt 0 _) fun _ => .pure _).steady
  | unknown => exact (Prompt.bind (fault_prompt 0 _) fun _ => .pure _).steady
  | var info x =>
    simp only [expr_var]
    cases scope.find? x with
    | some t => exact (Prompt.pure _).steady
    | none => exact (Prompt.bind (.report _) fun _ => .pure _).steady
  | const info v => exact (Prompt.pure _).steady
  | func info x body ih =>
    simp only [expr_func]
    refine .bind (.atLevel (.bind (Prompt.onVars _).steady fun _ => .bind (ih _) fun _ => ?_))
      fun _ => (Prompt.bind (.note _) fun _ => .pure _).steady
    exact (Prompt.bind (monomorphize_prompt _ _) fun _ => .bind (.onVars _) fun _ =>
      .bind (settle_prompt _) fun _ => .pure _).steady
  | call info callee arg ihCallee ihArg =>
    -- the parts of a call, and then their unification, which is what takes fuel
    simp only [expr_call_typed]
    exact .bind (.atLevel (.bind (ihCallee _) fun _ => .bind (ihArg _) fun _ =>
      applyTyped_steady _ _)) fun _ => (Prompt.bind (.note _) fun _ => .pure _).steady
  | letIn info x value body ihValue ihBody =>
    simp only [expr_letIn]
    exact .bind (ihValue _) fun _ => .bind (ihBody _) fun _ => (Prompt.pure _).steady
  | annot info value declared ih =>
    simp only [expr_annot_typed]
    exact .bind (.atLevel (.bind (Prompt.changeVars _).steady fun _ => .bind (ih _) fun _ =>
      annotTyped_steady _ _)) fun _ => (Prompt.pure _).steady
  | error info d inner ih =>
    by_cases hInner : inner = .missing
    · subst hInner
      exact (Prompt.pure _).steady
    · simp only [expr_error _ _ _ _ hInner]
      exact .bind (.atLevel (.bind (ih _) fun _ => (settle_prompt _).steady)) fun _ =>
        (Prompt.pure _).steady

/-- The parts of a call are unified at the variables that they were typed with. -/
theorem applyTyped_speaks {p : Prefix} (hp : p.WellFormed) (hLevel : 1 ≤ p.level)
    {callee arg : Expr Stamp × Polytype} (hCallee : p.Covers callee.2) (hArg : p.Covers arg.2) :
    Speaks (fun n => applyTyped n callee arg) p := by
  rcases hFunction : p.monomorphized callee.2 .flexible with ⟨f, p₁⟩
  rcases hParam : p₁.monomorphized arg.2 .flexible with ⟨a, p₂⟩
  rcases hResult : p₂.newType .unbounded with ⟨x, q⟩
  have hOpens := callOpens hp hLevel hCallee hArg hFunction hParam hResult
  have hAbout : Unify.About q f (.fn a (.var x)) Set.univ :=
    .univ hOpens.narrows.wellFormed hOpens.function hOpens.applied
  -- unification is all that takes fuel
  refine .of_eq (fun n => ?_) ((Unify.within_speaks hAbout true).bind_prompt fun verdict =>
    .bind (.onVars (·.generalize (.var x : Monotype))) fun t =>
      .bind (settle_prompt callee.1) fun tree => .bind (settle_prompt arg.1) fun tree' =>
        .pure (tree, tree', t, verdict))
  unfold applyTyped
  rw [bind_of_ok (monomorphize_apply _ _ _), bind_of_ok (monomorphize_apply _ _ _),
    bind_of_ok (onVars_apply _ _)]
  dsimp only
  rw [hFunction, hParam, hResult]
  rfl

theorem annotTyped_speaks {p : Prefix} (hp : p.WellFormed) (hLevel : 1 ≤ p.level)
    {value : Expr Stamp × Polytype} {declared : Polytype} (hValue : p.Covers value.2)
    (hDeclared : p.Covers declared) : Speaks (fun n => annotTyped n value declared) p := by
  rcases hActual : p.monomorphized value.2 .flexible with ⟨a, p₁⟩
  rcases hExpected : p₁.monomorphized declared .rigid with ⟨e, q⟩
  have hFirst := monomorphized_opens hp hLevel hValue hActual
  have hSecond := monomorphized_opens hFirst.narrows.wellFormed (hFirst.narrows.one_le_level hLevel)
    (hFirst.narrows.covers hDeclared) hExpected
  -- both monotypes are over what is in play after the second one is made up
  have hAbout : Unify.About q a e Set.univ :=
    .univ hSecond.narrows.wellFormed (hSecond.narrows.covers hFirst.covers) hSecond.covers
  refine .of_eq (fun n => ?_) ((Unify.within_speaks hAbout false).bind_prompt fun verdict =>
    .bind (.onVars (·.generalize declared)) fun t => .bind (settle_prompt value.1) fun tree =>
      .pure (tree, t.normal, verdict))
  unfold annotTyped
  rw [bind_of_ok (monomorphize_apply _ _ _), bind_of_ok (monomorphize_apply _ _ _)]
  dsimp only
  rw [hActual, hExpected]
  rfl

/-- Inference is not silent forever. -/
theorem expr_speaks {scope : Scope} {p : Prefix} (hp : p.WellFormed) (hLevel : 1 ≤ p.level)
    (hScope : scope.Over p) (e : Program) : Speaks (fun n => expr ⟨false, n⟩ scope e) p := by
  induction e generalizing scope p with
  | missing => exact (Prompt.bind (fault_prompt 0 _) fun _ => .pure _).speaks p
  | unknown => exact (Prompt.bind (fault_prompt 0 _) fun _ => .pure _).speaks p
  | var info x =>
    simp only [expr_var]
    cases scope.find? x with
    | some t => exact (Prompt.pure _).speaks p
    | none => exact (Prompt.bind (.report _) fun _ => .pure _).speaks p
  | const info v => exact (Prompt.pure _).speaks p
  | func info x body ih =>
    simp only [expr_func]
    refine .bind_prompt (.atLevel ?_) fun _ => .bind (.note _) fun _ => .pure _
    rcases hParam : p.enter.newType .unbounded with ⟨param, q⟩
    have hNew := param_opens hp hParam
    refine .of_eq (fun n => ?_) (Speaks.bind_prompt (ih hNew.narrows.wellFormed
      (hNew.narrows.one_le_level (one_le_level_enter p))
      ((hScope.enter.mono hNew.narrows).insert x hNew.covers)) fun out =>
        .bind (monomorphize_prompt out.2 .flexible) fun result =>
          .bind (.onVars (·.generalize (.fn (.var param) result : Monotype))) fun t =>
            .bind (settle_prompt out.1) fun tree => .pure (tree, t))
    rw [bind_of_ok (onVars_apply _ _)]
    dsimp only
    rw [hParam]
  | call info callee arg ihCallee ihArg =>
    simp only [expr_call_typed]
    refine .bind_prompt (.atLevel ?_) fun _ => .bind (.note _) fun _ => .pure _
    have hEnter := one_le_level_enter p
    refine (ihCallee hp.enter hEnter hScope.enter).bind (expr_steady scope callee)
      (fun _ => .bind (expr_steady scope arg) fun _ => applyTyped_steady _ _) fun n out q hOut => ?_
    -- what is left behind by the callee is where the argument starts
    have hCallee := (run_of_expr_ok hOut).keeps hp.enter hEnter hScope.enter
    have hLevel₁ := (hCallee.narrows 0).one_le_level hEnter
    have hScope₁ := hScope.enter.mono (hCallee.narrows 0)
    refine (ihArg (hCallee.narrows 0).wellFormed hLevel₁ hScope₁).bind (expr_steady scope arg)
      (fun _ => applyTyped_steady _ _) fun n out' q' hOut' => ?_
    have hArg := (run_of_expr_ok hOut').keeps (hCallee.narrows 0).wellFormed hLevel₁ hScope₁
    exact applyTyped_speaks (hArg.narrows 0).wellFormed ((hArg.narrows 0).one_le_level hLevel₁)
      ((hArg.narrows 0).covers hCallee.covers) hArg.covers
  | letIn info x value body ihValue ihBody =>
    simp only [expr_letIn]
    refine (ihValue hp hLevel hScope).bind (expr_steady scope value)
      (fun _ => .bind (expr_steady _ body) fun _ => (Prompt.pure _).steady) fun n out q hOut => ?_
    have hValue := (run_of_expr_ok hOut).keeps hp hLevel hScope
    exact .bind_prompt (ihBody (hValue.narrows 0).wellFormed ((hValue.narrows 0).one_le_level hLevel)
      ((hScope.mono (hValue.narrows 0)).insert x hValue.covers)) fun _ => .pure _
  | annot info value declared ih =>
    simp only [expr_annot_typed]
    refine .bind_prompt (.atLevel ?_) fun _ => .pure _
    obtain ⟨hNames, hDeclared⟩ := wildcards_narrows hp.enter (one_le_level_enter p) declared
    have hLevel₁ := hNames.one_le_level (one_le_level_enter p)
    have hScope₁ := hScope.enter.mono hNames
    refine .of_eq (fun n => bind_of_ok (changeVars_apply _ _)) ((ih hNames.wellFormed hLevel₁
      hScope₁).bind (expr_steady scope value) (fun _ => annotTyped_steady _ declared)
        fun n out q hOut => ?_)
    have hValue := (run_of_expr_ok hOut).keeps hNames.wellFormed hLevel₁ hScope₁
    exact annotTyped_speaks (hValue.narrows 0).wellFormed ((hValue.narrows 0).one_le_level hLevel₁)
      hValue.covers ((hValue.narrows 0).covers hDeclared)
  | error info d inner ih =>
    by_cases hInner : inner = .missing
    · subst hInner
      exact (Prompt.pure _).speaks p
    · simp only [expr_error _ _ _ _ hInner]
      exact .bind_prompt (.atLevel (.bind_prompt (ih hp.enter (one_le_level_enter p) hScope.enter)
        fun _ => settle_prompt _)) fun _ => .pure _

/-- Inference of a whole program comes to its end, or it has reported something when it runs out of
fuel, if there is enough of that. -/
theorem infer_speaks (scope : Scope) (e : Program) (sink : Sink) : ∃ n, ∀ fuel ≥ n,
    (∃ out, infer ⟨false, fuel⟩ sink scope e = .ok out) ∨
      ∃ ds ≠ [], infer ⟨false, fuel⟩ sink scope e = .error (.outOfFuel (ds.foldl .report sink)) := by
  by_cases hMissing : e = .missing
  · subst hMissing
    refine ⟨0, fun fuel _ => Or.inl ⟨⟨.missing, sink.report (.internal .emptyExpression), []⟩, ?_⟩⟩
    rw [infer, root_missing]
    rfl
  obtain ⟨hNarrows, hScope⟩ := scope_over scope
  obtain ⟨n, hSpeaks⟩ := expr_speaks hNarrows.wellFormed
    (hNarrows.one_le_level (one_le_level_enter _)) hScope e
  refine ⟨n, fun fuel hFuel => ?_⟩
  -- what a run reports does not depend on the sink, so it is enough to look at the empty one
  obtain ⟨ds, hStuck | ⟨out, q, hEnd⟩⟩ :=
    (expr_steady scope e).blind fuel (Prefix.empty.enter.declare scope.freeVars.sorted)
  · refine Or.inr ⟨ds, ?_, ?_⟩
    · rintro rfl
      exact hSpeaks fuel hFuel (hStuck .empty)
    · rw [infer, StateT.run, root_of_error hMissing (hStuck sink)]
      rfl
  · obtain ⟨events, hOk⟩ :=
      (infer_eq_ok_iff hMissing).2 ⟨_, _, run_of_expr_ok (hEnd sink), rfl, rfl⟩
    exact Or.inl ⟨_, hOk⟩

end Infer

end Mlf
