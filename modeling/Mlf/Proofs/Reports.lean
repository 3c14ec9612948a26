import Mathlib
import Mlf.Proofs.Agreement

/-!
# Reports and the verdict

Unification writes to the sink and never reads it. What it reports, what it does to the variables and
whether it ends are the same whatever the sink holds, and also if the sink keeps nothing. So there is
one sequence of reports that belongs to the call and not to the sink, and a sink that keeps reports
gets it at its end.

The verdict is the first report of that sequence. In a sink that keeps reports it is the first one that
was not there before; if the sink keeps nothing, it is the only one that a caller gets to see.

`Blind` says of a part of a run that it does not look at the sink. There is one lemma for each way to
put parts together and one for each operation, so the proofs follow the definitions.

None of this depends on when two types are seen to be the same, so it is said for every test that there
may be for that. A test gets the prefix, and with it all that has happened up to then.

Main results:

* `withinUpTo_blind` — unification does not look at the sink;
* `withinUpTo_head` — the verdict is the first report;
* `unify_returns_first_report` — both, for all ways to call unification.
-/

namespace Mlf

namespace Solve

variable {α β : Type} {act : Solve α} {next : α → Solve β}

/-- A part of a run that does not look at the sink. There are reports that it makes with every sink,
and then it runs out of fuel with every sink, or it ends with every sink, with one result and the same
variables. -/
def Blind (act : Solve α) : Prop :=
  ∀ p, ∃ ds : List Diagnostic,
    (∀ sink, act ⟨p, sink⟩ = .error (.outOfFuel (ds.foldl .report sink))) ∨
      ∃ a q, ∀ sink, act ⟨p, sink⟩ = .ok (a, ⟨q, ds.foldl .report sink⟩)

/-- A part of a run that does not look at the sink and always comes to its end. -/
def Prompt (act : Solve α) : Prop :=
  ∀ p, ∃ (ds : List Diagnostic) (a : α) (q : Prefix),
    ∀ sink, act ⟨p, sink⟩ = .ok (a, ⟨q, ds.foldl .report sink⟩)

theorem Prompt.blind (h : Prompt act) : Blind act := fun p =>
  let ⟨ds, a, q, hAct⟩ := h p
  ⟨ds, Or.inr ⟨a, q, hAct⟩⟩

theorem Prompt.pure (a : α) : Prompt (pure a : Solve α) := fun p => ⟨[], a, p, fun _ => rfl⟩

theorem Prompt.bind (h : Prompt act) (h' : ∀ a, Prompt (next a)) : Prompt (act >>= next) := by
  intro p
  obtain ⟨ds, a, q, hAct⟩ := h p
  obtain ⟨ds', b, q', hNext⟩ := h' a q
  refine ⟨ds ++ ds', b, q', fun sink => ?_⟩
  rw [bind_of_ok (hAct sink), hNext, List.foldl_append]

theorem Prompt.ite {P : Prop} [Decidable P] {alt : Solve α} (h : Prompt act) (hAlt : Prompt alt) :
    Prompt (if P then act else alt) := by
  split
  · exact h
  · exact hAlt

theorem Prompt.vars : Prompt vars := fun p => ⟨[], p, p, fun _ => rfl⟩

theorem Prompt.onVars (f : Prefix → α × Prefix) : Prompt (onVars f) :=
  fun p => ⟨[], (f p).1, (f p).2, fun _ => rfl⟩

theorem Prompt.changeVars (f : Prefix → Prefix) : Prompt (changeVars f) :=
  fun p => ⟨[], (), f p, fun _ => rfl⟩

theorem Prompt.note (e : Event) : Prompt (note e) := .changeVars _

theorem Prompt.report (d : Diagnostic) : Prompt (report d) := fun p => ⟨[d], (), p, fun _ => rfl⟩

theorem Blind.pure (a : α) : Blind (pure a : Solve α) := (Prompt.pure a).blind

theorem Blind.giveUp : Blind (giveUp : Solve α) := fun _ => ⟨[], Or.inl fun _ => rfl⟩

/-- The reports of two parts follow each other. -/
theorem Blind.bind (h : Blind act) (h' : ∀ a, Blind (next a)) : Blind (act >>= next) := by
  intro p
  obtain ⟨ds, hStuck | ⟨a, q, hAct⟩⟩ := h p
  · exact ⟨ds, Or.inl fun sink => bind_of_error (hStuck sink)⟩
  obtain ⟨ds', hNext⟩ := h' a q
  refine ⟨ds ++ ds', hNext.imp (fun hStuck sink => ?_) fun ⟨b, q', hDone⟩ => ⟨b, q', fun sink => ?_⟩⟩
  · rw [bind_of_ok (hAct sink), hStuck, List.foldl_append]
  · rw [bind_of_ok (hAct sink), hDone, List.foldl_append]

theorem Blind.ite {P : Prop} [Decidable P] {alt : Solve α} (h : Blind act) (hAlt : Blind alt) :
    Blind (if P then act else alt) := by
  split
  · exact h
  · exact hAlt

/-- It is enough to know another such part for each prefix that a run may start from. -/
theorem Blind.of_eq (h : ∀ p, ∃ act', Blind act' ∧ ∀ sink, act ⟨p, sink⟩ = act' ⟨p, sink⟩) :
    Blind act := by
  intro p
  obtain ⟨act', hAct', hEq⟩ := h p
  simpa only [hEq] using hAct' p

theorem Blind.atLevel (h : Blind act) : Blind (atLevel act) :=
  .bind (Prompt.changeVars _).blind fun _ => .bind h fun a =>
    .bind (Prompt.changeVars _).blind fun _ => .pure a

end Solve

namespace Unify

open Solve

/-! ## The parts of unification -/

theorem mismatch_prompt (a e : Polytype) : Prompt (mismatch a e) :=
  .bind (.onVars _) fun _ => .bind (.onVars _) fun _ => .bind (.report _) fun _ => .pure _

theorem infinite_prompt (x : String) (t : Polytype) : Prompt (infinite x t) :=
  .bind (.onVars _) fun _ => .bind (.report _) fun _ => .pure _

theorem unbound_prompt (x : String) : Prompt (unbound x) :=
  .bind (.note _) fun _ => .bind (.report _) fun _ => .pure _

theorem equivalent_prompt (a b : Polytype) : Prompt (equivalent a b) :=
  .bind (.onVars _) fun _ => .bind (.onVars _) fun _ => .pure _

theorem violates_prompt (b : Bound) (t : Polytype) : Prompt (violates b t) :=
  .ite (.bind (equivalent_prompt _ _) fun _ => .pure _) (.pure _)

theorem instantiate_prompt (t : Polytype) : Prompt (instantiate t) := by
  unfold instantiate
  rcases t.normal.split with ⟨bs, body⟩
  cases body with
  | mono m => exact .onVars _
  | bottom => exact .bind (.onVars _) fun _ => .pure _
  | all x k b t => exact .bind (.onVars _) fun _ => .pure _

/-- How variables are tied from the prefix `p` on. Either something comes up at once, or the two types
are unified and then there is an end to it. How types are unified has no other bearing on it. -/
def Ties (tie : Unifier → Solve Verdict) (T : Tie) (call : Bool) (p : Prefix) : Prop :=
  (∃ act, Prompt act ∧ ∀ unify sink, tie unify ⟨p, sink⟩ = act ⟨p, sink⟩) ∨
    T.Begins p ∧ ∃ rest : Polytype × Verdict → Solve Verdict, (∀ out, Prompt (rest out)) ∧
      ∀ unify sink, tie unify ⟨p, sink⟩ =
        (unifyPoly unify T.actual T.expected call >>= rest) ⟨p, sink⟩

/-- Making two variables one. -/
theorem mergeVars_ties {p : Prefix} {x y : String} {ex ey : Entry} (hx : p.find? x = some ex)
    (hy : p.find? y = some ey) (call : Bool) :
    Ties (fun unify => mergeVars unify x y call) (.merge x y ex.bound ey.bound) call p := by
  unfold mergeVars
  simp only [perform_solve]
  simp only [Ties, bind_of_ok (vars_apply _), hx, hy]
  -- two variables that stand for unknown rigid types cannot be one
  by_cases hClash : ex.bound = ⟨.rigid, .bottom⟩ ∧ ey.bound = ⟨.rigid, .bottom⟩
  · simp only [if_pos hClash]
    exact Or.inl ⟨_, mismatch_prompt _ _, fun _ _ => rfl⟩
  simp only [if_neg hClash]
  by_cases hOccurs : p.occurs x ey.bound.type = true
  · simp only [if_pos hOccurs]
    exact Or.inl ⟨_, infinite_prompt _ _, fun _ _ => rfl⟩
  simp only [if_neg hOccurs]
  by_cases hOccurs' : p.occurs y ex.bound.type = true
  · simp only [if_pos hOccurs']
    exact Or.inl ⟨_, infinite_prompt _ _, fun _ _ => rfl⟩
  simp only [if_neg hOccurs']
  -- nothing has come up, so the bounds are unified
  refine Or.inr ⟨Tie.merge_begins hx hy hClash (Bool.eq_false_iff.2 hOccurs)
    (Bool.eq_false_iff.2 hOccurs'), _, fun out => .ite (.pure _) ?_, fun _ _ => rfl⟩
  refine .bind (.bind (violates_prompt _ _) fun v => ?_) fun v => .ite (mismatch_prompt _ _) ?_
  · -- the second bound is looked at only if the first one is kept
    cases v with
    | true => exact .pure _
    | false => exact violates_prompt _ _
  refine .bind .vars fun p => ?_
  refine .ite (infinite_prompt _ _) (.ite (infinite_prompt _ _) ?_)
  exact .bind (.bind (.onVars _) fun _ => .pure _) fun _ => .pure _

/-- Solving a variable. -/
theorem solveVar_ties {p : Prefix} {x : String} {ex : Entry} (hx : p.find? x = some ex)
    (t : Monotype) (swapped call : Bool) :
    Ties (fun unify => solveVar unify x t swapped call) (.solve x ex.bound t swapped) call p := by
  unfold solveVar
  simp only [perform_solve]
  simp only [Ties, bind_of_ok (vars_apply _), hx]
  by_cases hOccurs : p.occurs x t = true
  · simp only [if_pos hOccurs]
    exact Or.inl ⟨_, infinite_prompt _ _, fun _ _ => rfl⟩
  simp only [if_neg hOccurs]
  refine Or.inr ⟨Tie.solve_begins swapped hx (Bool.eq_false_iff.2 hOccurs), ?_⟩
  -- the two orders are one call on the sides of the tie
  have hSwap (unify : Unifier) (next : Polytype × Verdict → Solve Verdict) :
      (if swapped = true then unifyPoly unify t ex.bound.type call >>= next
        else unifyPoly unify ex.bound.type t call >>= next) =
      unifyPoly unify (Tie.solve x ex.bound t swapped).actual
        (Tie.solve x ex.bound t swapped).expected call >>= next := by
    cases swapped <;> rfl
  simp only [hSwap]
  refine ⟨_, fun out => ?_, fun _ _ => rfl⟩
  refine .ite (.pure _) (.bind (violates_prompt _ _) fun v => .ite ?_ ?_)
  · exact .ite (.bind (mismatch_prompt _ _) fun _ => .pure _)
      (.bind (mismatch_prompt _ _) fun _ => .pure _)
  · refine .bind .vars fun p => ?_
    exact .ite (infinite_prompt _ _) (.bind (.changeVars _) fun _ => .pure _)

variable {unify : Unifier}

theorem unifyPoly_blind (h : ∀ a e call, Blind (unify a e call)) (a e : Polytype) (call : Bool) :
    Blind (unifyPoly unify a e call) := by
  -- the case with quantifiers, at a level of its own
  have hOpened : Blind (atLevel do
      let a ← instantiate a
      let e ← instantiate e
      let verdict ← unify a e call
      return (← onVars (·.generalize a), verdict)) :=
    .atLevel <| .bind (instantiate_prompt a).blind fun a => .bind (instantiate_prompt e).blind
      fun e => .bind (h a e call) fun _ => .bind (Prompt.onVars _).blind fun _ => .pure _
  unfold unifyPoly
  split
  · exact .pure _
  · exact .pure _
  · exact .bind (h _ _ call) fun _ => .pure _
  · exact hOpened

theorem Ties.blind {tie : Unifier → Solve Verdict} {T : Tie} {call : Bool} {p : Prefix}
    (h : Ties tie T call p) (hUnify : ∀ a e call, Blind (unify a e call)) :
    ∃ act, Blind act ∧ ∀ sink, tie unify ⟨p, sink⟩ = act ⟨p, sink⟩ := by
  rcases h with ⟨act, hAct, hEq⟩ | ⟨-, rest, hRest, hEq⟩
  · exact ⟨act, hAct.blind, hEq unify⟩
  · exact ⟨_, .bind (unifyPoly_blind hUnify _ _ call) fun out => (hRest out).blind, hEq unify⟩

theorem mergeVars_blind (h : ∀ a e call, Blind (unify a e call)) (x y : String) (call : Bool) :
    Blind (mergeVars unify x y call) := by
  -- what happens depends on the variables in play, which are known at the start
  refine .of_eq fun p => ?_
  cases hx : p.find? x with
  | none => exact ⟨_, (unbound_prompt x).blind, fun sink => mergeVars_unbound_left (s := ⟨p, sink⟩) hx⟩
  | some ex =>
    cases hy : p.find? y with
    | none =>
      exact ⟨_, (unbound_prompt y).blind, fun sink => mergeVars_unbound_right (s := ⟨p, sink⟩) hx hy⟩
    | some ey => exact (mergeVars_ties hx hy call).blind h

theorem solveVar_blind (h : ∀ a e call, Blind (unify a e call)) (x : String) (t : Monotype)
    (swapped call : Bool) : Blind (solveVar unify x t swapped call) := by
  refine .of_eq fun p => ?_
  cases hx : p.find? x with
  | none => exact ⟨_, (unbound_prompt x).blind, fun sink => solveVar_unbound (s := ⟨p, sink⟩) hx⟩
  | some ex => exact (solveVar_ties hx t swapped call).blind h

theorem stepUpTo_blind (same : Prefix → Monotype → Monotype → Bool)
    (h : ∀ a e call, Blind (unify a e call)) (a e : Monotype) (call : Bool) :
    Blind (stepUpTo same unify a e call) := by
  refine .bind (Prompt.onVars _).blind fun a => .bind (Prompt.onVars _).blind fun e =>
    .bind (Prompt.note _).blind fun _ => .bind Prompt.vars.blind fun p => .ite (.pure _) ?_
  dsimp only
  split
  · exact .ite (.pure _) (mergeVars_blind h _ _ call)
  · exact solveVar_blind h _ _ false call
  · exact solveVar_blind h _ _ true call
  · exact .ite (.pure _) (mismatch_prompt _ _).blind
  · -- parameters and bodies are both looked at, whatever is found
    exact .ite (.bind (h _ _ false) fun _ => .bind (h _ _ false) fun _ => .pure _)
      (.bind (h _ _ false) fun _ => .bind (h _ _ false) fun _ => .pure _)
  · exact (mismatch_prompt _ _).blind

/-! ## The verdict -/

/-- Unification does not look at the sink. -/
theorem withinUpTo_blind (same : Prefix → Monotype → Monotype → Bool) (fuel : Nat) (a e : Monotype)
    (call : Bool) : Blind (withinUpTo same fuel a e call) := by
  induction fuel generalizing a e call with
  | zero => exact .giveUp
  | succ n ih => exact stepUpTo_blind same ih a e call

/-- The verdict of a run is its first report, whatever sink the reports go to. -/
theorem withinUpTo_head {same : Prefix → Monotype → Monotype → Bool} {fuel : Nat} {a e : Monotype}
    {call : Bool} {p q : Prefix} {verdict : Verdict} {ds : List Diagnostic}
    (h : ∀ sink, (withinUpTo same fuel a e call : Solve Verdict) ⟨p, sink⟩ =
      .ok (verdict, ⟨q, ds.foldl .report sink⟩)) : verdict = ds.head? := by
  -- an empty sink ends up with the reports and nothing else
  obtain ⟨o, lost, -, hResult⟩ := withinUpTo_follows same fuel a e call ⟨p, .empty⟩
  rw [h .empty] at hResult
  cases o with
  | none => cases hResult
  | some out =>
    obtain ⟨hVerdict, hSession⟩ := Prod.mk.inj (Except.ok.inj hResult)
    have hCollect : Sink.collect ([] ++ ds) = .collect ([] ++ out.2) := by
      rw [← foldl_report_collect, ← foldl_report_collect]
      exact congrArg Session.sink hSession
    rw [hVerdict, show ds = out.2 by simpa using hCollect]

/-- Unification only adds to the sink, and returns the first report that it adds. A run that ends
makes a sequence of reports. The sink gets them one after the other; if it keeps reports, they stand
after those that it had. The verdict is none exactly if there are no reports, and otherwise the
first of them. With another sink, also one that keeps nothing, the run makes the same reports, comes
to the same verdict and leaves the same variables. All this goes for unification with any other test
that tells which types are the same without a look at their parts. -/
theorem unify_returns_first_report (same : Prefix → Monotype → Monotype → Bool)
    {run : Nat → Monotype → Monotype → Solve Verdict}
    (hRun : run = Mlf.unify ∨ run = Mlf.unifyCall ∨
      ∃ call, run = fun fuel a e => withinUpTo same fuel a e call)
    {fuel : Nat} {a e : Monotype} {p : Prefix} {sink : Sink} {verdict : Verdict} {s : Session}
    (hEnd : run fuel a e ⟨p, sink⟩ = .ok (verdict, s)) :
    ∃ ds : List Diagnostic, s.sink = ds.foldl .report sink ∧
      (∀ kept, sink = .collect kept → s.sink = .collect (kept ++ ds)) ∧
      (verdict = none ↔ ds = []) ∧ (∀ d, verdict = some d → ∃ later, ds = d :: later) ∧
      ∀ sink', run fuel a e ⟨p, sink'⟩ = .ok (verdict, ⟨s.vars, ds.foldl .report sink'⟩) := by
  obtain ⟨same, call, rfl⟩ : ∃ same call, run = fun fuel a e => withinUpTo same fuel a e call := by
    rcases hRun with rfl | rfl | ⟨call, rfl⟩
    · exact ⟨Prefix.shares, false, rfl⟩
    · exact ⟨Prefix.shares, true, rfl⟩
    · exact ⟨same, call, rfl⟩
  -- the reports are the same for every sink, so those of the given run are those of all
  obtain ⟨ds, hStuck | ⟨v, q, hSame⟩⟩ := withinUpTo_blind same fuel a e call p
  · have hBoth := (hStuck sink).symm.trans hEnd
    cases hBoth
  · obtain ⟨rfl, rfl⟩ : v = verdict ∧ ⟨q, ds.foldl .report sink⟩ = s := by
      simpa using (hSame sink).symm.trans hEnd
    have hHead := withinUpTo_head hSame
    refine ⟨ds, rfl, fun kept hKept => ?_, ?_, fun d hd => ?_, hSame⟩
    · rw [hKept]
      exact foldl_report_collect kept ds
    · rw [hHead, List.head?_eq_none_iff]
    · exact List.head?_eq_some_iff.1 (hHead.symm.trans hd)

/-- The bound `∀ b. b → number` of a variable does not admit `string → boolean`, and the bodies go
on to a name that is not in play: two reports after an older one, and the verdict is the first of
them, also if nobody keeps them. -/
theorem unify_returns_first_report_nested : ∃ p d s,
    p = Prefix.empty.enter.add "x" ⟨.flexible,
      .all "b" .flexible .bottom (.mono (.fn (.var "b") (.const .number)))⟩ ∧
    d = .incompatible (.mono (.const .number)) (.mono (.const .boolean)) ∧
    Mlf.unify 6 (.fn (.var "x") (.const .number))
      (.fn (.fn (.const .string) (.const .boolean)) (.var "y")) ⟨p, .collect [.unbound "z"]⟩ =
      .ok (some d, s) ∧
    s.sink = .collect [.unbound "z", d, .internal (.unboundVariable "y")] ∧
    Mlf.unify 6 (.fn (.var "x") (.const .number))
      (.fn (.fn (.const .string) (.const .boolean)) (.var "y")) ⟨p, .discard⟩ =
      .ok (some d, ⟨s.vars, .discard⟩) := by
  obtain ⟨p, d, s, hp, hd, hRun, hReports⟩ : ∃ p d s,
      p = Prefix.empty.enter.add "x" ⟨.flexible,
        .all "b" .flexible .bottom (.mono (.fn (.var "b") (.const .number)))⟩ ∧
      d = .incompatible (.mono (.const .number)) (.mono (.const .boolean)) ∧
      Mlf.unify 6 (.fn (.var "x") (.const .number))
        (.fn (.fn (.const .string) (.const .boolean)) (.var "y")) ⟨p, .collect [.unbound "z"]⟩ =
        .ok (some d, s) ∧ s.sink = .collect [.unbound "z", d, .internal (.unboundVariable "y")] :=
    ⟨_, _, _, rfl, rfl, by cbv, by cbv⟩
  obtain ⟨ds, -, hKept, -, -, hSame⟩ := unify_returns_first_report Prefix.shares (Or.inl rfl) hRun
  -- the reports of the call are what the sink has in addition
  have hAdded : [d, .internal (.unboundVariable "y")] = ds := by
    simpa [hReports] using hKept _ rfl
  refine ⟨p, d, s, hp, hd, hRun, hReports, ?_⟩
  rw [hSame .discard, ← hAdded]
  rfl

end Unify

end Mlf
