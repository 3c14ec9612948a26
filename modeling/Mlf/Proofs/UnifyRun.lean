import Mlf.Proofs.Instances
import Mlf.Unify.Basic

/-!
# Runs of unification

What unification can do is said here once, as a relation between the variables in play, the two
types and what a run leaves behind: nothing if it runs out of fuel, and otherwise the variables and
the reports. Everything that is proved about unification goes by cases over this relation and by
induction on the fuel.

The relation leaves out what has no bearing on types: the wording of mismatches, the events, and
whether two types come from a call. Making two variables one and solving a variable have the same
course, so they are two cases of one relation, which ties variables to the common instances of two
types.

Main results:

* `Quiet` — a change that only keeps books;
* `StepRun`, `TieRun`, `PolyRun` — what one step does, by means of runs on parts;
* `within_follows` — every run of unification is a run of the relation.
-/

namespace Mlf

open Relation

variable {p q : Prefix} {s : Session} {a e : Monotype} {ex : Entry} {x y : String} {unify : Unifier}

namespace Prefix

/-! ## Changes that only keep books -/

/-- The variables, their bounds and their levels are the same; misuses may be recorded only where
bounds lead in a circle. -/
structure Quiet (p q : Prefix) : Prop where
  entries : q.entries = p.entries
  levels : q.levels = p.levels
  failures : p.Acyclic → q.failures = p.failures

theorem Quiet.refl (p : Prefix) : p.Quiet p := ⟨rfl, rfl, fun _ => rfl⟩

theorem Quiet.find? {p q : Prefix} (h : p.Quiet q) (x : String) : q.find? x = p.find? x :=
  find?_congr h.entries x

theorem Quiet.mentions (h : p.Quiet q) : q.Mentions = p.Mentions :=
  mentions_congr h.find?

theorem Quiet.acyclic (h : p.Quiet q) : q.Acyclic ↔ p.Acyclic := by
  rw [Acyclic, Acyclic, h.mentions]

theorem Quiet.trans {s : Prefix} (h : p.Quiet q) (h' : q.Quiet s) : p.Quiet s where
  entries := h'.entries.trans h.entries
  levels := h'.levels.trans h.levels
  failures hAcyclic := (h'.failures (h.acyclic.2 hAcyclic)).trans (h.failures hAcyclic)

theorem Quiet.binds (h : p.Quiet q) (x : String) : q.Binds x ↔ p.Binds x := by
  simp only [Binds, h.find?]

theorem Quiet.occurs (h : p.Quiet q) (x : String) (t : Polytype) : q.occurs x t = p.occurs x t := by
  rw [Bool.eq_iff_iff, occurs_iff, occurs_iff]
  simp only [Reaches, h.mentions]

theorem quiet_note (p : Prefix) (e : Event) : p.Quiet (p.note e) := ⟨rfl, rfl, fun _ => rfl⟩

theorem quiet_failAll (p : Prefix) (fs : List Failure) (h : p.Acyclic → fs = []) :
    p.Quiet (p.failAll fs) where
  entries := entries_failAll p fs
  levels := levels_failAll p fs
  failures hAcyclic := by rw [h hAcyclic, failAll_nil]

/-- Where bounds do not lead in a circle, solved variables can be replaced. -/
theorem Acyclic.resolution_failures (h : p.Acyclic) (names : List String) :
    (p.resolution [] names).2 = [] :=
  resolution_failures_eq_nil.2 fun x _ => h.untangled.not_tangles x

theorem quiet_resolve (p : Prefix) (t : Polytype) : p.Quiet (p.resolve t).2 :=
  quiet_failAll p _ fun hAcyclic => hAcyclic.resolution_failures _

theorem quiet_resolveTop (p : Prefix) (t : Monotype) : p.Quiet (p.resolveTop t).2 := by
  unfold resolveTop
  split
  · exact .refl p
  · next m hCut =>
    -- the way to the top is cut off only where solutions lead in a circle
    refine quiet_failAll p [.selfBound m] fun hAcyclic => ?_
    have hDone := hAcyclic.follow_done t
    rw [hCut] at hDone
    cases hDone

theorem resolveTop_fst (p : Prefix) (t : Monotype) : (p.resolveTop t).1 = p.top t := by
  unfold resolveTop top
  split <;> next hEq => rw [hEq]

/-- Replacing solved variables takes nothing from a prefix but its solutions. -/
theorem resolution_congr (h : ∀ x, q.solution? x = p.solution? x) (path names : List String) :
    q.resolution path names = p.resolution path names := by
  fun_induction Prefix.resolution p path names with
  | case1 path => rw [Prefix.resolution]
  | case2 path x rest hNone ih =>
    rw [Prefix.resolution, ih]
    split <;> simp_all
  | case3 path x rest m hSome hSeen s fs hRest ih =>
    rw [Prefix.resolution, ih, hRest]
    split <;> simp_all
  | case4 path x rest m hSome hSeen inner fs hInner s gs hRest ihInner ihRest =>
    rw [Prefix.resolution, ihRest, hRest]
    split <;> simp_all

theorem follow_congr (h : ∀ x, q.solution? x = p.solution? x) (n : Nat) (t : Monotype) :
    q.follow n t = p.follow n t := by
  fun_induction follow p n t with
  | case1 t => rfl
  | case2 n x hNone => simp only [follow, h, hNone]
  | case3 n x m hSome ih => simpa only [follow, h, hSome] using ih
  | case4 n t hNotVar =>
    cases t with
    | var x => exact absurd rfl (hNotVar x)
    | const c => rfl
    | fn a b => rfl

theorem source?_congr (h : ∀ x, q.solution? x = p.solution? x) (n : Nat) (t : Monotype) :
    q.source? n t = p.source? n t := by
  induction n generalizing t with
  | zero => cases t <;> rfl
  | succ n ih =>
    cases t with
    | var x => simp only [source?, h, ih]
    | const c => rfl
    | fn a b => rfl

theorem Quiet.solution? (h : p.Quiet q) (x : String) : q.solution? x = p.solution? x := by
  simp only [Prefix.solution?, h.find?]

theorem Quiet.resolved (h : p.Quiet q) (t : Polytype) : q.resolved t = p.resolved t := by
  rw [Prefix.resolved, Prefix.resolved, resolution_congr h.solution?]

theorem Quiet.top (h : p.Quiet q) (t : Monotype) : q.top t = p.top t := by
  rw [Prefix.top, Prefix.top, size, h.entries, follow_congr h.solution?]
  rfl

end Prefix

/-- A report that is about the program, and not about inference itself. -/
def Diagnostic.Plain (d : Diagnostic) : Prop := ∀ f, d ≠ .internal f

namespace Solve

/-! ## Parts of a run, one after the other -/

variable {α β : Type} {act : Solve α} {next : α → Solve β} {s s' : Session} {a : α} {halt : Halt}

theorem bind_of_ok (h : act s = .ok (a, s')) : (act >>= next) s = next a s' := by
  show Except.bind (act s) _ = _
  rw [h]
  rfl

theorem bind_of_error (h : act s = .error halt) : (act >>= next) s = .error halt := by
  show Except.bind (act s) _ = _
  rw [h]
  rfl

theorem get_apply (s : Session) : (get : Solve Session) s = .ok (s, s) := rfl

theorem vars_apply (s : Session) : vars s = .ok (s.vars, s) := rfl

theorem giveUp_apply (s : Session) : (giveUp : Solve α) s = .error (.outOfFuel s.sink) := rfl

theorem onVars_apply (f : Prefix → α × Prefix) (s : Session) :
    onVars f s = .ok ((f s.vars).1, ⟨(f s.vars).2, s.sink⟩) := rfl

theorem note_apply (e : Event) (s : Session) : note e s = .ok ((), ⟨s.vars.note e, s.sink⟩) := rfl

theorem enter_apply (s : Session) :
    changeVars (·.enter) s = .ok ((), ⟨s.vars.enter, s.sink⟩) := rfl

theorem atLevel_of_ok (h : act ⟨s.vars.enter, s.sink⟩ = .ok (a, s')) :
    atLevel act s = .ok (a, ⟨s'.vars.leave, s'.sink⟩) := by
  unfold atLevel
  simp only [perform_solve]
  rw [bind_of_ok (enter_apply s), bind_of_ok h]
  rfl

theorem atLevel_of_error (h : act ⟨s.vars.enter, s.sink⟩ = .error halt) :
    atLevel act s = .error halt := by
  unfold atLevel
  simp only [perform_solve]
  rw [bind_of_ok (enter_apply s), bind_of_error h]

end Solve

namespace Unify

open Solve

/-! ## What one step does -/

/-- What a run leaves behind: nothing when it runs out of fuel, and otherwise the variables in play
and the reports, the first one first. -/
abbrev Outcome := Option (Prefix × List Diagnostic)

/-- What runs on two types may leave behind. -/
abbrev Behavior := Prefix → Monotype → Monotype → Outcome → Prop

/-- Runs on two types with quantifiers; the outcome has their common instances in addition. -/
inductive PolyRun (R : Behavior) (p : Prefix) :
    Polytype → Polytype → Option (Prefix × List Diagnostic × Polytype) → Prop
  | left (t : Polytype) : PolyRun R p .bottom t (some (p, [], t))
  | right (t : Polytype) : PolyRun R p t .bottom (some (p, [], t))
  | monoStuck {a e : Monotype} (h : R p a e none) : PolyRun R p (.mono a) (.mono e) none
  | mono {a e : Monotype} {q : Prefix} {ds : List Diagnostic} (h : R p a e (some (q, ds))) :
    PolyRun R p (.mono a) (.mono e) (some (q, ds, .mono a))
  | openedStuck {a e : Polytype} (ha : a ≠ .bottom) (he : e ≠ .bottom)
    (h : R ((p.enter.opened a).2.opened e).2 (p.enter.opened a).1
      ((p.enter.opened a).2.opened e).1 none) : PolyRun R p a e none
  | opened {a e : Polytype} {q : Prefix} {ds : List Diagnostic} (ha : a ≠ .bottom)
    (he : e ≠ .bottom)
    (h : R ((p.enter.opened a).2.opened e).2 (p.enter.opened a).1
      ((p.enter.opened a).2.opened e).1 (some (q, ds))) :
    PolyRun R p a e (some ((q.generalize (p.enter.opened a).1).2.leave, ds,
      (q.generalize (p.enter.opened a).1).1))

/-- Nothing is done to find the common instances of two types one of which has all instances. -/
theorem PolyRun.of_bottom {R : Behavior} {a e : Polytype}
    {o : Option (Prefix × List Diagnostic × Polytype)} (h : PolyRun R p a e o)
    (hBottom : a = .bottom ∨ e = .bottom) :
    ∃ t, o = some (p, [], t) ∧ ((a = .bottom ∧ t = e) ∨ (e = .bottom ∧ t = a)) := by
  cases h with
  | left => exact ⟨_, rfl, Or.inl ⟨rfl, rfl⟩⟩
  | right => exact ⟨_, rfl, Or.inr ⟨rfl, rfl⟩⟩
  | monoStuck => simp at hBottom
  | mono => simp at hBottom
  | openedStuck ha he => exact absurd hBottom (not_or.2 ⟨ha, he⟩)
  | opened ha he => exact absurd hBottom (not_or.2 ⟨ha, he⟩)

theorem PolyRun.eq_of_bottom {R : Behavior} {a e t : Polytype} {ds : List Diagnostic}
    (h : PolyRun R p a e (some (q, ds, t))) (hBottom : a = .bottom ∨ e = .bottom) :
    q = p ∧ ds = [] ∧ ((a = .bottom ∧ t = e) ∨ (e = .bottom ∧ t = a)) := by
  obtain ⟨t', hEq, ht⟩ := h.of_bottom hBottom
  obtain ⟨rfl, rfl, rfl⟩ : q = p ∧ ds = [] ∧ t = t' := by simpa using hEq
  exact ⟨rfl, rfl, ht⟩

/-- Variables that are to be tied to the common instances of two types. -/
structure Tie where
  vars : List String
  /-- What the variables stand for so far. -/
  bounds : List Bound
  actual : Polytype
  expected : Polytype
  /-- Whether one of the variables must not be narrowed. -/
  rigid : Prop
  /-- The new bound, given the common instances. -/
  target : Polytype → Polytype
  /-- Gives the variables their new bound. -/
  finish : Prefix → Polytype → Prefix

/-- Makes two variables with the given bounds one. -/
def Tie.merge (x y : String) (a b : Bound) : Tie where
  vars := [x, y]
  bounds := [a, b]
  actual := a.type
  expected := b.type
  rigid := a.kind = .rigid ∨ b.kind = .rigid
  target := id
  finish q t :=
    (q.merge x y ⟨if a.kind = .rigid ∨ b.kind = .rigid then .rigid else .flexible, t⟩).2

/-- Solves a variable with the given bound by a type. -/
def Tie.solve (x : String) (b : Bound) (t : Monotype) (swapped : Bool) : Tie where
  vars := [x]
  bounds := [b]
  actual := if swapped then t else b.type
  expected := if swapped then b.type else t
  rigid := b.kind = .rigid
  target _ := t
  finish q _ := q.update x ⟨b.kind, t⟩

/-- What is checked before the common instances of the two types are looked for: the variables are
not rigid ones without bounds, and neither type leads to one of them. -/
structure Tie.Begins (T : Tie) (p : Prefix) : Prop where
  movable : ¬ (T.actual = .bottom ∧ T.expected = .bottom ∧ ∀ b ∈ T.bounds, b.kind = .rigid)
  apart : p.Acyclic → ∀ x ∈ T.vars, p.occurs x T.actual = false ∧ p.occurs x T.expected = false

/-- Runs that tie variables. -/
inductive TieRun (R : Behavior) (p : Prefix) (T : Tie) : Outcome → Prop
  /-- Rigid variables without bounds do not match. -/
  | clash {q : Prefix} {d : Diagnostic} (hRigid : T.rigid)
    (hBottom : T.actual = .bottom ∧ T.expected = .bottom) (hQuiet : p.Quiet q) (hd : d.Plain)
    (hBounds : ∀ b ∈ T.bounds, b.kind = .rigid) : TieRun R p T (some (q, [d]))
  /-- One of the types leads to one of the variables. -/
  | cycle {q : Prefix} {d : Diagnostic} {x : String} (hx : x ∈ T.vars)
    (hOccurs : p.occurs x T.actual = true ∨ p.occurs x T.expected = true) (hQuiet : p.Quiet q)
    (hd : d.Plain) : TieRun R p T (some (q, [d]))
  | stuck (h : PolyRun R p T.actual T.expected none) (hBegins : T.Begins p) : TieRun R p T none
  /-- The types have no common instances. -/
  | failed {q : Prefix} {d : Diagnostic} {ds : List Diagnostic} {t : Polytype}
    (h : PolyRun R p T.actual T.expected (some (q, d :: ds, t))) (hBegins : T.Begins p) :
    TieRun R p T (some (q, d :: ds))
  /-- A rigid variable would be narrowed. -/
  | rigid {q q' : Prefix} {d : Diagnostic} {t : Polytype}
    (h : PolyRun R p T.actual T.expected (some (q, [], t))) (hRigid : T.rigid)
    (hDiffer : ∃ b ∈ T.bounds, b.kind = .rigid ∧
      (q.resolved (T.target t)).equivalent (q.resolved b.type) = false)
    (hQuiet : q.Quiet q') (hd : d.Plain) (hBegins : T.Begins p) : TieRun R p T (some (q', [d]))
  /-- The new bound leads to one of the variables. -/
  | knot {q q' : Prefix} {d : Diagnostic} {t : Polytype} {x : String}
    (h : PolyRun R p T.actual T.expected (some (q, [], t))) (hx : x ∈ T.vars)
    (hOccurs : q.occurs x (T.target t) = true) (hQuiet : q.Quiet q') (hd : d.Plain)
    (hBegins : T.Begins p) : TieRun R p T (some (q', [d]))
  | tied {q q' : Prefix} {t : Polytype} (hBegins : T.Begins p)
    (h : PolyRun R p T.actual T.expected (some (q, [], t))) (hQuiet : q.Quiet q')
    (hFree : ∀ x ∈ T.vars, q'.occurs x (T.target t) = false)
    (hSame : ∀ b ∈ T.bounds, b.kind = .rigid →
      (q'.resolved (T.target t)).equivalent (q'.resolved b.type) = true) :
    TieRun R p T (some (T.finish q' t, []))

/-- Runs of one step. -/
inductive StepRun (R : Behavior) (p : Prefix) (a e : Monotype) : Outcome → Prop
  /-- The types are seen to be the same, at once or by a look at their tops. -/
  | same {q : Prefix} (hTop : p.top a = p.top e) (hQuiet : p.Quiet q) :
    StepRun R p a e (some (q, []))
  | unbound {q : Prefix} {x : String} (hx : p.top a = .var x ∨ p.top e = .var x)
    (hUnbound : ¬ p.Binds x) (hQuiet : p.Quiet q) :
    StepRun R p a e (some (q, [.internal (.unboundVariable x)]))
  | merge {q : Prefix} {x y : String} {ex ey : Entry} {o : Outcome} (ha : p.top a = .var x)
    (he : p.top e = .var y) (hne : x ≠ y) (hQuiet : p.Quiet q) (hx : q.find? x = some ex)
    (hy : q.find? y = some ey) (h : TieRun R q (.merge x y ex.bound ey.bound) o) :
    StepRun R p a e o
  | solve {q : Prefix} {x : String} {t : Monotype} {ex : Entry} {swapped : Bool} {o : Outcome}
    (hTops : if swapped then p.top a = t ∧ p.top e = .var x else p.top a = .var x ∧ p.top e = t)
    (ht : ∀ y, t ≠ .var y) (hQuiet : p.Quiet q) (hx : q.find? x = some ex)
    (h : TieRun R q (.solve x ex.bound t swapped) o) : StepRun R p a e o
  /-- One type is a constant, and the other one is a different type that is no variable. -/
  | clash {q : Prefix} {d : Diagnostic} (hDiffer : ∀ r, (p.top a).eval r ≠ (p.top e).eval r)
    (hQuiet : p.Quiet q) (hd : d.Plain)
    (hConst : (∃ c, p.top a = .const c ∧ ∀ x, p.top e ≠ .var x) ∨
      ∃ c, p.top e = .const c ∧ ∀ x, p.top a ≠ .var x) : StepRun R p a e (some (q, [d]))
  | paramStuck {q : Prefix} {a₁ a₂ e₁ e₂ u v : Monotype} (ha : p.top a = .fn a₁ a₂)
    (he : p.top e = .fn e₁ e₂) (hQuiet : p.Quiet q)
    (hPair : (u = a₁ ∧ v = e₁) ∨ (u = e₁ ∧ v = a₁)) (h : R q u v none) : StepRun R p a e none
  | bodyStuck {q q₁ : Prefix} {ds : List Diagnostic} {a₁ a₂ e₁ e₂ u v : Monotype}
    (ha : p.top a = .fn a₁ a₂) (he : p.top e = .fn e₁ e₂) (hQuiet : p.Quiet q)
    (hPair : (u = a₁ ∧ v = e₁) ∨ (u = e₁ ∧ v = a₁)) (h : R q u v (some (q₁, ds)))
    (h' : R q₁ a₂ e₂ none) : StepRun R p a e none
  | fn {q q₁ q₂ : Prefix} {ds ds' : List Diagnostic} {a₁ a₂ e₁ e₂ u v : Monotype}
    (ha : p.top a = .fn a₁ a₂) (he : p.top e = .fn e₁ e₂) (hQuiet : p.Quiet q)
    (hPair : (u = a₁ ∧ v = e₁) ∨ (u = e₁ ∧ v = a₁)) (h : R q u v (some (q₁, ds)))
    (h' : R q₁ a₂ e₂ (some (q₂, ds'))) : StepRun R p a e (some (q₂, ds ++ ds'))

/-- Runs with a bound on the depth of the recursion. -/
def Run : (fuel : Nat) → Behavior
  | 0 => fun _ _ _ o => o = none
  | n + 1 => StepRun (Run n)

/-! ## Every run is one of the relation -/

/-- What a computation returns that leaves an outcome behind; `lost` are its reports in case that it
runs out of fuel. -/
def Outcome.result (s : Session) (lost : List Diagnostic) : Outcome → Except Halt (Verdict × Session)
  | none => .error (.outOfFuel (lost.foldl .report s.sink))
  | some (q, ds) => .ok (ds.head?, ⟨q, ds.foldl .report s.sink⟩)

/-- A way to unify types stays within a behavior. -/
def Follows (R : Behavior) (unify : Unifier) : Prop :=
  ∀ a e call s, ∃ o lost, R s.vars a e o ∧ unify a e call s = Outcome.result s lost o

theorem instantiate_apply (t : Polytype) (s : Session) :
    instantiate t s = .ok ((s.vars.opened t).1, ⟨(s.vars.opened t).2, s.sink⟩) := by
  unfold instantiate Prefix.opened
  rcases hSplit : t.normal.split with ⟨bs, body⟩
  cases body with
  | mono m => rfl
  | bottom => rfl
  | all x k b t => rfl

theorem mismatch_apply (a e : Polytype) (s : Session) :
    ∃ q d, s.vars.Quiet q ∧ d.Plain ∧ mismatch a e s = .ok (some d, ⟨q, s.sink.report d⟩) := by
  refine ⟨_, _, (Prefix.quiet_resolve _ _).trans (Prefix.quiet_resolve _ _), ?_, rfl⟩
  exact nofun

theorem infinite_apply (x : String) (t : Polytype) (s : Session) :
    ∃ q d, s.vars.Quiet q ∧ d.Plain ∧ infinite x t s = .ok (some d, ⟨q, s.sink.report d⟩) := by
  refine ⟨_, _, Prefix.quiet_resolve _ _, ?_, rfl⟩
  exact nofun

theorem unbound_apply (x : String) (s : Session) :
    ∃ q, s.vars.Quiet q ∧ unbound x s = .ok (some (.internal (.unboundVariable x)),
      ⟨q, s.sink.report (.internal (.unboundVariable x))⟩) :=
  ⟨_, Prefix.quiet_note _ _, rfl⟩

theorem violates_apply (b : Bound) (t : Polytype) (s : Session) :
    ∃ q v, s.vars.Quiet q ∧
      (v = true → b.kind = .rigid ∧
        (s.vars.resolved t).equivalent (s.vars.resolved b.type) = false) ∧
      (v = false → b.kind = .rigid →
        (s.vars.resolved t).equivalent (s.vars.resolved b.type) = true) ∧
      violates b t s = .ok (v, ⟨q, s.sink⟩) := by
  unfold violates
  by_cases hKind : b.kind = .rigid
  · have hQuiet := Prefix.quiet_resolve s.vars t
    -- replacing solved variables in one type does not change those in the other
    rw [if_pos hKind, ← hQuiet.resolved b.type]
    refine ⟨_, _, hQuiet.trans (Prefix.quiet_resolve _ b.type), fun hv => ⟨hKind, ?_⟩,
      fun hv _ => ?_, rfl⟩
    · exact (Bool.not_eq_true' _).mp hv
    · exact (Bool.not_eq_false' _).mp hv
  · rw [if_neg hKind]
    exact ⟨s.vars, false, .refl _, nofun, fun _ h => absurd h hKind, rfl⟩

/-- What a computation on types with quantifiers returns. -/
def polyResult (s : Session) (lost : List Diagnostic) :
    Option (Prefix × List Diagnostic × Polytype) → Except Halt ((Polytype × Verdict) × Session)
  | none => .error (.outOfFuel (lost.foldl .report s.sink))
  | some (q, ds, t) => .ok ((t, ds.head?), ⟨q, ds.foldl .report s.sink⟩)

/-- Two types other than the one without bounds, not both of them monotypes: instances of them are
unified at a level of their own, and the first is generalized before the level is left. -/
theorem unifyPoly_opened {R : Behavior} (h : Follows R unify) {a e : Polytype} (ha : a ≠ .bottom)
    (he : e ≠ .bottom) (call : Bool) (s : Session) :
    ∃ o lost, PolyRun R s.vars a e o ∧
      (atLevel do
        let a ← instantiate a
        let e ← instantiate e
        let verdict ← unify a e call
        return (← onVars (·.generalize a), verdict)) s = polyResult s lost o := by
  -- both types are opened at the same new level, the second after the first
  let p := s.vars.enter
  obtain ⟨o, lost, hRun, hResult⟩ := h (p.opened a).1 ((p.opened a).2.opened e).1 call
    ⟨((p.opened a).2.opened e).2, s.sink⟩
  cases o with
  | none =>
    refine ⟨none, lost, .openedStuck ha he hRun, atLevel_of_error ?_⟩
    rw [bind_of_ok (instantiate_apply a _), bind_of_ok (instantiate_apply e _)]
    exact bind_of_error hResult
  | some out =>
    obtain ⟨q, ds⟩ := out
    refine ⟨_, [], .opened ha he hRun, ?_⟩
    refine atLevel_of_ok (show _ = Except.ok (_, ⟨(q.generalize (p.opened a).1).2, _⟩) from ?_)
    rw [bind_of_ok (instantiate_apply a _), bind_of_ok (instantiate_apply e _)]
    rw [bind_of_ok hResult]
    rfl

/-- A run on types with quantifiers is one of the relation, if runs on their instances are. -/
theorem unifyPoly_follows {R : Behavior} (h : Follows R unify) (a e : Polytype) (call : Bool)
    (s : Session) :
    ∃ o lost, PolyRun R s.vars a e o ∧ unifyPoly unify a e call s = polyResult s lost o := by
  cases a with
  | bottom => exact ⟨_, [], .left e, rfl⟩
  | mono a =>
    cases e with
    | bottom => exact ⟨_, [], .right _, rfl⟩
    | mono e =>
      -- no quantifier on either side, so no level is entered
      obtain ⟨o, lost, hRun, hResult⟩ := h a e call s
      cases o with
      | none => exact ⟨none, lost, .monoStuck hRun, bind_of_error hResult⟩
      | some out => exact ⟨_, [], .mono hRun, bind_of_ok hResult⟩
    | all x k b t => exact unifyPoly_opened h (a := .mono a) (e := .all x k b t) nofun nofun call s
  | all x k b t =>
    cases e with
    | bottom => exact ⟨_, [], .right _, rfl⟩
    | mono e => exact unifyPoly_opened h (a := .all x k b t) (e := .mono e) nofun nofun call s
    | all y l c u =>
      exact unifyPoly_opened h (a := .all x k b t) (e := .all y l c u) nofun nofun call s

theorem violates_or_apply (a b : Bound) (t : Polytype) (s : Session) :
    ∃ q v, s.vars.Quiet q ∧
      (v = true → ∃ c ∈ [a, b], c.kind = .rigid ∧
        (s.vars.resolved t).equivalent (s.vars.resolved c.type) = false) ∧
      (v = false → ∀ c ∈ [a, b], c.kind = .rigid →
        (s.vars.resolved t).equivalent (s.vars.resolved c.type) = true) ∧
      (violates a t <||> violates b t) s = .ok (v, ⟨q, s.sink⟩) := by
  obtain ⟨q, v, hQuiet, hv, hSame, hEq⟩ := violates_apply a t s
  cases v with
  | true =>
    exact ⟨q, true, hQuiet, fun h => ⟨a, by simp, hv h⟩, nofun, (bind_of_ok hEq).trans rfl⟩
  | false =>
    obtain ⟨q', v', hQuiet', hv', hSame', hEq'⟩ := violates_apply b t ⟨q, s.sink⟩
    -- the second comparison starts from what the first one noted, which changes no type
    simp only [hQuiet.resolved] at hv' hSame'
    refine ⟨q', v', hQuiet.trans hQuiet', fun h => ⟨b, by simp, hv' h⟩, fun h => ?_,
      (bind_of_ok hEq).trans hEq'⟩
    simpa using ⟨hSame rfl, hSame' h⟩

theorem not_occurs_self (h : p.Acyclic) {e : Entry} (he : p.find? x = some e) :
    p.occurs x e.bound.type = false := by
  rw [Bool.eq_false_iff]
  intro hOccurs
  obtain ⟨y, hy, hyx⟩ := Prefix.occurs_iff.1 hOccurs
  exact h.not_reaches ⟨e, he, hy⟩ hyx

/-- Two variables whose bounds do not lead to the other one. Without cycles, none leads to its own.
-/
theorem Tie.merge_begins {ey : Entry} (hx : p.find? x = some ex) (hy : p.find? y = some ey)
    (hClash : ¬ (ex.bound = ⟨.rigid, .bottom⟩ ∧ ey.bound = ⟨.rigid, .bottom⟩))
    (hOccurs : p.occurs x ey.bound.type = false) (hOccurs' : p.occurs y ex.bound.type = false) :
    (Tie.merge x y ex.bound ey.bound).Begins p := by
  have hEq {b : Bound} (hKind : b.kind = .rigid) (hType : b.type = .bottom) :
      b = ⟨.rigid, .bottom⟩ := by rw [← hKind, ← hType]
  refine ⟨fun ⟨hActual, hExpected, hRigid⟩ => hClash ⟨?_, ?_⟩, fun hAcyclic => ?_⟩
  · exact hEq (hRigid ex.bound (by simp [Tie.merge])) hActual
  · exact hEq (hRigid ey.bound (by simp [Tie.merge])) hExpected
  · simp only [Tie.merge, List.mem_cons, List.not_mem_nil, or_false, forall_eq_or_imp, forall_eq]
    exact ⟨⟨not_occurs_self hAcyclic hx, hOccurs⟩, hOccurs', not_occurs_self hAcyclic hy⟩

/-- A variable that the type does not lead to. -/
theorem Tie.solve_begins {t : Monotype} (swapped : Bool) (hx : p.find? x = some ex)
    (hOccurs : p.occurs x t = false) : (Tie.solve x ex.bound t swapped).Begins p := by
  refine ⟨fun ⟨hActual, hExpected, _⟩ => ?_, fun hAcyclic => ?_⟩
  · -- one of the types is a monotype
    cases swapped with
    | true => cases hActual
    | false => cases hExpected
  · have hSelf := not_occurs_self hAcyclic hx
    simp only [Tie.solve, List.mem_cons, List.not_mem_nil, or_false, forall_eq]
    cases swapped with
    | true => exact ⟨hOccurs, hSelf⟩
    | false => exact ⟨hSelf, hOccurs⟩

theorem TieRun.cycle_follows {R : Behavior} {T : Tie} (hx : x ∈ T.vars)
    (hOccurs : s.vars.occurs x T.actual = true ∨ s.vars.occurs x T.expected = true) (t : Polytype) :
    ∃ o lost, TieRun R s.vars T o ∧ infinite x t s = Outcome.result s lost o := by
  obtain ⟨q, d, hQuiet, hd, hEq⟩ := infinite_apply x t s
  exact ⟨_, [], .cycle hx hOccurs hQuiet hd, hEq⟩

section Ending

variable {R : Behavior} {T : Tie} {s : Session} {q q' : Prefix} {u : Polytype}
  (hPoly : PolyRun R s.vars T.actual T.expected (some (q, [], u))) (hBegins : T.Begins s.vars)
  (hQuiet : q.Quiet q')

include hPoly hBegins hQuiet

theorem TieRun.rigid_follows (hRigid : T.rigid) (hDiffer : ∃ b ∈ T.bounds, b.kind = .rigid ∧
      (q.resolved (T.target u)).equivalent (q.resolved b.type) = false) (a e : Polytype) :
    ∃ o lost, TieRun R s.vars T o ∧ mismatch a e ⟨q', s.sink⟩ = Outcome.result s lost o := by
  obtain ⟨q'', d, hQuiet', hd, hEq⟩ := mismatch_apply a e ⟨q', s.sink⟩
  exact ⟨_, [], .rigid hPoly hRigid hDiffer (hQuiet.trans hQuiet') hd hBegins, hEq⟩

theorem TieRun.knot_follows (hx : x ∈ T.vars) (hKnot : q'.occurs x (T.target u) = true) :
    ∃ o lost, TieRun R s.vars T o ∧
      infinite x (T.target u) ⟨q', s.sink⟩ = Outcome.result s lost o := by
  obtain ⟨q'', d, hQuiet', hd, hEq⟩ := infinite_apply x (T.target u) ⟨q', s.sink⟩
  rw [hQuiet.occurs] at hKnot
  exact ⟨_, [], .knot hPoly hx hKnot (hQuiet.trans hQuiet') hd hBegins, hEq⟩

end Ending

/-- A run that makes two variables one is one of the relation: it is refused by the first checks, or
it goes by the run on the two bounds and is then refused by the last checks or ties the variables.
-/
theorem mergeVars_follows {R : Behavior} (h : Follows R unify) (call : Bool) {ey : Entry}
    (hx : s.vars.find? x = some ex) (hy : s.vars.find? y = some ey) :
    ∃ o lost, TieRun R s.vars (.merge x y ex.bound ey.bound) o ∧
      mergeVars unify x y call s = Outcome.result s lost o := by
  have hxMem : x ∈ (Tie.merge x y ex.bound ey.bound).vars := by simp [Tie.merge]
  have hyMem : y ∈ (Tie.merge x y ex.bound ey.bound).vars := by simp [Tie.merge]
  unfold mergeVars
  simp only [perform_solve]
  rw [bind_of_ok (vars_apply s)]
  simp only [hx, hy]
  -- two rigid variables that may be anything are different
  by_cases hClash : ex.bound = ⟨.rigid, .bottom⟩ ∧ ey.bound = ⟨.rigid, .bottom⟩
  · rw [if_pos hClash]
    obtain ⟨q, d, hQuiet, hd, hEq⟩ := mismatch_apply (.mono (.var x)) (.mono (.var y)) s
    have hBottom : ex.bound.type = .bottom ∧ ey.bound.type = .bottom := by
      rw [hClash.1, hClash.2]
      exact ⟨rfl, rfl⟩
    exact ⟨_, [], .clash (Or.inl (by rw [hClash.1])) hBottom hQuiet hd (by simp [Tie.merge, hClash]),
      hEq⟩
  rw [if_neg hClash]
  -- neither bound may lead to the other variable
  by_cases hOccurs : s.vars.occurs x ey.bound.type = true
  · rw [if_pos hOccurs]
    exact TieRun.cycle_follows hxMem (Or.inr hOccurs) _
  rw [if_neg hOccurs]
  by_cases hOccurs' : s.vars.occurs y ex.bound.type = true
  · rw [if_pos hOccurs']
    exact TieRun.cycle_follows hyMem (Or.inl hOccurs') _
  rw [if_neg hOccurs']
  have hBegins := Tie.merge_begins hx hy hClash (Bool.eq_false_iff.2 hOccurs)
    (Bool.eq_false_iff.2 hOccurs')
  -- what follows depends on how the run on the two bounds ends
  obtain ⟨o, lost, hPoly, hResult⟩ := unifyPoly_follows h ex.bound.type ey.bound.type call s
  rcases o with _ | ⟨q, _ | ⟨d, ds⟩, t⟩
  · exact ⟨none, lost, .stuck hPoly hBegins, bind_of_error hResult⟩
  · rw [bind_of_ok hResult]
    show ∃ o lost, _ ∧ ((violates ex.bound t <||> violates ey.bound t) >>= _) ⟨q, s.sink⟩ = _
    obtain ⟨q', v, hQuiet, hv, hSame, hEq⟩ := violates_or_apply ex.bound ey.bound t ⟨q, s.sink⟩
    rw [bind_of_ok hEq]
    cases v with
    | true =>
      rw [if_pos rfl]
      have hRigid : ex.bound.kind = .rigid ∨ ey.bound.kind = .rigid := by
        obtain ⟨b, hb, hKind, -⟩ := hv rfl
        simp only [List.mem_cons, List.not_mem_nil, or_false] at hb
        rcases hb with rfl | rfl
        · exact Or.inl hKind
        · exact Or.inr hKind
      exact TieRun.rigid_follows hPoly hBegins hQuiet hRigid (hv rfl) _ _
    | false =>
      rw [if_neg Bool.false_ne_true, bind_of_ok (vars_apply _)]
      dsimp only
      -- narrowing the bounds may have made them lead to the variables
      by_cases hKnot : q'.occurs x t = true
      · rw [if_pos hKnot]
        exact TieRun.knot_follows hPoly hBegins hQuiet hxMem hKnot
      rw [if_neg hKnot]
      by_cases hKnot' : q'.occurs y t = true
      · rw [if_pos hKnot']
        exact TieRun.knot_follows hPoly hBegins hQuiet hyMem hKnot'
      rw [if_neg hKnot']
      refine ⟨_, [], .tied hBegins hPoly hQuiet ?_ ?_, rfl⟩
      · simp only [Tie.merge, List.mem_cons, List.not_mem_nil, or_false, forall_eq_or_imp, forall_eq]
        exact ⟨Bool.eq_false_iff.2 hKnot, Bool.eq_false_iff.2 hKnot'⟩
      · simpa only [Tie.merge, id, hQuiet.resolved] using hSame rfl
  · rw [bind_of_ok hResult]
    exact ⟨_, [], .failed hPoly hBegins, rfl⟩

/-- A run that solves a variable is one of the relation, with the same course: the first check, the
run on the bound and the type, and the last checks. -/
theorem solveVar_follows {R : Behavior} (h : Follows R unify) (t : Monotype) (swapped call : Bool)
    (hx : s.vars.find? x = some ex) :
    ∃ o lost, TieRun R s.vars (.solve x ex.bound t swapped) o ∧
      solveVar unify x t swapped call s = Outcome.result s lost o := by
  have hxMem : x ∈ (Tie.solve x ex.bound t swapped).vars := by simp [Tie.solve]
  unfold solveVar
  simp only [perform_solve]
  rw [bind_of_ok (vars_apply s)]
  simp only [hx]
  -- a type that leads to the variable would be infinite
  by_cases hOccurs : s.vars.occurs x t = true
  · rw [if_pos hOccurs]
    refine TieRun.cycle_follows hxMem ?_ _
    cases swapped with
    | true => exact Or.inl hOccurs
    | false => exact Or.inr hOccurs
  rw [if_neg hOccurs]
  -- the two orders of the types differ only in the wording of a mismatch
  let T := Tie.solve x ex.bound t swapped
  have hBegins : T.Begins s.vars := Tie.solve_begins swapped hx (Bool.eq_false_iff.2 hOccurs)
  obtain ⟨o, lost, hPoly, hResult⟩ := unifyPoly_follows h T.actual T.expected call s
  have hSwap (next : Polytype × Verdict → Solve Verdict) :
      (if swapped = true then unifyPoly unify t ex.bound.type call >>= next
        else unifyPoly unify ex.bound.type t call >>= next) =
      unifyPoly unify T.actual T.expected call >>= next := by
    cases swapped <;> rfl
  rw [hSwap]
  rcases o with _ | ⟨q, _ | ⟨d, ds⟩, u⟩
  · exact ⟨none, lost, .stuck hPoly hBegins, bind_of_error hResult⟩
  · rw [bind_of_ok hResult]
    show ∃ o lost, _ ∧ (violates ex.bound t >>= _) ⟨q, s.sink⟩ = _
    -- a rigid variable must have stood for the type before
    obtain ⟨q', v, hQuiet, hv, hSame, hEq⟩ := violates_apply ex.bound t ⟨q, s.sink⟩
    rw [bind_of_ok hEq]
    cases v with
    | true =>
      rw [if_pos rfl]
      obtain ⟨o, lost, hTie, hEq'⟩ := TieRun.rigid_follows hPoly hBegins hQuiet (hv rfl).1
        ⟨ex.bound, by simp [T, Tie.solve], hv rfl⟩ T.actual T.expected
      refine ⟨o, lost, hTie, Eq.trans ?_ hEq'⟩
      cases swapped <;> rfl
    | false =>
      rw [if_neg Bool.false_ne_true, bind_of_ok (vars_apply _)]
      dsimp only
      by_cases hKnot : q'.occurs x t = true
      · rw [if_pos hKnot]
        exact TieRun.knot_follows hPoly hBegins hQuiet hxMem hKnot
      rw [if_neg hKnot]
      refine ⟨_, [], .tied hBegins hPoly hQuiet ?_ ?_, rfl⟩
      · simp only [Tie.solve, List.mem_cons, List.not_mem_nil, or_false, forall_eq]
        exact Bool.eq_false_iff.2 hKnot
      · simpa only [Tie.solve, List.mem_singleton, forall_eq, hQuiet.resolved] using hSame rfl
  · rw [bind_of_ok hResult]
    exact ⟨_, [], .failed hPoly hBegins, rfl⟩

theorem mergeVars_unbound_left {call : Bool} (hx : s.vars.find? x = none) :
    mergeVars unify x y call s = unbound x s := by
  unfold mergeVars
  simp only [perform_solve]
  rw [bind_of_ok (vars_apply s)]
  simp only [hx]

theorem mergeVars_unbound_right {call : Bool} (hx : s.vars.find? x = some ex)
    (hy : s.vars.find? y = none) : mergeVars unify x y call s = unbound y s := by
  unfold mergeVars
  simp only [perform_solve]
  rw [bind_of_ok (vars_apply s)]
  simp only [hx, hy]

theorem solveVar_unbound {t : Monotype} {swapped call : Bool} (hx : s.vars.find? x = none) :
    solveVar unify x t swapped call s = unbound x s := by
  unfold solveVar
  simp only [perform_solve]
  rw [bind_of_ok (vars_apply s)]
  simp only [hx]

/-- A step on two variables makes them one, or reports that one of them is not in play. -/
theorem merge_or_unbound {R : Behavior} (h : Follows R unify) (ha : p.top a = .var x)
    (he : p.top e = .var y) (hne : x ≠ y) (call : Bool) (hQuiet : p.Quiet s.vars) :
    ∃ o lost, StepRun R p a e o ∧ mergeVars unify x y call s = Outcome.result s lost o := by
  cases hx : s.vars.find? x with
  | none =>
    obtain ⟨q, hQuiet', hEq⟩ := unbound_apply x s
    refine ⟨_, [], .unbound (Or.inl ha) ?_ (hQuiet.trans hQuiet'),
      (mergeVars_unbound_left hx).trans hEq⟩
    -- what is not in play now was not in play before either
    rw [← hQuiet.binds, Prefix.Binds, hx]
    simp
  | some ex =>
    cases hy : s.vars.find? y with
    | none =>
      obtain ⟨q, hQuiet', hEq⟩ := unbound_apply y s
      refine ⟨_, [], .unbound (Or.inr he) ?_ (hQuiet.trans hQuiet'),
        (mergeVars_unbound_right hx hy).trans hEq⟩
      rw [← hQuiet.binds, Prefix.Binds, hy]
      simp
    | some ey =>
      obtain ⟨o, lost, hTie, hEq⟩ := mergeVars_follows h call hx hy
      exact ⟨o, lost, .merge ha he hne hQuiet hx hy hTie, hEq⟩

theorem solve_or_unbound {R : Behavior} (h : Follows R unify) {t : Monotype} (swapped : Bool)
    (hTops : if swapped then p.top a = t ∧ p.top e = .var x else p.top a = .var x ∧ p.top e = t)
    (ht : ∀ y, t ≠ .var y) (call : Bool) (hQuiet : p.Quiet s.vars) :
    ∃ o lost, StepRun R p a e o ∧ solveVar unify x t swapped call s = Outcome.result s lost o := by
  cases hx : s.vars.find? x with
  | none =>
    have hVar : p.top a = .var x ∨ p.top e = .var x := by
      cases swapped with
      | true => exact Or.inr hTops.2
      | false => exact Or.inl hTops.1
    obtain ⟨q, hQuiet', hEq⟩ := unbound_apply x s
    refine ⟨_, [], .unbound hVar ?_ (hQuiet.trans hQuiet'), (solveVar_unbound hx).trans hEq⟩
    rw [← hQuiet.binds, Prefix.Binds, hx]
    simp
  | some ex =>
    obtain ⟨o, lost, hTie, hEq⟩ := solveVar_follows h t swapped call hx
    exact ⟨o, lost, .solve hTops ht hQuiet hx hTie, hEq⟩

theorem parts_follow {R : Behavior} (h : Follows R unify) {a₁ a₂ e₁ e₂ u v : Monotype}
    (ha : p.top a = .fn a₁ a₂) (he : p.top e = .fn e₁ e₂)
    (hPair : (u = a₁ ∧ v = e₁) ∨ (u = e₁ ∧ v = a₁)) (hQuiet : p.Quiet s.vars) :
    ∃ o lost, StepRun R p a e o ∧
      (do
        let verdict ← unify u v false
        return verdict.or (← unify a₂ e₂ false)) s = Outcome.result s lost o := by
  obtain ⟨o, lost, hRun, hEq⟩ := h u v false s
  -- out of fuel in the parameters, in the bodies, or not at all
  rcases o with _ | ⟨q, ds⟩
  · exact ⟨none, lost, .paramStuck ha he hQuiet hPair hRun, bind_of_error hEq⟩
  · obtain ⟨o', lost', hRun', hEq'⟩ := h a₂ e₂ false ⟨q, ds.foldl .report s.sink⟩
    rw [bind_of_ok hEq]
    rcases o' with _ | ⟨q', ds'⟩
    · refine ⟨none, ds ++ lost', .bodyStuck ha he hQuiet hPair hRun hRun', ?_⟩
      rw [bind_of_error hEq', Outcome.result, List.foldl_append]
    · refine ⟨_, [], .fn ha he hQuiet hPair hRun hRun', (bind_of_ok hEq').trans ?_⟩
      simp only [Outcome.result, List.head?_append, List.foldl_append]
      rfl

/-- What is left of the variables in play once two types are followed to their tops. -/
def followed (p : Prefix) (a e : Monotype) : Prefix :=
  ((p.resolveTop a).2.resolveTop e).2.note (.unify (p.top a) (p.top e))

theorem quiet_followed (p : Prefix) (a e : Monotype) : p.Quiet (followed p a e) :=
  ((Prefix.quiet_resolveTop p a).trans (Prefix.quiet_resolveTop _ e)).trans (Prefix.quiet_note _ _)

/-- What a step does with the tops of two types. -/
def meet (unify : Unifier) (a e : Monotype) (call : Bool) : Solve Verdict := do
  match a, e with
  | .var x, .var y => if x = y then return none else mergeVars unify x y call
  | .var x, t => solveVar unify x t false call
  | t, .var y => solveVar unify y t true call
  | .const c, .const d => if c = d then return none else mismatch (.mono a) (.mono e)
  | .fn p b, .fn q c =>
    let verdict ← if call then unify q p false else unify p q false
    return verdict.or (← unify b c false)
  | _, _ => mismatch (.mono a) (.mono e)

/-- A step follows the two types to their tops, keeps books and goes on with the tops, if these are
not seen to be the same. -/
theorem stepUpTo_apply (same : Prefix → Monotype → Monotype → Bool) (unify : Unifier)
    (a e : Monotype) (call : Bool) (s : Session) :
    stepUpTo same unify a e call s =
      if same (followed s.vars a e) a e = true ∧ s.vars.top a = s.vars.top e then
        .ok (none, ⟨followed s.vars a e, s.sink⟩)
      else meet unify (s.vars.top a) (s.vars.top e) call ⟨followed s.vars a e, s.sink⟩ := by
  -- following one type to its top does not change the top of the other
  have hTop : ((s.vars.resolveTop a).2.resolveTop e).1 = s.vars.top e := by
    rw [Prefix.resolveTop_fst, (Prefix.quiet_resolveTop s.vars a).top]
  unfold stepUpTo
  simp only [perform_solve]
  rw [bind_of_ok (onVars_apply _ s), bind_of_ok (onVars_apply _ _), bind_of_ok (note_apply _ _),
    bind_of_ok (vars_apply _)]
  dsimp only
  rw [hTop, Prefix.resolveTop_fst, ← followed, apply_ite fun act : Solve Verdict => act _]
  rfl

/-- A step on types with different variables as their tops makes these one. -/
theorem step_of_vars (ha : s.vars.top a = .var x) (he : s.vars.top e = .var y) (hne : x ≠ y)
    (unify : Unifier) (call : Bool) :
    step unify a e call s = mergeVars unify x y call ⟨followed s.vars a e, s.sink⟩ := by
  rw [step, stepUpTo_apply, ha, he, if_neg fun hSame => hne (Monotype.var.inj hSame.2), meet,
    if_neg hne]

/-- A step on types with the same variable as their tops only keeps books. -/
theorem step_of_var (ha : s.vars.top a = .var x) (he : s.vars.top e = .var x) (unify : Unifier)
    (call : Bool) : step unify a e call s = .ok (none, ⟨followed s.vars a e, s.sink⟩) := by
  rw [step, stepUpTo_apply, ha, he, meet, if_pos rfl]
  exact ite_self _

/-- A step on types with the same constant as their tops only keeps books. -/
theorem step_of_const {c : BaseType} (ha : s.vars.top a = .const c) (he : s.vars.top e = .const c)
    (unify : Unifier) (call : Bool) :
    step unify a e call s = .ok (none, ⟨followed s.vars a e, s.sink⟩) := by
  rw [step, stepUpTo_apply, ha, he, meet, if_pos rfl]
  exact ite_self _

/-- A step is one of the relation, if runs on parts are, whichever types it sees to be the same at
once. -/
theorem step_follows {R : Behavior} (h : Follows R unify)
    (same : Prefix → Monotype → Monotype → Bool) : Follows (StepRun R) (stepUpTo same unify) := by
  intro a e call s
  rw [stepUpTo_apply]
  have hQuiet := quiet_followed s.vars a e
  generalize followed s.vars a e = q at hQuiet ⊢
  by_cases hSame : same q a e = true ∧ s.vars.top a = s.vars.top e
  · rw [if_pos hSame]
    exact ⟨some (q, []), [], .same hSame.2 hQuiet, rfl⟩
  rw [if_neg hSame]
  -- two tops that differ at once
  have hMismatch (hDiffer : ∀ r, (s.vars.top a).eval r ≠ (s.vars.top e).eval r)
      (hConst : (∃ c, s.vars.top a = .const c ∧ ∀ x, s.vars.top e ≠ .var x) ∨
        ∃ c, s.vars.top e = .const c ∧ ∀ x, s.vars.top a ≠ .var x) :
      ∃ o lost, StepRun R s.vars a e o ∧ mismatch (.mono (s.vars.top a)) (.mono (s.vars.top e))
        ⟨q, s.sink⟩ = Outcome.result s lost o := by
    obtain ⟨q', d, hQuiet', hd, hEq⟩ :=
      mismatch_apply (.mono (s.vars.top a)) (.mono (s.vars.top e)) ⟨q, s.sink⟩
    exact ⟨_, [], .clash hDiffer (hQuiet.trans hQuiet') hd hConst, hEq⟩
  cases ha : s.vars.top a with
  | var x =>
    cases he : s.vars.top e with
    | var y =>
      simp only [meet]
      split_ifs with hxy
      · exact ⟨some (q, []), [], .same (by rw [ha, he, hxy]) hQuiet, rfl⟩
      · exact merge_or_unbound h ha he hxy call (s := ⟨q, s.sink⟩) hQuiet
    | const c =>
      exact solve_or_unbound h false ⟨ha, he⟩ nofun call (s := ⟨q, s.sink⟩) hQuiet
    | fn e₁ e₂ =>
      exact solve_or_unbound h false ⟨ha, he⟩ nofun call (s := ⟨q, s.sink⟩) hQuiet
  | const c =>
    cases he : s.vars.top e with
    | var y =>
      exact solve_or_unbound h true ⟨ha, he⟩ nofun call (s := ⟨q, s.sink⟩) hQuiet
    | const d =>
      simp only [meet]
      split_ifs with hcd
      · exact ⟨some (q, []), [], .same (by rw [ha, he, hcd]) hQuiet, rfl⟩
      · rw [ha, he] at hMismatch
        exact hMismatch (fun r => by simpa [Monotype.eval] using hcd) (Or.inl ⟨c, rfl, nofun⟩)
    | fn e₁ e₂ =>
      rw [ha, he] at hMismatch
      exact hMismatch (fun r => by simp [Monotype.eval]) (Or.inl ⟨c, rfl, nofun⟩)
  | fn a₁ a₂ =>
    cases he : s.vars.top e with
    | var y =>
      exact solve_or_unbound h true ⟨ha, he⟩ nofun call (s := ⟨q, s.sink⟩) hQuiet
    | const d =>
      rw [ha, he] at hMismatch
      exact hMismatch (fun r => by simp [Monotype.eval]) (Or.inr ⟨d, rfl, nofun⟩)
    | fn e₁ e₂ =>
      cases call with
      | true => exact parts_follow h ha he (Or.inr ⟨rfl, rfl⟩) (s := ⟨q, s.sink⟩) hQuiet
      | false => exact parts_follow h ha he (Or.inl ⟨rfl, rfl⟩) (s := ⟨q, s.sink⟩) hQuiet

/-- Every run of unification is a run of the relation, whichever types it sees to be the same. -/
theorem withinUpTo_follows (same : Prefix → Monotype → Monotype → Bool) (fuel : Nat) :
    Follows (Run fuel) (withinUpTo same fuel) := by
  induction fuel with
  | zero => exact fun _ _ _ s => ⟨none, [], rfl, giveUp_apply s⟩
  | succ n ih => exact step_follows ih same

theorem within_follows (fuel : Nat) : Follows (Run fuel) (within fuel) :=
  withinUpTo_follows Prefix.shares fuel

/-- A run that ends gives its reports to the sink, and the first of them is its verdict. -/
theorem run_of_within_ok {fuel : Nat} {call : Bool} {s' : Session} {verdict : Verdict}
    (h : within fuel a e call s = .ok (verdict, s')) :
    ∃ ds, Run fuel s.vars a e (some (s'.vars, ds)) ∧ verdict = ds.head? ∧
      s'.sink = ds.foldl .report s.sink := by
  obtain ⟨o, lost, hRun, hResult⟩ := within_follows fuel a e call s
  rw [h] at hResult
  rcases o with _ | ⟨q, ds⟩
  · cases hResult
  · obtain ⟨rfl, rfl⟩ : verdict = ds.head? ∧ s' = ⟨q, ds.foldl .report s.sink⟩ := by
      simpa [Outcome.result] using hResult
    exact ⟨ds, hRun, rfl, rfl⟩

end Unify

end Mlf
