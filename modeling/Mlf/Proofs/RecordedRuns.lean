import Mlf.Proofs.Histories
import Mlf.Proofs.RunCopies

/-!
# Recorded runs

A recorded run does what a run does and keeps a history of the variables in play on the side: every
part adds the state that it leaves behind. It is given by the definitions of unification and
inference themselves, with another account of what it is to do a part. The nodes of a recorded tree
are dated. Each keeps the types that it has had, with the times when it got them.

A recorded run is a run, as far as it is seen without its history, and so every run can be recorded.
What it does to the history is a passage: levels are left as they were entered, so what a part of a
program makes up comes and goes while all that was there stays. A written name is born once at most
for each annotation that mentions it and does not stand inside of another one that does.

Main results:

* `Recorded.Records` — a recorded part of a run, the part itself and the passage that it makes;
* `Unify.within_records` — unification;
* `Infer.expr_records` — inference.
-/

namespace Mlf

open Solve

/-- A part of a run that keeps a history. -/
abbrev Recorded := StateT History Solve

/-- The type of a node while inference goes on, with all types that it has had and the times when it
got them, the latest first. -/
structure Dated where
  stamp : Stamp
  past : List (Nat × Polytype)

namespace Dated

/-- A type that is pending if it has free variables. -/
def of (now : Nat) (t : Polytype) : Dated := ⟨.of t, [(now, t)]⟩

/-- A type that is known for good. -/
def settled (now : Nat) (t : Polytype) : Dated := ⟨.settled t, [(now, t)]⟩

/-- The type of a node as the current level is left. -/
def settle (p : Prefix) (now : Nat) (d : Dated) : Dated :=
  if d.stamp.pending then ⟨p.settle d.stamp, (now, p.resolved d.stamp.type) :: d.past⟩ else d

theorem stamp_settle (p : Prefix) (now : Nat) (d : Dated) :
    (d.settle p now).stamp = p.settle d.stamp := by
  unfold settle Prefix.settle
  split_ifs <;> rfl

end Dated

namespace Recorded

variable {α β γ δ : Type}

/-- Does a part of a run, and records the state that it leaves behind. -/
def act (part : Solve α) : Recorded α := fun h => do
  let a ← part
  return (a, (← get).vars :: h)

/-- The variables in play. -/
def vars : Recorded Prefix := fun h => return ((← get).vars, h)

/-- The time of the latest state. -/
def now : Recorded Nat := fun h => return (h.length - 1, h)

instance : Stage Recorded := ⟨act⟩

/-- A recorded part of a run does what `part` does, up to a map of the results, and makes a passage
on which names are born as often as `born` counts. -/
def Records (born : String → Nat) (f : α → β) (recorded : Recorded α) (part : Solve β) : Prop :=
  ∀ (h : History) (s : Session), h.head? = some s.vars → s.vars.Owned →
    (∃ halt, recorded h s = .error halt ∧ part s = .error halt) ∨
    ∃ a h' s', recorded h s = .ok ((a, h'), s') ∧ part s = .ok (f a, s') ∧
      Passage born h h' s.vars s'.vars

/-! ## Results of recorded parts -/

section

variable {r : Recorded α} {next : α → Recorded β} {h h' : History} {s s' : Session} {a : α}

theorem bind_apply : (r >>= next) h = (r h >>= fun out => next out.1 out.2) := rfl

theorem bind_of_ok (hr : r h s = .ok ((a, h'), s')) : (r >>= next) h s = next a h' s' := by
  rw [bind_apply, Solve.bind_of_ok hr]

theorem bind_of_error {halt : Halt} (hr : r h s = .error halt) :
    (r >>= next) h s = .error halt := by
  rw [bind_apply, Solve.bind_of_error hr]

theorem of_bind_ok {b : β} {h'' : History} {s'' : Session}
    (hBind : (r >>= next) h s = .ok ((b, h''), s'')) :
    ∃ a h' s', r h s = .ok ((a, h'), s') ∧ next a h' s' = .ok ((b, h''), s'') := by
  rw [bind_apply] at hBind
  obtain ⟨⟨a, h'⟩, s', hr, hNext⟩ := Solve.of_bind_ok hBind
  exact ⟨a, h', s', hr, hNext⟩

theorem act_of_ok {part : Solve α} (hPart : part s = .ok (a, s')) :
    act part h s = .ok ((a, s'.vars :: h), s') := by
  unfold act
  rw [Solve.bind_of_ok hPart]
  rfl

theorem act_of_error {part : Solve α} {halt : Halt} (hPart : part s = .error halt) :
    act part h s = .error halt := Solve.bind_of_error hPart

theorem perform_eq (part : Solve α) : (perform part : Recorded α) = act part := rfl

theorem atLevel_of_ok (hr : r (s.vars.enter :: h) ⟨s.vars.enter, s.sink⟩ = .ok ((a, h'), s')) :
    atLevel r h s = .ok ((a, s'.vars.leave :: h'), ⟨s'.vars.leave, s'.sink⟩) := by
  unfold atLevel
  rw [perform_eq, bind_of_ok (act_of_ok (enter_apply s)), bind_of_ok hr]
  rfl

theorem atLevel_of_error {halt : Halt}
    (hr : r (s.vars.enter :: h) ⟨s.vars.enter, s.sink⟩ = .error halt) :
    atLevel r h s = .error halt := by
  unfold atLevel
  rw [perform_eq, bind_of_ok (act_of_ok (enter_apply s)), bind_of_error hr]

theorem of_atLevel_ok (hLevel : atLevel r h s = .ok ((a, h'), s')) :
    ∃ h₁ s₁, r (s.vars.enter :: h) ⟨s.vars.enter, s.sink⟩ = .ok ((a, h₁), s₁) ∧
      h' = s₁.vars.leave :: h₁ ∧ s' = ⟨s₁.vars.leave, s₁.sink⟩ := by
  unfold atLevel at hLevel
  rw [perform_eq, bind_of_ok (act_of_ok (enter_apply s))] at hLevel
  obtain ⟨a₁, h₁, s₁, hr, hRest⟩ := of_bind_ok hLevel
  cases hRest
  exact ⟨h₁, s₁, hr, rfl, rfl⟩

end

/-! ## Rules for passages -/

section

variable {born born₁ born₂ : String → Nat} {f : α → β} {g : γ → δ} {r : Recorded α} {part : Solve β}
  {next : α → Recorded γ} {after : β → Solve δ}

theorem Records.pure {a : α} {b : β} (h : f a = b) :
    Records born f (pure a : Recorded α) (pure b : Solve β) := by
  subst h
  exact fun h s hHead hOwned => Or.inr ⟨a, h, s, rfl, rfl, .refl hHead hOwned⟩

theorem Records.bind_born (hFirst : Records born₁ f r part)
    (hNext : ∀ a, Records born₂ g (next a) (after (f a))) (hBorn : ∀ x, born₁ x + born₂ x ≤ born x) :
    Records born g (r >>= next) (part >>= after) := by
  intro h s hHead hOwned
  rcases hFirst h s hHead hOwned with ⟨halt, hr, hPart⟩ | ⟨a, h', s', hr, hPart, hPass⟩
  · exact Or.inl ⟨halt, bind_of_error hr, Solve.bind_of_error hPart⟩
  · rw [bind_of_ok hr, Solve.bind_of_ok hPart]
    refine (hNext a h' s' hPass.last hPass.owned).imp_right ?_
    rintro ⟨c, h'', s'', hr', hPart', hPass'⟩
    exact ⟨c, h'', s'', hr', hPart', (hPass.trans hPass').mono hBorn⟩

theorem Records.bind (hFirst : Records 0 f r part)
    (hNext : ∀ a, Records born g (next a) (after (f a))) :
    Records born g (r >>= next) (part >>= after) :=
  hFirst.bind_born hNext fun x => (Nat.zero_add (born x)).le

theorem Records.bind_after (hFirst : Records born f r part)
    (hNext : ∀ a, Records 0 g (next a) (after (f a))) :
    Records born g (r >>= next) (part >>= after) :=
  hFirst.bind_born hNext fun x => (Nat.add_zero (born x)).le

theorem Records.discard (hFirst : Records 0 f r part) :
    Records 0 id (discard r) (discard part) :=
  (hFirst.bind fun _ => .pure rfl :
    Records 0 id (r >>= fun _ => Pure.pure ()) (part >>= fun _ => Pure.pure ()))

theorem Records.ite {c : Prop} [Decidable c] {r' : Recorded α} {part' : Solve β}
    (h : Records born f r part) (h' : Records born f r' part') :
    Records born f (if c then r else r') (if c then part else part') := by
  split_ifs
  · exact h
  · exact h'

/-- One operation. -/
theorem Records.act {part : Solve α} (h : ∀ s, s.vars.Owned →
    (∃ halt, part s = .error halt) ∨ ∃ a s', part s = .ok (a, s') ∧
      Prefix.Advance born s.vars s'.vars) : Records born id (act part) part := by
  intro h' s hHead hOwned
  rcases h s hOwned with ⟨halt, hPart⟩ | ⟨a, s', hPart, hStep⟩
  · exact Or.inl ⟨halt, act_of_error hPart, hPart⟩
  · exact Or.inr ⟨a, s'.vars :: h', s', act_of_ok hPart, hPart, .of_advance hHead hStep⟩

theorem Records.onVars {g : Prefix → α × Prefix}
    (h : ∀ p, p.Owned → Prefix.Advance born p (g p).2) :
    Records born id (Recorded.act (onVars g)) (onVars g) :=
  .act fun s hOwned => Or.inr ⟨_, _, onVars_apply g s, h s.vars hOwned⟩

theorem Records.changeVars {g : Prefix → Prefix}
    (h : ∀ p, p.Owned → Prefix.Advance born p (g p)) :
    Records born id (Recorded.act (changeVars g)) (changeVars g) :=
  .act fun s hOwned => Or.inr ⟨_, _, changeVars_apply g s, h s.vars hOwned⟩

theorem Records.note (e : Event) : Records born id (Recorded.act (note e)) (note e) :=
  .changeVars fun _ hOwned => .of_same hOwned rfl rfl rfl

theorem Records.vars : Records born id (Recorded.act Solve.vars) Solve.vars :=
  .act fun s hOwned => Or.inr ⟨s.vars, s, rfl, .refl hOwned⟩

theorem Records.giveUp : Records born id (Recorded.act (Solve.giveUp : Solve α)) Solve.giveUp :=
  .act fun s _ => Or.inl ⟨_, giveUp_apply s⟩

theorem Records.report (d : Diagnostic) : Records born id (Recorded.act (report d)) (report d) :=
  .act fun s hOwned => Or.inr ⟨(), ⟨s.vars, s.sink.report d⟩, rfl, .refl hOwned⟩

theorem Records.atLevel (hPart : Records born f r part) :
    Records born f (atLevel r) (atLevel part) := by
  intro h s hHead hOwned
  rcases hPart (s.vars.enter :: h) ⟨s.vars.enter, s.sink⟩ rfl hOwned.enter with
    ⟨halt, hr, hPart⟩ | ⟨a, h', s', hr, hPart, hPass⟩
  · exact Or.inl ⟨halt, atLevel_of_error hr, Solve.atLevel_of_error hPart⟩
  · exact Or.inr ⟨a, _, _, atLevel_of_ok hr, Solve.atLevel_of_ok hPart,
      .atLevel hHead hOwned hPass⟩

end

end Recorded

/-! ## Unification -/

namespace Unify

open Recorded

section

variable {born : String → Nat}

theorem mismatch_records (a e : Polytype) :
    Records born id (act (mismatch a e)) (mismatch a e) :=
  .act fun s hOwned => by
    have hFirst : Prefix.Advance 0 s.vars _ := Prefix.advance_failAll hOwned
      (s.vars.resolution [] a.freeVars.toList).2
    exact Or.inr ⟨_, _, rfl, hFirst.trans (Prefix.advance_failAll hFirst.owned _)⟩

theorem infinite_records (x : String) (t : Polytype) :
    Records born id (act (infinite x t)) (infinite x t) :=
  .act fun _ hOwned => Or.inr ⟨_, _, rfl, Prefix.advance_failAll hOwned _⟩

theorem unbound_records (x : String) : Records born id (act (unbound x)) (unbound x) :=
  .act fun _ hOwned => Or.inr ⟨_, _, rfl, .of_same hOwned rfl rfl rfl⟩

/-- Comparing a bound with a type changes nothing but the misuses. -/
theorem violates_advance (b : Bound) (t : Polytype) {s : Session} (hOwned : s.vars.Owned) :
    ∃ v s', violates b t s = .ok (v, s') ∧ Prefix.Advance 0 s.vars s'.vars := by
  unfold violates
  split_ifs
  · have hFirst : Prefix.Advance 0 s.vars _ := Prefix.advance_failAll hOwned
      (s.vars.resolution [] t.freeVars.toList).2
    exact ⟨_, _, rfl, hFirst.trans (Prefix.advance_failAll hFirst.owned _)⟩
  · exact ⟨false, s, rfl, .refl hOwned⟩

theorem violates_records (b : Bound) (t : Polytype) :
    Records 0 id (act (violates b t)) (violates b t) :=
  .act fun _ hOwned => Or.inr (violates_advance b t hOwned)

theorem violates_or_records (a b : Bound) (t : Polytype) :
    Records 0 id (act (violates a t <||> violates b t)) (violates a t <||> violates b t) := by
  refine .act fun s hOwned => Or.inr ?_
  obtain ⟨v, s₁, hFirst, hStep⟩ := violates_advance a t hOwned
  obtain ⟨v', s₂, hSecond, hStep'⟩ := violates_advance b t hStep.owned
  have hOr : (violates a t <||> violates b t) s =
      (do if v then Pure.pure true else violates b t) s₁ := by
    unfold orM
    rw [Solve.bind_of_ok hFirst]
    cases v <;> rfl
  rw [hOr]
  cases v with
  | true => exact ⟨true, s₁, rfl, hStep⟩
  | false => exact ⟨v', s₂, hSecond, hStep.trans hStep'⟩

theorem instantiate_records (t : Polytype) :
    Records 0 id (act (instantiate t)) (instantiate t) := by
  refine .act fun s hOwned => Or.inr ⟨_, _, instantiate_apply t s, ?_⟩
  unfold Prefix.opened
  split
  · exact Prefix.advance_instantiateWith hOwned ∅ _
  · exact Prefix.advance_newType hOwned _

theorem generalize_records (t : Polytype) :
    Records born id (act (onVars (·.generalize t))) (onVars (·.generalize t)) :=
  .onVars fun _ hOwned => Prefix.advance_failAll hOwned _

variable {recorder : UnifierIn Recorded} {unify : Unifier}
  (h : ∀ a e call, Records 0 id (recorder a e call) (unify a e call))
include h

theorem unifyPoly_records (a e : Polytype) (call : Bool) :
    Records 0 id (unifyPoly recorder a e call) (unifyPoly unify a e call) := by
  unfold unifyPoly
  split
  · exact .pure rfl
  · exact .pure rfl
  · exact .bind (h _ _ _) fun _ => .pure rfl
  · exact .atLevel (.bind (instantiate_records _) fun _ => .bind (instantiate_records _) fun _ =>
      .bind (h _ _ _) fun _ => .bind (generalize_records _) fun _ => .pure rfl)

theorem mergeVars_records (x y : String) (call : Bool) :
    Records 0 id (mergeVars recorder x y call) (mergeVars unify x y call) := by
  refine .bind .vars fun p => ?_
  dsimp only [id]
  split
  · exact unbound_records x
  · exact unbound_records y
  · refine .ite (mismatch_records _ _) (.ite (infinite_records _ _) (.ite (infinite_records _ _) ?_))
    refine .bind (unifyPoly_records h _ _ _) fun out => .ite (.pure rfl) ?_
    refine .bind (violates_or_records _ _ _) fun v => .ite (mismatch_records _ _) ?_
    refine .bind .vars fun p => .ite (infinite_records _ _) (.ite (infinite_records _ _) ?_)
    exact .bind (.discard (.onVars fun p hOwned => Prefix.advance_merge hOwned x y _))
      fun _ => .pure rfl

theorem solveVar_records (x : String) (t : Monotype) (swapped call : Bool) :
    Records 0 id (solveVar recorder x t swapped call) (solveVar unify x t swapped call) := by
  refine .bind .vars fun p => ?_
  dsimp only [id]
  split
  · exact unbound_records x
  · refine .ite (infinite_records _ _) ?_
    refine .ite (.bind (unifyPoly_records h _ _ _) ?_) (.bind (unifyPoly_records h _ _ _) ?_)
    all_goals
      intro out
      refine .ite (.pure rfl) (.bind (violates_records _ _) fun v => .ite ?_ ?_)
      · exact .ite (.bind (mismatch_records _ _) fun _ => .pure rfl)
          (.bind (mismatch_records _ _) fun _ => .pure rfl)
      · refine .bind .vars fun p => .ite (infinite_records _ _) ?_
        exact .bind (.changeVars fun p hOwned => Prefix.advance_update hOwned _ _) fun _ => .pure rfl

theorem stepUpTo_records (same : Prefix → Monotype → Monotype → Bool) (a e : Monotype) (call : Bool) :
    Records 0 id (stepUpTo same recorder a e call) (stepUpTo same unify a e call) := by
  refine .bind (.onVars fun p hOwned => Prefix.advance_resolveTop hOwned _) fun aTop => .bind
    (.onVars fun p hOwned => Prefix.advance_resolveTop hOwned _) fun eTop => .bind (.note _) fun _ =>
      .bind .vars fun p => .ite (.pure rfl) ?_
  dsimp only [id]
  -- the forms of the two tops
  split
  · exact .ite (.pure rfl) (mergeVars_records h _ _ call)
  · exact solveVar_records h _ _ false call
  · exact solveVar_records h _ _ true call
  · exact .ite (.pure rfl) (mismatch_records _ _)
  · exact .ite (.bind (h _ _ false) fun _ => .bind (h _ _ false) fun _ => .pure rfl)
      (.bind (h _ _ false) fun _ => .bind (h _ _ false) fun _ => .pure rfl)
  · exact mismatch_records _ _

end

/-- Unification bears no names but those that it makes up. -/
theorem within_records (same : Prefix → Monotype → Monotype → Bool) (fuel : Nat) (a e : Monotype)
    (call : Bool) : Records 0 id (withinUpTo same fuel a e call) (withinUpTo same fuel a e call) := by
  induction fuel generalizing a e call with
  | zero => exact .giveUp
  | succ n ih => exact stepUpTo_records ih same a e call

end Unify

/-! ## Names that a program introduces -/

namespace Expr

variable {α β γ : Type}

/-- How many annotations of an expression mention a name, not counting those inside of another one
that does. -/
def introductions : Expr α → String → Nat
  | .missing, _ | .unknown, _ | .var .., _ | .const .., _ => 0
  | .func _ _ body, x => body.introductions x
  | .call _ callee arg, x => callee.introductions x + arg.introductions x
  | .letIn _ _ value body, x => value.introductions x + body.introductions x
  | .annot _ value declared, x => if x ∈ declared.freeVars then 1 else value.introductions x
  | .error _ _ inner, x => inner.introductions x

theorem map_map (f : α → β) (g : β → γ) (e : Expr α) : (e.map f).map g = e.map fun a => g (f a) := by
  induction e with
  | missing => rfl
  | unknown => rfl
  | var a x => rfl
  | const a v => rfl
  | func a x body ih => simp only [map, ih]
  | call a callee arg ihCallee ihArg => simp only [map, ihCallee, ihArg]
  | letIn a x value body ihValue ihBody => simp only [map, ihValue, ihBody]
  | annot a value declared ih => simp only [map, ih]
  | error a d inner ih => simp only [map, ih]

end Expr

namespace Prefix

/-- Names that are added come into play, and those in play already have to stay out of it. -/
theorem advance_declare {p : Prefix} (h : p.Owned) {xs : List String} (hNew : ∀ x ∈ xs, ¬ p.Binds x) :
    Advance (fun x => if x ∈ xs then 1 else 0) p (p.declare xs) := by
  refine ⟨h.declare xs, level_declare p xs, (counter_declare p xs).ge, fun x e he => ?_,
    fun x hq hp => ?_⟩
  · rw [find?_declare, if_neg fun hx => hNew x hx.2 ⟨e, he⟩]
    exact ⟨e, he, Nat.le_refl _⟩
  · obtain ⟨e, he⟩ := hq
    rw [find?_declare] at he
    split_ifs at he with hx
    · simp [hx.2]
    · exact absurd ⟨e, he⟩ hp

theorem mem_wildcards {p : Prefix} {t : Polytype} {x : String} :
    x ∈ p.wildcards t ↔ x ∈ t.freeVars ∧ ¬ p.Binds x := by
  simp [wildcards, Binds, find?, NameMap.contains, Option.eq_none_iff_forall_ne_some]

end Prefix

/-- The names of an annotation are in play from where it starts, so they are born there at most. -/
theorem Passage.introduce {born : String → Nat} {h h' : History} {p q : Prefix} {t : Polytype}
    (hHead : h.head? = some p) (hOwned : p.Owned) (hLevel : 1 ≤ p.level)
    (hRest : Passage born (p.declare (p.wildcards t) :: h) h' (p.declare (p.wildcards t)) q) :
    Passage (fun x => if x ∈ t.freeVars then 1 else born x) h h' p q := by
  have hFirst : Passage _ h (p.declare (p.wildcards t) :: h) p (p.declare (p.wildcards t)) :=
    .of_advance hHead (Prefix.advance_declare hOwned fun x hx => (Prefix.mem_wildcards.1 hx).2)
  have hBoth := hFirst.trans hRest
  refine ⟨hBoth.steady, hBoth.last, hBoth.owned, hBoth.level, hBoth.counter, hBoth.kept, fun x => ?_⟩
  have hBirths := hFirst.births x
  have hMade := Prefix.made_trans x hFirst.counter hRest.counter
  by_cases hx : x ∈ t.freeVars
  · -- all births are those of the declaration
    have hBinds : (p.declare (p.wildcards t)).Binds x := by
      by_cases hOld : p.Binds x
      · exact hFirst.binds hOld
      · exact ⟨_, by rw [Prefix.find?_declare, if_pos ⟨by omega, Prefix.mem_wildcards.2 ⟨hx, hOld⟩⟩]⟩
    rw [hRest.births_eq rfl hBinds]
    simp only [hx, if_true]
    split_ifs at hBirths <;> omega
  · have hNot : x ∉ p.wildcards t := fun hMem => hx (Prefix.mem_wildcards.1 hMem).1
    have hAfter := hRest.births x
    simp only [hNot, if_false] at hBirths
    simp only [hx, if_false]
    omega

/-- A part of a run at a level of its own, where the names of an annotation come first. -/
theorem Recorded.Records.introduce {α β : Type} {born : String → Nat} {f : α → β}
    {rest : Recorded α} {after : Solve β} (hRest : Records born f rest after) (t : Polytype) :
    Records (fun x => if x ∈ t.freeVars then 1 else born x) f
      (Solve.atLevel do Recorded.act (Solve.changeVars fun p => p.declare (p.wildcards t)); rest)
      (Solve.atLevel do Solve.changeVars fun p => p.declare (p.wildcards t); after) := by
  intro h s hHead hOwned
  -- the declaration is the first operation at the new level
  have hDeclared : Recorded.act (Solve.changeVars fun p => p.declare (p.wildcards t))
      (s.vars.enter :: h) ⟨s.vars.enter, s.sink⟩ =
        .ok (((), s.vars.enter.declare (s.vars.enter.wildcards t) :: s.vars.enter :: h),
          ⟨s.vars.enter.declare (s.vars.enter.wildcards t), s.sink⟩) :=
    act_of_ok (changeVars_apply _ _)
  rcases hRest (s.vars.enter.declare (s.vars.enter.wildcards t) :: s.vars.enter :: h)
    ⟨s.vars.enter.declare (s.vars.enter.wildcards t), s.sink⟩ rfl (hOwned.enter.declare _) with
    ⟨halt, hr, hPart⟩ | ⟨a, h', s', hr, hPart, hPass⟩
  · refine Or.inl ⟨halt, atLevel_of_error ?_, Solve.atLevel_of_error ?_⟩
    · rw [bind_of_ok hDeclared, hr]
    · rw [Solve.bind_of_ok (changeVars_apply _ _), hPart]
  · refine Or.inr ⟨a, _, _, atLevel_of_ok ((bind_of_ok hDeclared).trans hr), Solve.atLevel_of_ok
      ((Solve.bind_of_ok (changeVars_apply _ _)).trans hPart), .atLevel hHead hOwned ?_⟩
    exact hPass.introduce rfl hOwned.enter (Prefix.one_le_level_enter _)

/-! ## Inference -/

namespace Infer

open Recorded

/-- Resolves the pending types of an expression as the current level is left, and dates them. -/
def recordSettle (e : Expr Dated) : Recorded (Expr Dated) := do
  let p ← Recorded.vars
  let k ← now
  discard (act (settle (e.map Dated.stamp)))
  return e.map (Dated.settle p k)

/-- Nodes are marked with their types and the times when they got them. -/
def dates : Marking Recorded Dated :=
  ⟨fun t => return .of (← now) t, fun t => return .settled (← now) t, recordSettle⟩

theorem dates_settle : dates.settle = recordSettle := rfl

/-- A recorded tree without its dates. -/
def undate (out : Expr Dated × Polytype) : Expr Stamp × Polytype := (out.1.map Dated.stamp, out.2)

theorem map_stamp_settle (p : Prefix) (k : Nat) (e : Expr Dated) :
    (e.map (Dated.settle p k)).map Dated.stamp = (e.map Dated.stamp).map p.settle := by
  rw [Expr.map_map, Expr.map_map]
  exact congrArg (fun f => e.map f) (funext (Dated.stamp_settle p k))

theorem map_wrap {σ τ : Type} (f : σ → τ) (verdict : Verdict) (mark : σ) (e : Expr σ) :
    (wrap verdict mark e).map f = wrap verdict (f mark) (e.map f) := by
  cases verdict with
  | none => rfl
  | some d => rfl

theorem map_stamp_wrap (verdict : Verdict) (now : Nat) (t : Polytype) (e : Expr Dated) :
    (wrap verdict (Dated.of now t) e).map Dated.stamp = wrap verdict (.of t) (e.map Dated.stamp) :=
  map_wrap Dated.stamp verdict (.of now t) e

theorem recordSettle_apply (e : Expr Dated) (h : History) (s : Session) :
    recordSettle e h s = .ok ((e.map (Dated.settle s.vars (h.length - 1)),
      s.vars.settled (e.map Dated.stamp) :: h), ⟨s.vars.settled (e.map Dated.stamp), s.sink⟩) := rfl

theorem recordSettle_records (e : Expr Dated) :
    Records 0 (Expr.map Dated.stamp) (recordSettle e) (settle (e.map Dated.stamp)) := by
  intro h s hHead hOwned
  refine Or.inr ⟨_, _, _, recordSettle_apply e h s, ?_, .of_advance hHead
    (Prefix.advance_failAll hOwned _)⟩
  rw [map_stamp_settle]
  rfl

section

variable {β γ : Type} {born : String → Nat} {f : γ → β} {next : Dated → Recorded γ} {part : Solve β}
  {t : Polytype}

/-- The time is not seen without the history. -/
theorem dates_of_bind (h : ∀ now, Records born f (next (.of now t)) part) :
    Records born f (dates.of t >>= next) part :=
  fun h' s hHead hOwned => h _ h' s hHead hOwned

theorem dates_settled_bind (h : ∀ now, Records born f (next (.settled now t)) part) :
    Records born f (dates.settled t >>= next) part :=
  fun h' s hHead hOwned => h _ h' s hHead hOwned

end

theorem fault_records (config : Config) (f : Fault) :
    Records 0 id (act (fault config f)) (fault config f) := by
  refine .act fun s hOwned => ?_
  unfold fault
  split_ifs
  · exact Or.inl ⟨.fatal f, rfl⟩
  · exact Or.inr ⟨(), ⟨s.vars, s.sink.report (.internal f)⟩, rfl, .refl hOwned⟩

theorem monomorphize_records (t : Polytype) (kind : BoundKind) :
    Records 0 id (act (monomorphize t kind)) (monomorphize t kind) := by
  refine .act fun s hOwned => Or.inr ⟨_, _, monomorphize_apply t kind s, ?_⟩
  unfold Prefix.monomorphized
  split
  · exact .refl hOwned
  · exact Prefix.advance_newType hOwned _

theorem newType_records (b : Bound) :
    Records 0 id (act (onVars (·.newType b))) (onVars (·.newType b)) :=
  .onVars fun _ hOwned => Prefix.advance_newType hOwned b

/-- Inference of a program can be recorded, and bears the names that the program introduces. -/
theorem expr_records (config : Config) (scope : Scope) (e : Program) :
    Records e.introductions undate (exprIn dates config scope e) (expr config scope e) := by
  induction e generalizing scope with
  | missing => exact .bind (fault_records _ _) fun _ => .pure rfl
  | unknown =>
    rw [exprIn, expr_unknown]
    exact .bind (fault_records _ _) fun _ => dates_settled_bind fun _ => .pure rfl
  | var info x =>
    rw [exprIn, expr_var]
    cases scope.find? x with
    | some t => exact dates_of_bind fun _ => .pure rfl
    | none => exact .bind (.report _) fun _ => dates_settled_bind fun _ => .pure rfl
  | const info v =>
    rw [exprIn, expr_const]
    exact dates_settled_bind fun _ => .pure rfl
  | func info x body ih =>
    rw [exprIn, expr_func]
    -- the parameter has a made-up name
    refine .bind_after (f := undate) (.atLevel ?_) fun out => .bind (.note _) fun _ =>
      dates_of_bind fun _ => .pure rfl
    refine .bind (newType_records _) fun param => .bind_after (ih _) fun out => ?_
    exact .bind (monomorphize_records _ _) fun m => .bind (Unify.generalize_records _) fun t =>
      .bind (recordSettle_records _) fun tree => .pure rfl
  | call info callee arg ihCallee ihArg =>
    rw [exprIn, expr_call]
    refine .bind_after (f := fun out => (out.1.map Dated.stamp, out.2.1.map Dated.stamp, out.2.2))
      (.atLevel ?_) fun out => .bind (.note _) fun _ => dates_of_bind fun k => .pure ?_
    · -- what is called and the argument may introduce the same name, once each
      refine .bind_born (ihCallee scope) (fun calleeOut => .bind_after (ihArg scope) fun argOut => ?_)
        fun x => Nat.le_refl _
      refine .bind (monomorphize_records _ _) fun function => .bind (monomorphize_records _ _)
        fun param => .bind (newType_records _) fun result => ?_
      exact .bind (Unify.within_records _ _ _ _ _) fun verdict =>
        .bind (Unify.generalize_records _) fun t => .bind (recordSettle_records _) fun _ =>
          .bind (recordSettle_records _) fun _ => .pure rfl
    · exact congrArg (·, _) (map_stamp_wrap _ _ _ _)
  | letIn info x value body ihValue ihBody =>
    rw [exprIn, expr_letIn]
    exact .bind_born (ihValue scope) (fun out => .bind_after (ihBody _) fun out =>
      dates_of_bind fun _ => .pure rfl) fun x => Nat.le_refl _
  | annot info value declared ih =>
    rw [exprIn, expr_annot]
    -- the names of the declared type are there before the value is inferred
    refine .bind_after (f := fun out => (out.1.map Dated.stamp, out.2)) (.introduce ?_ declared)
      fun out => dates_of_bind fun k => .pure (congrArg (·, _) (map_stamp_wrap _ _ _ _))
    refine .bind_after (ih scope) fun out => .bind (monomorphize_records _ _) fun actual =>
      .bind (monomorphize_records _ _) fun expected => ?_
    exact .bind (Unify.within_records _ _ _ _ _) fun verdict =>
      .bind (Unify.generalize_records _) fun t => .bind (recordSettle_records _) fun _ => .pure rfl
  | error info d inner ih =>
    -- an error that stands alone has no level of its own
    by_cases hInner : inner = .missing
    · subst hInner
      exact dates_settled_bind fun _ => .pure rfl
    · rw [expr_error _ _ _ _ hInner, exprIn]
      · exact .bind_after (.atLevel (.bind_after (ih scope) fun out => recordSettle_records _))
          fun _ => dates_settled_bind fun _ => .pure rfl
      · exact hInner

end Infer

end Mlf
