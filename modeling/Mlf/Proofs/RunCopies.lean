import Mlf.Proofs.InferRun
import Mlf.Proofs.PrefixCopies

/-!
# Runs under other names

Two runs of inference on copies: the same program with copies of the declared types, in a scope of
copies, from states that are alike. They take the same course. Either both stop for the same reason,
having made reports of the same kinds, or both end, with copies for types, with states that are alike
and with reports of the same kinds in the same order.

`Mirrors` says this of two parts of a run. There is one lemma for each way to put parts together and
one for each operation, so the proofs for unification and inference follow the definitions.

Main results:

* `Mirrors` — two parts of a run that do the same;
* `within_mirrors` — unification;
* `expr_mirrors` — inference.
-/

namespace Mlf

variable {f : String → String} {c ℓ δ : Nat}

/-- States of two runs that are alike and that have made reports of the same kinds since they started
with the sinks `base` and `base'`. -/
structure Session.Copies (f : String → String) (c ℓ δ : Nat) (base base' : Sink) (s s' : Session) :
    Prop where
  vars : Prefix.Copies f c ℓ δ s.vars s'.vars
  reports : ∃ ds ds', List.Forall₂ (Diagnostic.Copies f) ds ds' ∧ s.sink = ds.foldl .report base ∧
    s'.sink = ds'.foldl .report base'

/-- Two runs stop alike: for the same fault, or out of fuel at states that are related. -/
inductive Halt.Alike (S : Session → Session → Prop) : Halt → Halt → Prop
  | outOfFuel {s s' : Session} (h : S s s') : Alike S (.outOfFuel s.sink) (.outOfFuel s'.sink)
  | fatal (fault : Fault) : Alike S (.fatal fault) (.fatal fault)

namespace Solve

/-- Two parts of a run that do the same from states that are alike: they stop alike, or they end with
results that are related. -/
def Mirrors {α β : Type} (S : Session → Session → Prop) (R : α → β → Prop) (act : Solve α)
    (act' : Solve β) : Prop :=
  ∀ s s', S s s' →
    (∃ halt halt', act s = .error halt ∧ act' s' = .error halt' ∧ halt.Alike S halt') ∨
    ∃ a t b t', act s = .ok (a, t) ∧ act' s' = .ok (b, t') ∧ R a b ∧ S t t'

section

variable {α β γ δ : Type} {S : Session → Session → Prop} {R : α → β → Prop} {Q : γ → δ → Prop}
  {act : Solve α} {act' : Solve β} {next : α → Solve γ} {next' : β → Solve δ}

theorem Mirrors.pure {a : α} {b : β} (h : R a b) :
    Mirrors S R (pure a : Solve α) (pure b : Solve β) :=
  fun s s' hs => Or.inr ⟨a, s, b, s', rfl, rfl, h, hs⟩

theorem Mirrors.throw_fatal (fault : Fault) :
    Mirrors S R (throw (.fatal fault) : Solve α) (throw (.fatal fault) : Solve β) :=
  fun _ _ _ => Or.inl ⟨_, _, rfl, rfl, .fatal fault⟩

theorem Mirrors.giveUp : Mirrors S R (giveUp : Solve α) (giveUp : Solve β) :=
  fun s s' hs => Or.inl ⟨_, _, giveUp_apply s, giveUp_apply s', .outOfFuel hs⟩

theorem Mirrors.bind (h : Mirrors S R act act') (h' : ∀ a b, R a b → Mirrors S Q (next a) (next' b)) :
    Mirrors S Q (act >>= next) (act' >>= next') := by
  intro s s' hs
  rcases h s s' hs with ⟨halt, halt', hAct, hAct', hHalt⟩ | ⟨a, t, b, t', hAct, hAct', hR, ht⟩
  · exact Or.inl ⟨halt, halt', bind_of_error hAct, bind_of_error hAct', hHalt⟩
  · rw [bind_of_ok hAct, bind_of_ok hAct']
    exact h' a b hR t t' ht

theorem Mirrors.ite {P P' : Prop} [Decidable P] [Decidable P'] (hP : P' ↔ P) {alt : Solve α}
    {alt' : Solve β} (h : Mirrors S R act act') (hAlt : Mirrors S R alt alt') :
    Mirrors S R (if P then act else alt) (if P' then act' else alt') := by
  by_cases hCond : P
  · rwa [if_pos hCond, if_pos (hP.2 hCond)]
  · rwa [if_neg hCond, if_neg (mt hP.1 hCond)]

theorem Mirrors.get_bind {next : Session → Solve γ} {next' : Session → Solve δ}
    (h : ∀ s s', S s s' → Mirrors S Q (next s) (next' s')) :
    Mirrors S Q (get >>= next) (get >>= next') :=
  fun s s' hs => by
    rw [bind_of_ok (get_apply s), bind_of_ok (get_apply s')]
    exact h s s' hs s s' hs

theorem Mirrors.vars_bind {next : Prefix → Solve γ} {next' : Prefix → Solve δ}
    (h : ∀ s s', S s s' → Mirrors S Q (next s.vars) (next' s'.vars)) :
    Mirrors S Q (vars >>= next) (vars >>= next') :=
  fun s s' hs => by
    rw [bind_of_ok (vars_apply s), bind_of_ok (vars_apply s')]
    exact h s s' hs s s' hs

end

/-! ## Parts of a run on copies -/

section

variable {α β : Type} {base base' : Sink} {R : α → β → Prop} {act : Solve α} {act' : Solve β}

theorem Mirrors.onVars {g : Prefix → α × Prefix} {g' : Prefix → β × Prefix}
    (h : ∀ p p', Prefix.Copies f c ℓ δ p p' →
      R (g p).1 (g' p').1 ∧ Prefix.Copies f c ℓ δ (g p).2 (g' p').2) :
    Mirrors (Session.Copies f c ℓ δ base base') R (onVars g) (onVars g') := by
  intro s s' hs
  obtain ⟨hR, hVars⟩ := h s.vars s'.vars hs.vars
  exact Or.inr ⟨_, _, _, _, onVars_apply g s, onVars_apply g' s', hR, hVars, hs.reports⟩

theorem Mirrors.changeVars {g g' : Prefix → Prefix}
    (h : ∀ p p', Prefix.Copies f c ℓ δ p p' → Prefix.Copies f c ℓ δ (g p) (g' p')) :
    Mirrors (Session.Copies f c ℓ δ base base') (fun _ _ => True) (changeVars g) (changeVars g') :=
  fun s s' hs => Or.inr ⟨_, _, _, _, changeVars_apply g s, changeVars_apply g' s', trivial,
    h s.vars s'.vars hs.vars, hs.reports⟩

theorem Mirrors.note (event event' : Event) :
    Mirrors (Session.Copies f c ℓ δ base base') (fun _ _ => True) (note event) (note event') :=
  .changeVars fun _ _ h => h.note _ _

theorem Mirrors.report {d d' : Diagnostic} (h : d.Copies f d') :
    Mirrors (Session.Copies f c ℓ δ base base') (fun _ _ => True) (report d) (report d') := by
  intro s s' hs
  obtain ⟨ds, ds', hReports, hSink, hSink'⟩ := hs.reports
  refine Or.inr ⟨(), ⟨s.vars, s.sink.report d⟩, (), ⟨s'.vars, s'.sink.report d'⟩, rfl, rfl, trivial,
    hs.vars, ds ++ [d], ds' ++ [d'], List.rel_append hReports (.cons h .nil), ?_, ?_⟩
  · rw [List.foldl_append, ← hSink]
    rfl
  · rw [List.foldl_append, ← hSink']
    rfl

theorem Mirrors.atLevel (h : Mirrors (Session.Copies f c (ℓ + 1) δ base base') R act act') :
    Mirrors (Session.Copies f c ℓ δ base base') R (atLevel act) (atLevel act') := by
  intro s s' hs
  rcases h ⟨s.vars.enter, s.sink⟩ ⟨s'.vars.enter, s'.sink⟩ ⟨hs.vars.enter, hs.reports⟩ with
    ⟨halt, halt', hAct, hAct', hHalt⟩ | ⟨a, t, b, t', hAct, hAct', hR, ht⟩
  · refine Or.inl ⟨halt, halt', atLevel_of_error hAct, atLevel_of_error hAct', ?_⟩
    cases hHalt with
    | @outOfFuel t t' ht =>
      -- the sinks are the same at any level
      have hLeft : Session.Copies f c ℓ δ base base' ⟨t.vars.leave, t.sink⟩ ⟨t'.vars.leave, t'.sink⟩ :=
        ⟨ht.vars.leave hs.vars.pos, ht.reports⟩
      have hHalt := Halt.Alike.outOfFuel hLeft
      exact hHalt
    | fatal fault => exact .fatal fault
  · exact Or.inr ⟨a, _, b, _, atLevel_of_ok hAct, atLevel_of_ok hAct', hR, ht.vars.leave hs.vars.pos,
      ht.reports⟩

end

end Solve

/-! ## Wildcards, and types as monotypes -/

namespace Prefix

variable {p p' : Prefix}

theorem Owned.declare {p : Prefix} (h : p.Owned) (xs : List String) : (p.declare xs).Owned := by
  induction xs generalizing p with
  | nil => exact h
  | cons x xs ih => exact ih (h.add x _)

theorem level_declare (p : Prefix) (xs : List String) : (p.declare xs).level = p.level := by
  induction xs generalizing p with
  | nil => rfl
  | cons x xs ih => exact (ih (p.add x .unbounded)).trans (level_add p x _)

theorem counter_declare (p : Prefix) (xs : List String) : (p.declare xs).counter = p.counter := by
  induction xs generalizing p with
  | nil => rfl
  | cons x xs ih => exact (ih (p.add x .unbounded)).trans (counter_add p x _)

theorem find?_declare (p : Prefix) (xs : List String) (y : String) :
    (p.declare xs).find? y =
      if p.level ≠ 0 ∧ y ∈ xs then some ⟨p.level, .unbounded⟩ else p.find? y := by
  induction xs generalizing p with
  | nil => simp [declare]
  | cons x xs ih =>
    rw [show p.declare (x :: xs) = (p.add x .unbounded).declare xs from rfl, ih, level_add, find?_add]
    by_cases hLevel : p.level = 0 <;> by_cases hyx : y = x <;> by_cases hy : y ∈ xs <;>
      simp [hLevel, hyx, hy]

theorem Copies.declare (hf : Function.Injective f) (h : Copies f c ℓ δ p p') (xs : List String) :
    Copies f c ℓ δ (p.declare xs) (p'.declare (xs.map f)) := by
  induction xs generalizing p p' with
  | nil => exact h
  | cons x xs ih => exact ih (h.add hf Bound.copies_unbounded x)

/-- Only which names are declared matters, not their order. -/
theorem Copies.declare_of_mem (hf : Function.Injective f) (h : Copies f c ℓ δ p p') {xs ys : List String}
    (hMem : ∀ y, y ∈ ys ↔ ∃ x ∈ xs, f x = y) : Copies f c ℓ δ (p.declare xs) (p'.declare ys) := by
  have hCopies := h.declare hf xs
  have hFind (y : String) : (p'.declare ys).find? y = (p'.declare (xs.map f)).find? y := by
    rw [find?_declare, find?_declare]
    simp only [List.mem_map, hMem]
  refine ⟨?_, h.pos, hCopies.level, ?_, hCopies.owned, h.owned'.declare ys, fun x hx => ?_,
    fun x e hx => ?_, fun y hy => ?_⟩
  · rw [counter_declare, counter_declare, h.counter]
  · rw [level_declare, h.level']
  · rw [hFind, hCopies.absent x hx]
  · rw [hFind]
    exact hCopies.present x e hx
  · rw [Binds, hFind] at hy
    exact hCopies.named y hy

theorem Copies.declare_wildcards (hf : Function.Injective f) (h : Copies f c ℓ δ p p') {t u : Polytype}
    (hCopies : t.Copies f u) :
    Copies f c ℓ δ (p.declare (p.wildcards t)) (p'.declare (p'.wildcards u)) := by
  refine h.declare_of_mem hf fun y => ?_
  simp only [wildcards, List.mem_filter, NameSet.mem_sorted, hCopies.mem_freeVars hf]
  constructor
  · rintro ⟨⟨x, hx, rfl⟩, hNew⟩
    exact ⟨x, ⟨hx, by rwa [h.contains] at hNew⟩, rfl⟩
  · rintro ⟨x, ⟨hx, hNew⟩, rfl⟩
    exact ⟨⟨x, hx, rfl⟩, by rwa [h.contains]⟩

/-- A monotype for a copy is a copy of the monotype: either itself, or a new variable with a copy
for its bound. -/
theorem Copies.monomorphized (hf : Shifts f c) (h : Copies f c ℓ δ p p') {t u : Polytype}
    (hCopies : t.Copies f u) (kind : BoundKind) :
    (p'.monomorphized u kind).1 = (p.monomorphized t kind).1.rename f ∧
      Copies f c ℓ δ (p.monomorphized t kind).2 (p'.monomorphized u kind).2 := by
  have hNormal := hCopies.normal
  have hBound : Bound.Copies f ⟨kind, t.normal⟩ ⟨kind, u.normal⟩ := ⟨rfl, hNormal⟩
  obtain ⟨hName, hNew⟩ := h.newType hf hBound
  -- a copy of a normal form is a monotype if the normal form is
  unfold Prefix.monomorphized
  cases hn : t.normal with
  | mono m =>
    rw [hn] at hNormal
    rw [Polytype.copies_mono.1 hNormal]
    exact ⟨rfl, h⟩
  | bottom =>
    rw [hn] at hNormal hName hNew
    rw [Polytype.copies_bottom.1 hNormal] at hName hNew ⊢
    exact ⟨congrArg Monotype.var hName, hNew⟩
  | all x k b t =>
    rw [hn] at hNormal hName hNew
    obtain ⟨y, d, v, hEq, -⟩ := Polytype.copies_all hNormal
    rw [hEq] at hName hNew ⊢
    exact ⟨congrArg Monotype.var hName, hNew⟩

end Prefix

namespace Unify

open Solve

/-! ## Unification -/

variable {base base' : Sink}

/-- Both runs found something to report, or none did. -/
def SameVerdict (v v' : Verdict) : Prop := v'.isSome = v.isSome

/-- A way to unify types that does the same to copies. -/
def MirrorsCopies (f : String → String) (c δ : Nat) (base base' : Sink) (unify : Unifier) : Prop :=
  ∀ ℓ a e call, Mirrors (Session.Copies f c ℓ δ base base') SameVerdict (unify a e call)
    (unify (a.rename f) (e.rename f) call)

theorem resolve_mirrors (hf : Function.Injective f) {t u : Polytype} (h : t.Copies f u) :
    Mirrors (Session.Copies f c ℓ δ base base') (Polytype.Copies f) (onVars (·.resolve t))
      (onVars (·.resolve u)) :=
  .onVars fun _ _ hp => hp.resolve hf h

theorem mismatch_mirrors (hf : Function.Injective f) {a e a' e' : Polytype} (ha : a.Copies f a')
    (he : e.Copies f e') :
    Mirrors (Session.Copies f c ℓ δ base base') SameVerdict (mismatch a e) (mismatch a' e') :=
  .bind (resolve_mirrors hf ha) fun _ _ ha => .bind (resolve_mirrors hf he) fun _ _ he =>
    .bind (.report (copies_incompatible hf ha he)) fun _ _ _ => .pure rfl

theorem infinite_mirrors (hf : Function.Injective f) (x : String) {t u : Polytype}
    (h : t.Copies f u) :
    Mirrors (Session.Copies f c ℓ δ base base') SameVerdict (infinite x t) (infinite (f x) u) :=
  .bind (resolve_mirrors hf h) fun _ _ ht =>
    .bind (.report (copies_infinite hf ht)) fun _ _ _ => .pure rfl

theorem unbound_mirrors (x : String) :
    Mirrors (Session.Copies f c ℓ δ base base') SameVerdict (unbound x) (unbound (f x)) := by
  have hReport : Diagnostic.Copies f (.internal (.unboundVariable x))
      (.internal (.unboundVariable (f x))) := ⟨rfl, fun _ hPlain => absurd rfl (hPlain _)⟩
  exact .bind (.note _ _) fun _ _ _ => .bind (.report hReport) fun _ _ _ => .pure rfl

theorem violates_mirrors (hf : Function.Injective f) {b b' : Bound} (hb : b.Copies f b')
    {t u : Polytype} (h : t.Copies f u) :
    Mirrors (Session.Copies f c ℓ δ base base') (fun v v' => v' = v) (violates b t) (violates b' u) := by
  unfold violates
  rw [hb.kind]
  refine .ite Iff.rfl ?_ (.pure rfl)
  refine .bind (?_ : Mirrors _ (fun v v' => v' = v) _ _) fun v v' hv => .pure (congrArg _ hv)
  exact .bind (resolve_mirrors hf h) fun _ _ ht => .bind (resolve_mirrors hf hb.type) fun _ _ hb =>
    .pure (ht.equivalent hf hb)

theorem newType_mirrors (hf : Shifts f c) {b b' : Bound} (h : b.Copies f b') :
    Mirrors (Session.Copies f c ℓ δ base base') (fun x x' => x' = f x) (onVars (·.newType b))
      (onVars (·.newType b')) :=
  .onVars fun _ _ hp => hp.newType hf h

theorem instantiate_mirrors (hf : Shifts f c) {t u : Polytype} (h : t.Copies f u) :
    Mirrors (Session.Copies f c ℓ δ base base') (fun m m' => m' = m.rename f) (instantiate t)
      (instantiate u) := by
  intro s s' hs
  obtain ⟨hType, hVars⟩ := hs.vars.opened hf h
  exact Or.inr ⟨_, _, _, _, instantiate_apply t s, instantiate_apply u s', hType, hVars, hs.reports⟩

theorem generalize_mirrors (hf : Function.Injective f) {t u : Polytype} (h : t.Copies f u) :
    Mirrors (Session.Copies f c ℓ δ base base') (Polytype.Copies f) (onVars (·.generalize t))
      (onVars (·.generalize u)) :=
  .onVars fun _ _ hp => hp.generalize hf h

/-- Unification of types with quantifiers does the same to copies. -/
theorem unifyPoly_mirrors (hf : Shifts f c) {unify : Unifier} (h : MirrorsCopies f c δ base base' unify)
    {a e a' e' : Polytype} (ha : a.Copies f a') (he : e.Copies f e') (call : Bool) :
    Mirrors (Session.Copies f c ℓ δ base base')
      (fun out out' => out.1.Copies f out'.1 ∧ SameVerdict out.2 out'.2)
      (unifyPoly unify a e call) (unifyPoly unify a' e' call) := by
  -- types with quantifiers are opened at a level of their own
  have hOpened : Mirrors (Session.Copies f c ℓ δ base base')
      (fun out out' => out.1.Copies f out'.1 ∧ SameVerdict out.2 out'.2)
      (atLevel do
        let a ← instantiate a
        let e ← instantiate e
        let verdict ← unify a e call
        return (← onVars (·.generalize a), verdict))
      (atLevel do
        let a ← instantiate a'
        let e ← instantiate e'
        let verdict ← unify a e call
        return (← onVars (·.generalize a), verdict)) := by
    refine .atLevel (.bind (instantiate_mirrors hf ha) fun m m' hm =>
      .bind (instantiate_mirrors hf he) fun n n' hn => ?_)
    subst hm hn
    exact .bind (h _ m n call) fun _ _ hv =>
      .bind (generalize_mirrors hf.injective (Polytype.copies_mono.2 rfl)) fun _ _ ht =>
        .pure ⟨ht, hv⟩
  cases a with
  | bottom =>
    obtain rfl := Polytype.copies_bottom.1 ha
    exact .pure ⟨he, rfl⟩
  | mono m =>
    obtain rfl := Polytype.copies_mono.1 ha
    cases e with
    | bottom =>
      obtain rfl := Polytype.copies_bottom.1 he
      exact .pure ⟨ha, rfl⟩
    | mono n =>
      obtain rfl := Polytype.copies_mono.1 he
      exact .bind (h _ m n call) fun _ _ hv => .pure ⟨ha, hv⟩
    | all y l d u =>
      obtain ⟨y', d', u', rfl, -⟩ := Polytype.copies_all he
      exact hOpened
  | all x k b t =>
    obtain ⟨x', b', t', rfl, -⟩ := Polytype.copies_all ha
    cases e with
    | bottom =>
      obtain rfl := Polytype.copies_bottom.1 he
      exact .pure ⟨ha, rfl⟩
    | mono n =>
      obtain rfl := Polytype.copies_mono.1 he
      exact hOpened
    | all y l d u =>
      obtain ⟨y', d', u', rfl, -⟩ := Polytype.copies_all he
      exact hOpened

theorem violates_or_mirrors (hf : Function.Injective f) {a b a' b' : Bound} (ha : a.Copies f a')
    (hb : b.Copies f b') {t u : Polytype} (h : t.Copies f u) :
    Mirrors (Session.Copies f c ℓ δ base base') (fun v v' => v' = v) (violates a t <||> violates b t)
      (violates a' u <||> violates b' u) := by
  refine .bind (violates_mirrors hf ha h) fun v v' hv => ?_
  subst hv
  cases v' with
  | true => exact .pure rfl
  | false => exact violates_mirrors hf hb h

/-- Two variables become one as their copies do. The two runs go through the checks side by side: a
check that fails for one fails for the other, and otherwise what has been found so far is a copy.
The bounds are copies since the states are alike, the common bound is one by the mirrored run on the
bounds, and the last checks are about the states after that run. -/
theorem mergeVars_mirrors (hf : Shifts f c) {unify : Unifier}
    (h : MirrorsCopies f c δ base base' unify) (x y : String) (call : Bool) :
    Mirrors (Session.Copies f c ℓ δ base base') SameVerdict (mergeVars unify x y call)
      (mergeVars unify (f x) (f y) call) := by
  simp only [mergeVars, perform_solve]
  refine .vars_bind fun s s' hs => ?_
  -- a name is in play on one side if its copy is on the other
  cases hx : s.vars.find? x with
  | none =>
    rw [hs.vars.absent x hx]
    exact unbound_mirrors x
  | some ex =>
  obtain ⟨ex', hx', hEx⟩ := hs.vars.present x ex hx
  rw [hx']
  cases hy : s.vars.find? y with
  | none =>
    rw [hs.vars.absent y hy]
    exact unbound_mirrors y
  | some ey =>
  obtain ⟨ey', hy', hEy⟩ := hs.vars.present y ey hy
  rw [hy']
  have hInj := hf.injective
  have ha := hEx.bound
  have hb := hEy.bound
  -- names are mapped one to one, so a search through bounds answers the same on both sides
  have hOccurs {s s' : Session} (hs : Session.Copies f c ℓ δ base base' s s') (z : String)
      {t u : Polytype} (ht : t.Copies f u) :
      s'.vars.occurs (f z) u = true ↔ s.vars.occurs z t = true := by
    rw [hs.vars.occurs hInj z ht]
  refine .ite (by rw [ha.eq_iff_of_bottom, hb.eq_iff_of_bottom])
    (mismatch_mirrors hInj (Polytype.copies_mono.2 rfl) (Polytype.copies_mono.2 rfl)) ?_
  refine .ite (hOccurs hs x hb.type) (infinite_mirrors hInj x hb.type) ?_
  refine .ite (hOccurs hs y ha.type) (infinite_mirrors hInj y ha.type) ?_
  -- the common bound, and what it must not do
  refine .bind (unifyPoly_mirrors hf h ha.type hb.type call) fun out out' ⟨ht, hv⟩ => ?_
  refine .ite (by rw [hv]) (.pure hv) ?_
  refine .bind (violates_or_mirrors hInj ha hb ht) fun v v' hv => ?_
  refine .ite (by rw [hv]) (mismatch_mirrors hInj ha.type hb.type) ?_
  refine .vars_bind fun s s' hs => ?_
  refine .ite (hOccurs hs x ht) (infinite_mirrors hInj x ht) ?_
  refine .ite (hOccurs hs y ht) (infinite_mirrors hInj y ht) ?_
  refine .bind (R := fun _ _ => True) (.bind (R := fun _ _ => True)
    (.onVars fun p p' hp => ⟨trivial, ?_⟩) fun _ _ _ => .pure trivial) fun _ _ _ => .pure rfl
  refine hp.merge hInj ⟨?_, ht⟩ x y
  rw [ha.kind, hb.kind]

/-- A variable is solved as its copy is, with a copy for the solution. -/
theorem solveVar_mirrors (hf : Shifts f c) {unify : Unifier}
    (h : MirrorsCopies f c δ base base' unify) (x : String) (t : Monotype) (swapped call : Bool) :
    Mirrors (Session.Copies f c ℓ δ base base') SameVerdict (solveVar unify x t swapped call)
      (solveVar unify (f x) (t.rename f) swapped call) := by
  simp only [solveVar, perform_solve]
  refine .vars_bind fun s s' hs => ?_
  cases hx : s.vars.find? x with
  | none =>
    rw [hs.vars.absent x hx]
    exact unbound_mirrors x
  | some ex =>
  obtain ⟨ex', hx', hEx⟩ := hs.vars.present x ex hx
  rw [hx']
  have hInj := hf.injective
  have hb := hEx.bound
  have ht : Polytype.Copies f (.mono t) (.mono (t.rename f)) := Polytype.copies_mono.2 rfl
  refine .ite (by rw [hs.vars.occurs hInj x ht]) (infinite_mirrors hInj x ht) ?_
  -- the variable takes a copy for its bound and keeps its kind
  have hNew : Bound.Copies f ⟨ex.bound.kind, .mono t⟩ ⟨ex'.bound.kind, .mono (t.rename f)⟩ :=
    ⟨hb.kind, ht⟩
  -- which side the type is on matters for the wording of a mismatch only
  refine .ite Iff.rfl (.bind (unifyPoly_mirrors hf h ht hb.type call) ?_)
    (.bind (unifyPoly_mirrors hf h hb.type ht call) ?_)
  all_goals
    intro out out' hOut
    refine .ite (by rw [hOut.2]) (.pure hOut.2) ?_
    refine .bind (violates_mirrors hInj hb ht) fun v v' hv => ?_
    refine .ite (by rw [hv]) (.ite Iff.rfl (.bind (mismatch_mirrors hInj ht hb.type)
      fun _ _ hv => .pure hv) (.bind (mismatch_mirrors hInj hb.type ht) fun _ _ hv => .pure hv)) ?_
    refine .vars_bind fun s s' hs => ?_
    refine .ite (by rw [hs.vars.occurs hInj x ht]) (infinite_mirrors hInj x ht) ?_
    exact .bind (.changeVars fun p p' hp => hp.update hInj hNew x) fun _ _ _ => .pure rfl

theorem resolveTop_mirrors (hf : Function.Injective f) (t : Monotype) :
    Mirrors (Session.Copies f c ℓ δ base base') (fun m m' => m' = m.rename f) (onVars (·.resolveTop t))
      (onVars (·.resolveTop (t.rename f))) :=
  .onVars fun _ _ hp => hp.resolveTop hf t

/-- One step of unification does the same to copies, if what it does with parts does. -/
theorem step_mirrors (hf : Shifts f c) {unify : Unifier} (h : MirrorsCopies f c δ base base' unify)
    (a e : Monotype) (call : Bool) :
    Mirrors (Session.Copies f c ℓ δ base base') SameVerdict (step unify a e call)
      (step unify (a.rename f) (e.rename f) call) := by
  have hInj := hf.injective
  have hMono (m : Monotype) : Polytype.Copies f (.mono m) (.mono (m.rename f)) :=
    Polytype.copies_mono.2 rfl
  simp only [step, stepUpTo, perform_solve]
  refine .bind (resolveTop_mirrors hInj a) fun aTop a' ha => .bind (resolveTop_mirrors hInj e)
    fun eTop e' he => .bind (.note _ _) fun _ _ _ => .vars_bind fun s s' hs => ?_
  subst ha he
  -- copies come from the solution of one variable if what they are copies of does
  refine .ite (by rw [hs.vars.shares hInj, (Monotype.rename_injective hInj).eq_iff]) (.pure rfl) ?_
  have hMismatch : Mirrors (Session.Copies f c ℓ δ base base') SameVerdict
      (mismatch (.mono aTop) (.mono eTop))
      (mismatch (.mono (aTop.rename f)) (.mono (eTop.rename f))) :=
    mismatch_mirrors hInj (hMono aTop) (hMono eTop)
  cases aTop with
  | var x =>
    cases eTop with
    | var y => exact .ite hInj.eq_iff (.pure rfl) (mergeVars_mirrors hf h x y call)
    | const d => exact solveVar_mirrors hf h x (.const d) false call
    | fn q b => exact solveVar_mirrors hf h x (.fn q b) false call
  | const d =>
    cases eTop with
    | var y => exact solveVar_mirrors hf h y (.const d) true call
    | const d' => exact .ite Iff.rfl (.pure rfl) hMismatch
    | fn q b => exact hMismatch
  | fn p b =>
    cases eTop with
    | var y => exact solveVar_mirrors hf h y (.fn p b) true call
    | const d => exact hMismatch
    | fn q b' =>
      -- the verdict is that of the parameters, or else that of the bodies
      have hOr {v v' w w' : Verdict} (hv : SameVerdict v v') (hw : SameVerdict w w') :
          SameVerdict (v.or w) (v'.or w') := by
        simp only [SameVerdict, Option.isSome_or] at hv hw ⊢
        rw [hv, hw]
      exact .ite Iff.rfl
        (.bind (h _ q p false) fun _ _ hv => .bind (h _ b b' false) fun _ _ hw => .pure (hOr hv hw))
        (.bind (h _ p q false) fun _ _ hv => .bind (h _ b b' false) fun _ _ hw => .pure (hOr hv hw))

/-- Unification does the same to copies. -/
theorem within_mirrors (hf : Shifts f c) (fuel : Nat) :
    MirrorsCopies f c δ base base' (within fuel) := by
  induction fuel with
  | zero => exact fun _ _ _ _ => .giveUp
  | succ n ih => exact fun _ => step_mirrors hf ih

end Unify

namespace Infer

open Solve

/-! ## Inference -/

variable {base base' : Sink}

/-- The second program is the first one with copies of the declared types. -/
inductive ExprCopies (f : String → String) : Program → Program → Prop
  | missing : ExprCopies f .missing .missing
  | unknown : ExprCopies f .unknown .unknown
  | var (i : Unit) (x : String) : ExprCopies f (.var i x) (.var i x)
  | const (i : Unit) (v : Value) : ExprCopies f (.const i v) (.const i v)
  | func {i : Unit} {x : String} {body body' : Program} (h : ExprCopies f body body') :
    ExprCopies f (.func i x body) (.func i x body')
  | call {i : Unit} {callee callee' arg arg' : Program} (hCallee : ExprCopies f callee callee')
    (hArg : ExprCopies f arg arg') : ExprCopies f (.call i callee arg) (.call i callee' arg')
  | letIn {i : Unit} {x : String} {value value' body body' : Program}
    (hValue : ExprCopies f value value') (hBody : ExprCopies f body body') :
    ExprCopies f (.letIn i x value body) (.letIn i x value' body')
  | annot {i : Unit} {value value' : Program} {declared declared' : Polytype}
    (hValue : ExprCopies f value value') (hType : declared.Copies f declared') :
    ExprCopies f (.annot i value declared) (.annot i value' declared')
  | error {i : Unit} {d : Diagnostic} {inner inner' : Program} (h : ExprCopies f inner inner') :
    ExprCopies f (.error i d inner) (.error i d inner')

/-- The variables of two scopes have types that are copies. -/
structure ScopeCopies (f : String → String) (scope scope' : Scope) : Prop where
  absent : ∀ x, scope.find? x = none → scope'.find? x = none
  present : ∀ x t, scope.find? x = some t → ∃ t', scope'.find? x = some t' ∧ t.Copies f t'

theorem ScopeCopies.insert {scope scope' : Scope} (h : ScopeCopies f scope scope') (x : String)
    {t t' : Polytype} (ht : t.Copies f t') :
    ScopeCopies f (scope.insert x t) (scope'.insert x t') := by
  refine ⟨fun y hy => ?_, fun y u hy => ?_⟩
  · rw [NameMap.find?_insert] at hy ⊢
    split_ifs at hy with hyx
    rw [if_neg hyx, h.absent y hy]
  · rw [NameMap.find?_insert] at hy ⊢
    split_ifs at hy with hyx
    · obtain rfl := Option.some.inj hy
      exact ⟨t', if_pos hyx, ht⟩
    · rw [if_neg hyx]
      exact h.present y u hy

theorem fault_mirrors (config : Config) (fault : Fault) :
    Mirrors (Session.Copies f c ℓ δ base base') (fun _ _ => True) (Infer.fault config fault)
      (Infer.fault config fault) :=
  .ite Iff.rfl (.throw_fatal _) (.report (.refl _))

theorem monomorphize_mirrors (hf : Shifts f c) {t t' : Polytype} (ht : t.Copies f t')
    (kind : BoundKind) :
    Mirrors (Session.Copies f c ℓ δ base base') (fun m m' => m' = m.rename f) (monomorphize t kind)
      (monomorphize t' kind) := by
  intro s s' hs
  obtain ⟨hType, hVars⟩ := hs.vars.monomorphized hf ht kind
  exact Or.inr ⟨_, _, _, _, monomorphize_apply t kind s, monomorphize_apply t' kind s', hType, hVars,
    hs.reports⟩

/-- Types of nodes are resolved without a trace in the variables in play. -/
theorem settle_mirrors (e e' : Expr Stamp) :
    Mirrors (Session.Copies f c ℓ δ base base') (fun _ _ => True) (settle e) (settle e') :=
  .get_bind fun _ _ _ => .bind (.changeVars fun _ _ hp => hp.failAll _ _) fun _ _ _ => .pure trivial

/-- Inference does the same to copies. -/
theorem expr_mirrors (hf : Shifts f c) (config : Config) {scope scope' : Scope}
    (hScope : ScopeCopies f scope scope') {e e' : Program} (he : ExprCopies f e e') :
    Mirrors (Session.Copies f c ℓ δ base base') (fun out out' => out.2.Copies f out'.2)
      (expr config scope e) (expr config scope' e') := by
  have hInj := hf.injective
  induction he generalizing ℓ scope scope' with
  | missing => exact .bind (fault_mirrors _ _) fun _ _ _ => .pure (Polytype.copies_bottom.2 rfl)
  | unknown => exact .bind (fault_mirrors _ _) fun _ _ _ => .pure (Polytype.copies_bottom.2 rfl)
  | var i x =>
    rw [expr_var, expr_var]
    cases hx : scope.find? x with
    | none =>
      rw [hScope.absent x hx]
      exact .bind (.report (.refl _)) fun _ _ _ => .pure (Polytype.copies_bottom.2 rfl)
    | some t =>
      obtain ⟨t', hx', ht⟩ := hScope.present x t hx
      rw [hx']
      exact .pure ht
  | const i v => exact .pure (Polytype.copies_mono.2 rfl)
  | @func i x body body' _ ih =>
    rw [expr_func, expr_func]
    refine .bind (R := fun out out' => out.2.Copies f out'.2) (.atLevel ?_) fun _ _ ht =>
      .bind (.note _ _) fun _ _ _ => .pure ht
    -- the parameters have copies for names, and so the body is inferred in scopes of copies
    refine .bind (Unify.newType_mirrors hf Bound.copies_unbounded) fun param param' hParam => ?_
    subst hParam
    have hParam : Polytype.Copies f (.mono (.var param)) (.mono (.var (f param))) :=
      Polytype.copies_mono.2 rfl
    refine .bind (ih (hScope.insert x hParam)) fun out out' ht =>
      .bind (monomorphize_mirrors hf ht .flexible) fun m m' hm => ?_
    subst hm
    exact .bind (Unify.generalize_mirrors hInj (Polytype.copies_mono.2 rfl)) fun _ _ ht =>
      .bind (settle_mirrors _ _) fun _ _ _ => .pure ht
  | @call i callee callee' arg arg' _ _ ihCallee ihArg =>
    rw [expr_call, expr_call]
    refine .bind (R := fun out out' => out.2.2.1.Copies f out'.2.2.1) (.atLevel ?_) fun _ _ ht =>
      .bind (.note _ _) fun _ _ _ => .pure ht
    refine .bind (ihCallee hScope) fun _ _ hCallee => .bind (ihArg hScope) fun _ _ hArg =>
      .bind (monomorphize_mirrors hf hCallee .flexible) fun m m' hm =>
        .bind (monomorphize_mirrors hf hArg .flexible) fun n n' hn =>
          .bind (Unify.newType_mirrors hf Bound.copies_unbounded) fun x x' hx => ?_
    subst hm hn hx
    exact .bind (Unify.within_mirrors hf config.fuel _ m (.fn n (.var x)) true) fun _ _ _ =>
      .bind (Unify.generalize_mirrors hInj (Polytype.copies_mono.2 rfl)) fun _ _ ht =>
        .bind (settle_mirrors _ _) fun _ _ _ => .bind (settle_mirrors _ _) fun _ _ _ => .pure ht
  | @letIn i x value value' body body' _ _ ihValue ihBody =>
    rw [expr_letIn, expr_letIn]
    exact .bind (ihValue hScope) fun _ _ hValue =>
      .bind (ihBody (hScope.insert x hValue)) fun _ _ ht => .pure ht
  | @annot i value value' declared declared' _ hType ih =>
    rw [expr_annot, expr_annot]
    refine .bind (R := fun out out' => out.2.1.Copies f out'.2.1) (.atLevel ?_) fun _ _ ht => .pure ht
    -- the declared types have copies for wildcards
    refine .bind (.changeVars fun _ _ hp => hp.declare_wildcards hInj hType) fun _ _ _ =>
      .bind (ih hScope) fun _ _ hValue => .bind (monomorphize_mirrors hf hValue .flexible)
        fun m m' hm => .bind (monomorphize_mirrors hf hType .rigid) fun n n' hn => ?_
    subst hm hn
    exact .bind (Unify.within_mirrors hf config.fuel _ m n false) fun _ _ _ =>
      .bind (Unify.generalize_mirrors hInj hType) fun _ _ ht =>
        .bind (settle_mirrors _ _) fun _ _ _ => .pure ht.normal
  | @error i d inner inner' hInner ih =>
    by_cases hMissing : inner = .missing
    · subst hMissing
      cases hInner
      exact .pure (Polytype.copies_bottom.2 rfl)
    · have hMissing' : inner' ≠ .missing := by
        rintro rfl
        cases hInner
        exact hMissing rfl
      rw [expr_error _ _ _ _ hMissing, expr_error _ _ _ _ hMissing']
      exact .bind (.atLevel (.bind (ih hScope) fun _ _ _ => settle_mirrors _ _)) fun _ _ _ =>
        .pure (Polytype.copies_bottom.2 rfl)

end Infer

end Mlf
