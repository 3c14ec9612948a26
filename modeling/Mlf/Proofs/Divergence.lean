import Mathlib
import Mlf.Proofs.UnifySteps

/-!
# Unification that goes on forever

A run goes on after a mismatch, with what was narrowed up to then. That is how it can fail to end:
the parts that are left may lead to the same mismatch again, in new variables.

The variables here have a rigid bound, the `wheel`. An attempt to solve one of them by a type of the
form `x → s → v → Boolean` opens the bound, ties `x`, `s` and `v` to parts of the instance, and fails,
since a rigid bound is not narrowed. What `x` and `v` have become by then asks for the next attempt,
with three new variables in the place of the old ones. Each attempt is a part of the one before, so
the fuel does not last, however much there is.

Main results:

* `Meets.turns`, `Meets.attempt` — what an attempt leaves behind;
* `Turning.next` — one attempt sets up the next one;
* `Turning.not_meets`, `within_diverges` — no attempt comes to an end;
* `turning_spokes` — every prefix can be extended to one where it happens.
-/

namespace Mlf

open Prefix Relation

variable {p : Prefix} {a e : Monotype} {s v x y z : String}

/-! ## The wheel -/

namespace Wheel

/-- `x → s → v → Boolean`. -/
def tail (x s v : String) : Monotype :=
  .fn (.var x) (.fn (.var s) (.fn (.var v) (.const .boolean)))

/-- `(s → x → s → v → Boolean) → x`. -/
def lead (s x v : String) : Monotype := .fn (.fn (.var s) (tail x s v)) (.var x)

/-- `(r → s) → v`. -/
def rest (r s v : String) : Monotype := .fn (.fn (.var r) (.var s)) (.var v)

/-- The instances of the wheel. -/
def turn (x s v r : String) : Monotype :=
  .fn (lead s x v) (.fn (.var r) (.fn (rest r s v) (.const .boolean)))

variable {x s v r y : String}

theorem mem_freeVars_tail : y ∈ (tail x s v).freeVars ↔ y = x ∨ y = s ∨ y = v := by
  simp [tail, Monotype.freeVars]

theorem mem_freeVars_lead : y ∈ (lead s x v).freeVars ↔ y = s ∨ y = x ∨ y = v := by
  simp only [lead, Monotype.freeVars, NameSet.mem_union, NameSet.mem_singleton, mem_freeVars_tail]
  tauto

theorem mem_freeVars_rest : y ∈ (rest r s v).freeVars ↔ y = r ∨ y = s ∨ y = v := by
  simp [rest, Monotype.freeVars, or_assoc]

theorem mem_freeVars_turn :
    y ∈ (turn x s v r).freeVars ↔ y = x ∨ y = s ∨ y = v ∨ y = r := by
  simp only [turn, Monotype.freeVars, NameSet.mem_union, NameSet.mem_singleton, mem_freeVars_lead,
    mem_freeVars_rest, NameSet.not_mem_empty]
  tauto

end Wheel

open Wheel

/-- `∀ x s v r. ((s → x → s → v → Boolean) → x) → r → ((r → s) → v) → Boolean`. -/
def wheel : Polytype :=
  .all "x" .flexible .bottom (.all "s" .flexible .bottom (.all "v" .flexible .bottom
    (.all "r" .flexible .bottom (.mono (turn "x" "s" "v" "r")))))

theorem isNormal_wheel : wheel.IsNormal := by decide

theorem wheel_ne_bottom : wheel ≠ .bottom := by simp [wheel]

theorem not_mem_freeVars_wheel : y ∉ wheel.freeVars := by
  simp only [wheel, Polytype.freeVars, mem_freeVars_turn, NameSet.mem_union, NameSet.mem_erase,
    NameSet.not_mem_empty, false_or]
  tauto

namespace Prefix

/-! ## New variables -/

theorem covers_var : p.Covers (.mono (.var x)) ↔ p.Binds x := by
  simp [Covers, Polytype.freeVars, Monotype.freeVars]

theorem covers_const {c : BaseType} : p.Covers (.mono (.const c)) := by
  simp [Covers, Polytype.freeVars, Monotype.freeVars]

theorem covers_fn {b : Monotype} :
    p.Covers (.mono (.fn a b)) ↔ p.Covers (.mono a) ∧ p.Covers (.mono b) := by
  simp only [Covers, Polytype.freeVars, Monotype.freeVars, NameSet.mem_union, or_imp, forall_and]

/-- The variables `xs` are made up, without bounds, and nothing else happens. -/
structure Makes (p q : Prefix) (xs : List String) : Prop where
  nodup : xs.Nodup
  fresh : ∀ x ∈ xs, ¬ p.Binds x
  has : ∀ x ∈ xs, q.Has x .unbounded
  kept : ∀ x b, p.Has x b → q.Has x b
  binds : ∀ x, q.Binds x → p.Binds x ∨ x ∈ xs

theorem newType_makes (hLevel : 1 ≤ p.level) :
    p.Makes (p.newType .unbounded).2 [(p.newType .unbounded).1] := by
  have hGrows := newType_grows hLevel .unbounded
  refine ⟨List.nodup_singleton _, ?_, ?_, fun x b hx => hx.grows hGrows, fun x hx => ?_⟩
  · simpa using hGrows.fresh
  · simpa using hGrows.has
  · rw [Binds, hGrows.find?] at hx
    split_ifs at hx with hEq
    · exact Or.inr (List.mem_singleton.2 hEq)
    · exact Or.inl hx

theorem Makes.trans {q r : Prefix} {xs ys : List String} (h : p.Makes q xs) (h' : q.Makes r ys) :
    p.Makes r (xs ++ ys) := by
  -- what is new to the second prefix is new to the first
  have hOld {x : String} (hx : p.Binds x) : q.Binds x := by
    obtain ⟨e, he⟩ := hx
    exact (h.kept x e.bound ⟨e, he, rfl⟩).binds
  refine ⟨List.nodup_append.2 ⟨h.nodup, h'.nodup, fun x hx y hy hxy => ?_⟩, fun x hx => ?_,
    fun x hx => ?_, fun x b hx => h'.kept x b (h.kept x b hx), fun x hx => ?_⟩
  · exact h'.fresh y hy (hxy ▸ (h.has x hx).binds)
  · rcases List.mem_append.1 hx with hx | hx
    · exact h.fresh x hx
    · exact fun hb => h'.fresh x hx (hOld hb)
  · rcases List.mem_append.1 hx with hx | hx
    · exact h'.kept x _ (h.has x hx)
    · exact h'.has x hx
  · rcases h'.binds x hx with hx | hx
    · exact (h.binds x hx).imp_right fun hx => List.mem_append.2 (Or.inl hx)
    · exact Or.inr (List.mem_append.2 (Or.inr hx))

theorem Makes.of_enter {p' q : Prefix} {xs : List String} (h : p'.enter.Makes q xs)
    (hQuiet : p.Quiet p') : p.Makes q xs where
  nodup := h.nodup
  fresh x hx hb := h.fresh x hx (binds_enter.2 ((hQuiet.binds x).2 hb))
  has := h.has
  kept x b hx := h.kept x b (hx.quiet hQuiet).enter
  binds x hx := (h.binds x hx).imp_left fun hb => (hQuiet.binds x).1 (binds_enter.1 hb)

/-- Bindings without bounds. -/
def unboundedAll (xs : List String) : List Binding := xs.map fun x => ⟨x, .unbounded⟩

/-- An instance has one new variable for each binding. -/
theorem instantiateWith_makes (hLevel : 1 ≤ p.level) (s : Subst) (xs : List String) :
    ∃ ys, ys.length = xs.length ∧ p.Makes (p.instantiateWith s (unboundedAll xs)).2 ys ∧
      (p.instantiateWith s (unboundedAll xs)).1 =
        (xs.zip ys).foldl (fun s b => s.insert b.1 (.var b.2)) s := by
  induction xs generalizing p s with
  | nil => exact ⟨[], rfl, ⟨.nil, by simp, by simp, fun _ _ h => h, fun _ h => Or.inl h⟩, rfl⟩
  | cons x xs ih =>
    have hMade := newType_makes hLevel
    have hLevel' : 1 ≤ (p.newType .unbounded).2.level := by
      rw [(newType_grows hLevel .unbounded).level]
      exact hLevel
    obtain ⟨ys, hLength, hMakes, hSubst⟩ := ih hLevel' (s.insert x (.var (p.newType .unbounded).1))
    exact ⟨(p.newType .unbounded).1 :: ys, by simp [hLength], hMade.trans hMakes, hSubst⟩

/-- An instance of the wheel has four new variables. -/
theorem opened_wheel (hLevel : 1 ≤ p.level) :
    ∃ x s v r, (p.opened wheel).1 = turn x s v r ∧ p.Makes (p.opened wheel).2 [x, s, v, r] := by
  have hSplit : wheel.normal.split = (unboundedAll ["x", "s", "v", "r"],
      .mono (turn "x" "s" "v" "r")) := by
    rw [Polytype.normal_eq_self.2 isNormal_wheel]
    rfl
  obtain ⟨ys, hLength, hMakes, hSubst⟩ := instantiateWith_makes hLevel ∅ ["x", "s", "v", "r"]
  rw [opened_of_split hSplit, hSubst]
  -- four quantifiers, four variables
  match ys, hLength with
  | [x, s, v, r], _ =>
    refine ⟨x, s, v, r, ?_, hMakes⟩
    simp [turn, lead, rest, tail, Monotype.subst, NameMap.find?_insert]

/-! ## Variables that stand aside -/

/-- Outside of `S`, bounds are kept. -/
def KeepsBut (p q : Prefix) (S : List String) : Prop := ∀ x b, x ∉ S → p.Has x b → q.Has x b

theorem KeepsBut.trans {q r : Prefix} {S T : List String} (h : p.KeepsBut q S)
    (h' : q.KeepsBut r T) : p.KeepsBut r (S ++ T) := fun x b hx hb =>
  h' x b (fun hT => hx (List.mem_append.2 (Or.inr hT)))
    (h x b (fun hS => hx (List.mem_append.2 (Or.inl hS))) hb)

theorem Updates.keepsBut {q : Prefix} {b : Bound} (h : p.Updates q x b) : p.KeepsBut q [x] :=
  fun _ _ hy hb => hb.updates h fun hyx => hy (List.mem_singleton.2 hyx)

theorem covers_wheel (p : Prefix) : p.Covers wheel := fun _ hy => absurd hy not_mem_freeVars_wheel

theorem not_occurs_wheel (p : Prefix) (x : String) : p.occurs x wheel = false :=
  Closed.not_occurs (D := ∅) (by simp [Closed]) (fun _ hy => absurd hy not_mem_freeVars_wheel) (by simp)

/-- A variable is another one or stands for it. -/
def Leads (p : Prefix) (x y : String) : Prop := x = y ∨ p.Has x ⟨.flexible, .mono (.var y)⟩

theorem Leads.top (h : p.Leads x y) (hp : p.Acyclic) : p.top (.var x) = p.top (.var y) := by
  rcases h with rfl | h
  · rfl
  · exact hp.top_of_solution? h.solution?

theorem Leads.binds (h : p.Leads x y) (hy : p.Binds y) : p.Binds x := by
  rcases h with rfl | h
  · exact hy
  · exact h.binds

theorem Has.top {b : Bound} (h : p.Has x b) (hb : b.type.mono? = none) : p.top (.var x) = .var x :=
  top_of_solution?_none (h.solution?.trans hb)

/-- A variable that does not lead to `x`: it has no bound, or it leads to a wheel. -/
def Apart (p : Prefix) (x y : String) : Prop :=
  y ≠ x ∧ (p.Has y .unbounded ∨ ∃ z, z ≠ x ∧ p.Leads y z ∧ p.Has z ⟨.rigid, Mlf.wheel⟩)

theorem not_occurs_of_apart {t : Monotype} (ht : ∀ y ∈ t.freeVars, p.Apart x y) :
    p.occurs x t = false := by
  -- these names lead to each other only, and `x` is none of them
  have hClosed : p.Closed {y | p.Apart x y} := by
    rintro y ⟨hyx, hy | ⟨z, hzx, rfl | hyz, hz⟩⟩ w hyw
    · have hNone := hy.mentions.1 hyw
      simp [Bound.unbounded, Polytype.freeVars] at hNone
    · exact absurd (hz.mentions.1 hyw) not_mem_freeVars_wheel
    · obtain rfl : w = z := by simpa [Polytype.freeVars, Monotype.freeVars] using hyz.mentions.1 hyw
      exact ⟨hzx, Or.inr ⟨w, hzx, Or.inl rfl, hz⟩⟩
  exact hClosed.not_occurs ht fun hx => hx.1 rfl

end Prefix

namespace Unify

variable {n : Nat} {p q : Prefix}

/-! ## One attempt -/

/-- A variable that may be anything and one with the wheel as its bound have become one; nothing
else has happened. -/
structure Joins (p q : Prefix) (x y z : String) : Prop where
  either : z = x ∨ z = y
  rigid : q.Has z ⟨.rigid, wheel⟩
  left : q.Leads x z
  right : q.Leads y z
  kept : p.KeepsBut q [x, y]

theorem Meets.joins (h : Meets n p a e q) (hp : p.Acyclic) (ha : p.top a = .var x)
    (he : p.top e = .var y) (hx : p.Has x .unbounded) (hy : p.Has y ⟨.rigid, wheel⟩) :
    ∃ z, Joins p q x y z := by
  obtain ⟨stays, goes, q', hWhich, hFirst, hSecond⟩ := h.tie_open hp ha he hx hy wheel_ne_bottom
    (p.not_occurs_wheel x)
  have hne : x ≠ y := hx.ne hy (by simp [Bound.unbounded])
  have hKept : p.KeepsBut q [stays, goes] := hFirst.keepsBut.trans hSecond.keepsBut
  -- the older of the two stays, which may be either
  rcases hWhich with ⟨rfl, rfl⟩ | ⟨rfl, rfl⟩
  · exact ⟨stays, Or.inl rfl, (hFirst.has hx.binds).updates hSecond hne, Or.inl rfl,
      Or.inr (hSecond.has ((hFirst.binds goes).2 hy.binds)), hKept⟩
  · refine ⟨stays, Or.inr rfl, (hFirst.has hy.binds).updates hSecond hne.symm,
      Or.inr (hSecond.has ((hFirst.binds goes).2 hx.binds)), Or.inl rfl, fun w b hw => hKept w b ?_⟩
    simpa [and_comm] using hw

/-- A variable that may be anything is solved by a type that does not lead to it. -/
theorem Meets.solves {t u : Monotype} (h : Meets n p (.var x) (.fn t u) q) (hp : p.Acyclic)
    (hx : p.Has x .unbounded) (hFree : ∀ y ∈ (Monotype.fn t u).freeVars, p.Apart x y) :
    p.KeepsBut q [x] ∧ q.Has x ⟨.flexible, .mono (.fn t u)⟩ := by
  have hUpdates := h.solve_open hp (hx.top rfl) hx (top_fn ..) (by simp)
    (not_occurs_of_apart hFree)
  exact ⟨hUpdates.keepsBut, hUpdates.has hx.binds⟩

/-- What an attempt does: `x` and `v` are solved by parts of an instance of the wheel, and `u` becomes
one with its variable `r'`. Some of the other variables may be gone in the end. -/
structure Turns (p q : Prefix) (x v u x' s' v' r' z : String) : Prop where
  first : q.Has x ⟨.flexible, .mono (lead s' x' v')⟩
  last : q.Has v ⟨.flexible, .mono (rest r' s' v')⟩
  either : z = r' ∨ z = u
  rigid : q.Has z ⟨.rigid, wheel⟩
  leads : q.Leads r' z ∧ q.Leads u z
  kept : ∀ w b, w ∉ [x, v, r', u] → p.Has w b → q.Binds w → q.Has w b

/-- An attempt to make `x → s → v → Boolean` an instance of the wheel. The parts are met from left
to right: `x` is solved by `lead`, what `s` leads to becomes one with `r'`, and `v` is solved by
`rest`. -/
theorem Meets.turns {u x' s' v' r' : String} (h : Meets n p (tail x s v) (turn x' s' v' r') q)
    (hp : p.WellFormed) (hx : p.Has x .unbounded) (hv : p.Has v .unbounded) (hs : p.Leads s u)
    (hu : p.Has u ⟨.rigid, wheel⟩) (hNew : ∀ y ∈ [x', s', v', r'], p.Has y .unbounded)
    (hApart : [x, v, x', s', v', r'].Nodup) : ∃ z, Turns p q x v u x' s' v' r' z := by
  simp only [List.mem_cons, List.not_mem_nil, or_false, forall_eq_or_imp, forall_eq] at hNew
  simp only [List.nodup_cons, List.mem_cons, List.not_mem_nil, or_false, not_or, ← ne_eq] at hApart
  obtain ⟨hx', hs', hv', hr'⟩ := hNew
  obtain ⟨⟨hxv, hxx', hxs', hxv', hxr'⟩, ⟨hvx', hvs', hvv', hvr'⟩, -, ⟨-, hs'r'⟩, hv'r', -⟩ := hApart
  -- the rigid variable is none of those that may be anything
  have hRigid {y : String} (hy : p.Has y .unbounded) : y ≠ u := hy.ne hu (by simp [Bound.unbounded])
  have hsOpen : s ≠ x := by
    rcases hs with rfl | hs
    · exact (hRigid hx).symm
    · exact hs.ne hx (by simp [Bound.unbounded])
  have hCovers : p.Covers (tail x s v) ∧ p.Covers (turn x' s' v' r') := by
    simp [tail, turn, lead, rest, covers_fn, covers_var, covers_const, hx.binds, hv.binds,
      hs.binds hu.binds, hx'.binds, hs'.binds, hv'.binds, hr'.binds]
  simp only [tail, turn, covers_fn] at hCovers
  obtain ⟨⟨hxCov, hsCov, -⟩, hLeadCov, hrCov, -⟩ := hCovers
  -- `x` is solved by the first part
  obtain ⟨m₁, p₁, -, hFirst, hBody⟩ := h.parts (top_fn ..) (top_fn ..) (by simp [lead])
  obtain ⟨hKept₁, hx₁⟩ := hFirst.solves hp.acyclic hx (by
    simp only [← lead.eq_def, mem_freeVars_lead, forall_eq_or_imp, forall_eq]
    exact ⟨⟨hxs'.symm, Or.inl hs'⟩, ⟨hxx'.symm, Or.inl hx'⟩, hxv'.symm, Or.inl hv'⟩)
  have hp₁ := hFirst.narrows hp hxCov hLeadCov
  have hu₁ := hKept₁ u _ (by simpa using (hRigid hx).symm) hu
  have hs₁ : p₁.Leads s u := hs.imp_right (hKept₁ s _ (by simpa using hsOpen))
  have hr'₁ := hKept₁ r' _ (by simpa using hxr'.symm) hr'
  -- `r'` becomes one with what `s` leads to
  obtain ⟨m₂, p₂, -, hTie, hBody⟩ := hBody.parts (top_fn ..) (top_fn ..) (by simp [rest])
  obtain ⟨z, hJoins⟩ := hTie.symm.joins hp₁.wellFormed.acyclic (hr'₁.top rfl)
    ((hs₁.top hp₁.wellFormed.acyclic).trans (hu₁.top rfl)) hr'₁ hu₁
  have hp₂ := hTie.narrows hp₁.wellFormed (hp₁.covers hsCov) (hp₁.covers hrCov)
  have hKept₂ : p.KeepsBut p₂ [x, r', u] := hKept₁.trans hJoins.kept
  have hv₂ := hKept₂ v _ (by simpa using ⟨hxv.symm, hvr', hRigid hv⟩) hv
  have hvz : v ≠ z := by
    rcases hJoins.either with rfl | rfl
    · exact hvr'
    · exact hRigid hv
  -- `v` is solved by the part after that
  obtain ⟨m₃, p₃, -, hLast, hSame⟩ := hBody.parts (top_fn ..) (top_fn ..) (by simp [rest])
  obtain ⟨hKept₃, hv₃⟩ := hLast.solves hp₂.wellFormed.acyclic hv₂ (by
    simp only [← rest.eq_def, mem_freeVars_rest, forall_eq_or_imp, forall_eq]
    exact ⟨⟨hvr'.symm, Or.inr ⟨z, hvz.symm, hJoins.left, hJoins.rigid⟩⟩,
      ⟨hvs'.symm, Or.inl (hKept₂ s' _ (by simpa using ⟨hxs'.symm, hs'r', hRigid hs'⟩) hs')⟩,
      hvv'.symm, Or.inl (hKept₂ v' _ (by simpa using ⟨hxv'.symm, hv'r', hRigid hv'⟩) hv')⟩)
  -- and nothing is left to do
  have hQuiet : p₃.Quiet q := hSame.same_const (top_const ..) (top_const ..)
  have hEnd {y : String} {b : Bound} (hyv : y ≠ v) (hy : p₂.Has y b) : q.Has y b :=
    (hKept₃ y b (by simpa using hyv) hy).quiet hQuiet
  refine ⟨z, ?_, hv₃.quiet hQuiet, hJoins.either, hEnd hvz.symm hJoins.rigid,
    ⟨hJoins.left.imp_right (hEnd hvr'.symm), hJoins.right.imp_right (hEnd (hRigid hv).symm)⟩,
    fun w b hw hb _ => ?_⟩
  · exact hEnd hxv (hJoins.kept x _ (by simpa using ⟨hxr', hRigid hx⟩) hx₁)
  · simp only [List.mem_cons, List.not_mem_nil, or_false, not_or] at hw
    exact hEnd hw.2.1 (hKept₂ w b (by simpa using ⟨hw.1, hw.2.2⟩) hb)

/-- What is mentioned by variables that were in play is still in play when a level is left. -/
theorem Turns.leave {q' : Prefix} {u x' s' v' r' : String} (h : Turns p q' x v u x' s' v' r' z)
    (hq' : q'.WellFormed) (hLevel : 1 ≤ q'.level) (hQuiet : q'.leave.Quiet q) (hq : q.Scoped)
    (hx : q.Binds x) (hv : q.Binds v) (hu : q.Binds u) :
    Turns p q x v u x' s' v' r' z ∧ ∀ w ∈ [x', s', v', r'], q.Binds w := by
  -- a variable that is in play outside has the bound that it had inside
  have hBack {w : String} {b : Bound} (hb : q.Binds w) (hw : q'.Has w b) : q.Has w b :=
    (hw.leave hq'.owned hLevel ((hQuiet.binds w).1 hb)).quiet hQuiet
  have hFirst := hBack hx h.first
  have hLast := hBack hv h.last
  -- the new variables are mentioned by `x` and `v`, so they have moved to an older level
  have hr' : q.Binds r' := hq.binds (hLast.mentions.2 (mem_freeVars_rest.2 (Or.inl rfl)))
  have hz : q.Binds z := by
    rcases h.either with rfl | rfl
    · exact hr'
    · exact hu
  refine ⟨⟨hFirst, hLast, h.either, hBack hz h.rigid, ⟨h.leads.1.imp_right (hBack hr'),
    h.leads.2.imp_right (hBack hu)⟩, fun w b hw hb hBinds => ?_⟩, fun w hw => ?_⟩
  · obtain ⟨e, he⟩ := (hQuiet.binds w).1 hBinds
    have hInside : q'.Binds w := ⟨e, ((hq'.owned.find?_leave hLevel w e).1 he).1⟩
    exact hBack hBinds (h.kept w b hw hb hInside)
  · simp only [List.mem_cons, List.not_mem_nil, or_false] at hw
    rcases hw with rfl | rfl | rfl | rfl
    · exact hq.binds (hFirst.mentions.2 (mem_freeVars_lead.2 (by simp)))
    · exact hq.binds (hFirst.mentions.2 (mem_freeVars_lead.2 (by simp)))
    · exact hq.binds (hFirst.mentions.2 (mem_freeVars_lead.2 (by simp)))
    · exact hr'

/-- An attempt to solve `z`, which has the wheel as its rigid bound, by `x → s → v → Boolean`. It
fails, since that type has fewer instances than the wheel, but what it did at a level of its own to
the variables of older levels stays. -/
theorem Meets.attempt {s x v u z : String} {e : Monotype} (h : Meets n p (tail x s v) e q)
    (hp : p.WellFormed) (he : p.Covers e) (heTop : p.top e = .var z)
    (hx : p.Has x .unbounded) (hv : p.Has v .unbounded) (hxv : x ≠ v) (hs : p.Leads s u)
    (hu : p.Has u ⟨.rigid, wheel⟩) (hz : p.Has z ⟨.rigid, wheel⟩) (huz : u ≠ z) :
    ∃ p₁ x' s' v' r' z', p.Makes p₁ [x', s', v', r'] ∧ Turns p₁ q x v u x' s' v' r' z' ∧
      ∀ w ∈ [x', s', v', r'], q.Binds w := by
  have hRigid {w : String} (hw : p.Has w .unbounded) : w ≠ z := hw.ne hz (by simp [Bound.unbounded])
  have hsz : s ≠ z := by
    rcases hs with rfl | hs
    · exact huz
    · exact hs.ne hz (by simp)
  have hTail : p.Covers (tail x s v) := by
    simp [tail, covers_fn, covers_var, covers_const, hx.binds, hv.binds, hs.binds hu.binds]
  -- the type does not lead to the variable that it is to solve
  have hFree : p.occurs z (tail x s v) = false := by
    refine not_occurs_of_apart ?_
    simp only [mem_freeVars_tail, forall_eq_or_imp, forall_eq]
    exact ⟨⟨hRigid hx, Or.inl hx⟩, ⟨hsz, Or.inr ⟨u, huz, hs, hu⟩⟩, hRigid hv, Or.inl hv⟩
  obtain ⟨m, p', q', hQuiet, hInside, hLeave⟩ := h.refuse_rigid hp hTail (top_fn ..) (by simp) heTop
    hz rfl wheel_ne_bottom hFree
  -- the instance has new variables, and nothing else has changed so far
  obtain ⟨x', s', v', r', hOpened, hMade⟩ := opened_wheel (one_le_level_enter p')
  have hOpens := opened_opens (hQuiet.wellFormed hp).1.enter (one_le_level_enter p') (closed_univ _)
    (covers_wheel _) fun _ _ => trivial
  rw [hOpened] at hInside hOpens
  generalize (p'.enter.opened wheel).2 = p₁ at hInside hOpens hMade
  have hMakes : p.Makes p₁ [x', s', v', r'] := hMade.of_enter hQuiet
  have hFresh {w : String} (hw : w ∈ [x', s', v', r']) : ¬ p.Binds w := hMakes.fresh w hw
  obtain ⟨z', hTurns⟩ := hInside.turns hOpens.narrows.wellFormed
    (hMakes.kept x _ hx) (hMakes.kept v _ hv) (hs.imp_right (hMakes.kept s _)) (hMakes.kept u _ hu)
    hMakes.has
    (by
      simp only [List.nodup_cons (a := x), List.nodup_cons (a := v), List.mem_cons (b := v), not_or]
      exact ⟨⟨hxv, fun hw => hFresh hw hx.binds⟩, fun hw => hFresh hw hv.binds, hMakes.nodup⟩)
  -- the level of the attempt is left, and what older variables mention stays
  have hNarrows := h.narrows hp hTail he
  have hTail₁ : p₁.Covers (tail x s v) := fun y hy => by
    obtain ⟨e, he⟩ := hTail y hy
    exact (hMakes.kept y e.bound ⟨e, he, rfl⟩).binds
  have hq' := hInside.narrows hOpens.narrows.wellFormed hTail₁ hOpens.covers
  have hLevel : 1 ≤ q'.level := by
    rw [hq'.level, hOpens.narrows.level]
    exact one_le_level_enter p'
  exact ⟨p₁, x', s', v', r', z', hMakes, hTurns.leave hq'.wellFormed hLevel hLeave
    hNarrows.wellFormed.scoping (hNarrows.binds hx.binds) (hNarrows.binds hv.binds)
    (hNarrows.binds hu.binds)⟩

/-! ## One attempt after the other -/

/-- A run is about to solve `z`, which has the wheel as its rigid bound, by `x → s → v → Boolean`. -/
structure Turning (s x v y z : String) (p : Prefix) (a e : Monotype) : Prop where
  wellFormed : p.WellFormed
  covers : p.Covers a ∧ p.Covers e
  free : ∀ w ∈ [s, x, v], p.Has w .unbounded
  apart : [s, x, v].Nodup
  rigid : p.Has y ⟨.rigid, wheel⟩ ∧ p.Has z ⟨.rigid, wheel⟩ ∧ y ≠ z
  actual : p.top a = lead s x v
  expected : ∃ b₁ b₂ b₃ w, p.top e = .fn (.fn b₁ b₂) w ∧ p.top b₁ = .var y ∧ p.top b₂ = .var z ∧
    p.top w = .fn (.fn b₃ (.var s)) (.var v) ∧ p.top b₃ = .var z

/-- What is left of the variables `s`, `x` and `v` after that: there are three new ones like them,
and a new variable `z'` with the wheel as its rigid bound. -/
structure Turned (q : Prefix) (s x v z s' x' v' r' z' : String) : Prop where
  free : ∀ w ∈ [s', x', v'], q.Has w .unbounded
  apart : [s', x', v'].Nodup
  rigid : q.Has z ⟨.rigid, wheel⟩ ∧ q.Has z' ⟨.rigid, wheel⟩ ∧ z ≠ z'
  first : q.Has x ⟨.flexible, .mono (lead s' x' v')⟩
  last : q.Has v ⟨.flexible, .mono (rest r' s' v')⟩
  tops : q.top (.var s) = .var z' ∧ q.top (.var r') = .var z'

/-- The parameters of the types: `s` becomes one with `y`, then comes the attempt. -/
theorem Turning.turned {b₁ b₂ : Monotype} (h : Turning s x v y z p a e)
    (hMeets : Meets n p (.fn (.var s) (tail x s v)) (.fn b₁ b₂) q)
    (hActual : p.Covers (.mono (.fn (.var s) (tail x s v))))
    (hExpected : p.Covers (.mono (.fn b₁ b₂))) (hb₁ : p.top b₁ = .var y) (hb₂ : p.top b₂ = .var z) :
    ∃ s' x' v' r' z', Turned q s x v z s' x' v' r' z' := by
  obtain ⟨hy, hz, hyz⟩ := h.rigid
  have hFree := h.free
  have hApart := h.apart
  simp only [List.mem_cons, List.not_mem_nil, or_false, forall_eq_or_imp, forall_eq] at hFree
  simp only [List.nodup_cons, List.mem_cons, List.not_mem_nil, or_false, not_or, ← ne_eq] at hApart
  obtain ⟨hs, hx, hv⟩ := hFree
  obtain ⟨⟨hsx, hsv⟩, hxv, -⟩ := hApart
  have hp := h.wellFormed
  have hNarrows := hMeets.narrows hp hActual hExpected
  have hq := hNarrows.wellFormed.acyclic
  rw [covers_fn] at hActual hExpected
  have hRigid {y w : String} (hy : p.Has y ⟨.rigid, wheel⟩) (hw : p.Has w .unbounded) : w ≠ y :=
    hw.ne hy (by simp [Bound.unbounded])
  -- `s` becomes one with `y`
  obtain ⟨k, p₁, -, hTie, hSolve⟩ := hMeets.parts (top_fn ..) (top_fn ..) (by
    rintro rfl
    rw [hs.top rfl] at hb₁
    exact absurd (Monotype.var.inj hb₁) (hRigid hy hs))
  obtain ⟨u, hJoins⟩ := hTie.joins hp.acyclic (hs.top rfl) hb₁ hs hy
  have hp₁ := hTie.narrows hp hActual.1 hExpected.1
  have huz : u ≠ z := by
    rcases hJoins.either with rfl | rfl
    · exact hRigid hz hs
    · exact hyz
  have hx₁ := hJoins.kept x _ (by simpa using ⟨hsx.symm, hRigid hy hx⟩) hx
  have hv₁ := hJoins.kept v _ (by simpa using ⟨hsv.symm, hRigid hy hv⟩) hv
  have hz₁ := hJoins.kept z _ (by simpa using ⟨(hRigid hz hs).symm, hyz.symm⟩) hz
  have hb₂Top : p₁.top b₂ = .var z := by
    rw [hTie.top hp hActual.1 hExpected.1 b₂, hb₂]
    exact hz₁.top rfl
  -- the attempt leaves its traces
  obtain ⟨p₂, x', s', v', r', z', hMakes, hTurns, hBinds⟩ := hSolve.attempt hp₁.wellFormed
    (hp₁.covers hExpected.2) hb₂Top hx₁ hv₁ hxv hJoins.left hJoins.rigid hz₁ huz
  have hFresh {w t : String} (hw : w ∈ [x', s', v', r']) (ht : p₁.Binds t) : w ≠ t := by
    rintro rfl
    exact hMakes.fresh w hw ht
  have hr' : r' ∈ [x', s', v', r'] := by simp
  -- all other variables have the bounds that they had before the attempt
  have hKept : p₁.KeepsBut q [x, v, u] := by
    intro w b hw hwb
    refine hTurns.kept w b ?_ (hMakes.kept w b hwb) ((hSolve.narrows hp₁.wellFormed
      (hp₁.covers hActual.2) (hp₁.covers hExpected.2)).binds hwb.binds)
    simp only [List.mem_cons, List.not_mem_nil, or_false, not_or] at hw ⊢
    exact ⟨hw.1, hw.2.1, (hFresh hr' hwb.binds).symm, hw.2.2⟩
  -- the new variables may still be anything, but for the one that was tied
  have hNew {w : String} (hw : w ∈ [x', s', v', r']) (hwr : w ≠ r') : q.Has w .unbounded :=
    hTurns.kept w _ (by simpa using ⟨hFresh hw hx₁.binds, hFresh hw hv₁.binds, hwr,
      hFresh hw hJoins.rigid.binds⟩) (hMakes.has w hw) (hBinds w hw)
  have hz' : z ≠ z' := by
    rcases hTurns.either with rfl | rfl
    · exact (hFresh hr' hz₁.binds).symm
    · exact huz.symm
  have hzTop : q.top (.var z') = .var z' := hTurns.rigid.top rfl
  have hsTop : q.top (.var s) = q.top (.var u) := by
    rcases hJoins.left with hsu | hLink
    · rw [hsu]
    · have hsu : s ≠ u := hLink.ne hJoins.rigid (by simp)
      exact Leads.top (Or.inr (hKept s _ (by simpa using ⟨hsx, hsv, hsu⟩) hLink)) hq
  have hNodup := hMakes.nodup
  simp only [List.nodup_cons, List.mem_cons, List.not_mem_nil, or_false, not_or, ← ne_eq] at hNodup
  obtain ⟨⟨hxs₁, hxv₁, hxr₁⟩, ⟨hsv₁, hsr₁⟩, hvr₁, -⟩ := hNodup
  refine ⟨s', x', v', r', z', ?_, ?_,
    ⟨hKept z _ (by simpa using ⟨(hRigid hz hx).symm, (hRigid hz hv).symm, huz.symm⟩) hz₁,
      hTurns.rigid, hz'⟩, hTurns.first, hTurns.last,
    hsTop.trans ((hTurns.leads.2.top hq).trans hzTop), (hTurns.leads.1.top hq).trans hzTop⟩
  · simpa using ⟨hNew (by simp : s' ∈ _) hsr₁, hNew (by simp : x' ∈ _) hxr₁,
      hNew (by simp : v' ∈ _) hvr₁⟩
  · simpa using ⟨⟨hxs₁.symm, hsv₁⟩, hxv₁⟩

/-- An attempt that comes to an end is followed by another one, with less fuel. -/
theorem Turning.next (h : Turning s x v y z p a e) (hMeets : Meets n p a e q) :
    ∃ m q' s' x' v' z' w, n = m + 1 ∧ Turning s' x' v' z z' q' (.var x) w ∧
      Meets m q' (.var x) w q := by
  obtain ⟨b₁, b₂, b₃, w, heTop, hb₁, hb₂, hw, hb₃⟩ := h.expected
  have hx : p.Has x .unbounded := h.free x (by simp)
  obtain ⟨m, q', rfl, hParam, hBody⟩ := hMeets.parts h.actual heTop (by
    rintro - rfl
    rw [hx.top rfl] at hw
    cases hw)
  obtain ⟨hActual, hExpected, hxCovers, hwCovers⟩ := (Quiet.refl p).covers_parts h.wellFormed
    h.covers.1 h.covers.2 h.actual heTop (Or.inl ⟨rfl, rfl⟩)
  have hNarrows := hParam.narrows h.wellFormed hActual hExpected
  have hTops := hParam.top h.wellFormed hActual hExpected
  have hq' := hNarrows.wellFormed.acyclic
  obtain ⟨s', x', v', r', z', hTurned⟩ := h.turned hParam hActual hExpected hb₁ hb₂
  -- the bodies are `x` and `w`, and by now `x` starts with `s'` where `w` has `b₃` and `s`
  refine ⟨m, q', s', x', v', z', w, rfl, ⟨hNarrows.wellFormed,
    ⟨hNarrows.covers hxCovers, hNarrows.covers hwCovers⟩, hTurned.free, hTurned.apart, hTurned.rigid,
    hq'.top_of_solution? hTurned.first.solution?, b₃, .var s, .var r', .var v, ?_, ?_, hTurned.tops.1,
    hq'.top_of_solution? hTurned.last.solution?, hTurned.tops.2⟩, hBody⟩
  · rw [hTops w, hw, top_fn]
  · rw [hTops b₃, hb₃]
    exact hTurned.rigid.1.top rfl

/-- So such a run never comes to an end. -/
theorem Turning.not_meets (h : Turning s x v y z p a e) : ¬ Meets n p a e q := by
  -- every attempt takes fuel and leaves the same situation behind, in other variables
  induction n generalizing s x v y z p a e with
  | zero =>
    intro hMeets
    obtain ⟨m, -, -, -, -, -, -, hm, -⟩ := h.next hMeets
    cases hm
  | succ n ih =>
    intro hMeets
    obtain ⟨m, q', s', x', v', z', w, hm, hNext, hRest⟩ := h.next hMeets
    obtain rfl : n = m := by omega
    exact ih hNext hRest

/-- No fuel is enough: whatever the fuel, all of it is used up. -/
theorem within_diverges (h : Turning s x v y z p a e) (fuel : Nat) (call : Bool) (sink : Sink) :
    ∃ out, Unify.within fuel a e call ⟨p, sink⟩ = .error (.outOfFuel out) := by
  obtain ⟨o, lost, hRun, hResult⟩ := within_follows fuel a e call ⟨p, sink⟩
  cases o with
  | none => exact ⟨_, hResult⟩
  | some o => exact absurd ⟨o.2, Or.inl hRun⟩ h.not_meets

end Unify

namespace Prefix

/-! ## Prefixes where it happens -/

/-- A prefix with more variables. -/
def addAll (p : Prefix) (bs : List Binding) : Prefix := bs.foldl (fun p b => p.add b.name b.bound) p

/-- Variables that are brought in have their bounds, and all others keep theirs. -/
theorem addAll_has (hp : p.WellFormed) (hLevel : 1 ≤ p.level) {bs : List Binding}
    (hFresh : ∀ b ∈ bs, ¬ p.Binds b.name) (hNodup : (bs.map Binding.name).Nodup)
    (hNormal : ∀ b ∈ bs, b.bound.type.IsNormal) (hCovers : ∀ b ∈ bs, p.Covers b.bound.type) :
    (p.addAll bs).WellFormed ∧ (p.addAll bs).level = p.level ∧ p.KeepsBut (p.addAll bs) [] ∧
      ∀ b ∈ bs, (p.addAll bs).Has b.name b.bound := by
  induction bs generalizing p with
  | nil => exact ⟨hp, rfl, fun _ _ _ h => h, by simp⟩
  | cons b bs ih =>
    simp only [List.map_cons, List.nodup_cons, List.mem_cons, forall_eq_or_imp] at *
    -- the first variable alone
    have hGrows := add_grows hLevel hFresh.1 b.bound
    have hKept {x : String} (hx : p.Binds x) : (p.add b.name b.bound).Binds x := by
      obtain ⟨e, he⟩ := hx
      exact (Has.grows ⟨e, he, rfl⟩ hGrows).binds
    -- the others after it, none of which it is
    obtain ⟨hWell, hSame, hOld, hNew⟩ := ih (hp.add ⟨hLevel, hFresh.1, hNormal.1, hCovers.1⟩)
      (by rw [hGrows.level]; exact hLevel)
      (fun c hc => by
        have hne : c.name ≠ b.name := fun hEq => hNodup.1 (hEq ▸ List.mem_map_of_mem hc)
        rw [Binds, hGrows.find?, if_neg hne]
        exact hFresh.2 c hc)
      hNodup.2 hNormal.2 fun c hc x hx => hKept (hCovers.2 c hc x hx)
    exact ⟨hWell, hSame.trans hGrows.level, fun x b' hx hb => hOld x b' hx (hb.grows hGrows),
      hOld _ _ List.not_mem_nil hGrows.has, hNew⟩

/-- Two variables with the wheel as their rigid bound, and three without bounds. -/
def spokes : List Binding :=
  [⟨"ya", ⟨.rigid, wheel⟩⟩, ⟨"yb", ⟨.rigid, wheel⟩⟩, ⟨"x", .unbounded⟩, ⟨"s", .unbounded⟩,
    ⟨"v", .unbounded⟩]

end Prefix

namespace Unify

/-- The two types on which a run does not end. -/
def actualTurn : Monotype := lead "s" "x" "v"

@[inherit_doc actualTurn]
def expectedTurn : Monotype := .fn (.fn (.var "yb") (.var "ya")) (rest "ya" "s" "v")

/-- Every prefix can be extended to one where a run does not end, by five variables. -/
theorem turning_spokes (hp : p.WellFormed) (hLevel : 1 ≤ p.level)
    (hFresh : ∀ b ∈ spokes, ¬ p.Binds b.name) :
    Turning "s" "x" "v" "yb" "ya" (p.addAll spokes) actualTurn expectedTurn ∧
      (p.addAll spokes).level = p.level := by
  -- the new variables have their bounds, and nothing else about the prefix matters
  obtain ⟨hWell, hSame, -, hHas⟩ := addAll_has hp hLevel hFresh (by decide)
    (by simp [spokes, isNormal_wheel, Bound.unbounded])
    (by simp [spokes, covers_unbounded, covers_wheel])
  generalize p.addAll spokes = q at hWell hSame hHas
  simp only [spokes, List.mem_cons, List.not_mem_nil, or_false, forall_eq_or_imp, forall_eq] at hHas
  obtain ⟨hya, hyb, hx, hs, hv⟩ := hHas
  refine ⟨⟨hWell, ⟨?_, ?_⟩, ?_, by decide, ⟨hyb, hya, by decide⟩, rfl, .var "yb", .var "ya",
    .var "ya", rest "ya" "s" "v", rfl, hyb.top rfl, hya.top rfl, rfl, hya.top rfl⟩, hSame⟩
  · simp [actualTurn, lead, tail, covers_fn, covers_var, covers_const, hx.binds, hs.binds, hv.binds]
  · simp [expectedTurn, rest, covers_fn, covers_var, hya.binds, hyb.binds, hs.binds, hv.binds]
  · simpa using ⟨hs, hx, hv⟩

end Unify

end Mlf
