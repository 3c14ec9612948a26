import Mlf.Proofs.WellFormed

/-!
# Solutions of a prefix

A solution of a prefix gives each variable an instance of its bound. A valuation may also solve a
prefix on some names only; what it gives to the others is then left open.

Solutions follow mentions. What a variable reaches is worth no more than the variable, and is
determined by its value. In the other direction nothing is forced: a valuation that solves a prefix
on names that mention only each other extends to a solution, because every bound has an instance.

Main results:

* `SolvedOn.height_le`, `SolvedOn.eq_of_reaches` — along mentions;
* `SolvedOn.exists_solution` — against mentions;
* `SolvedOn.eval_top` — replacing a solved variable keeps the value of a type;
* `Updates.solvedOn_iff` — the solutions after a change of bound.
-/

namespace Mlf

open Relation

variable {p : Prefix} {Z : Set String} {r r' : Valuation}

namespace Prefix

/-- A valuation gives each of the names in `Z` that are in play an instance of its bound. -/
def SolvedOn (p : Prefix) (r : Valuation) (Z : Set String) : Prop :=
  ∀ x ∈ Z, ∀ e, p.find? x = some e → r x ∈ e.bound.type.Inst r

/-- A valuation gives each variable an instance of its bound. -/
def IsSolution (p : Prefix) (r : Valuation) : Prop :=
  ∀ x e, p.find? x = some e → r x ∈ e.bound.type.Inst r

theorem isSolution_iff : p.IsSolution r ↔ p.SolvedOn r Set.univ :=
  ⟨fun h x _ => h x, fun h x => h x trivial⟩

theorem IsSolution.solvedOn (h : p.IsSolution r) (Z : Set String) : p.SolvedOn r Z := fun x _ => h x

theorem SolvedOn.mono {Z' : Set String} (h : p.SolvedOn r Z) (hSub : ∀ x ∈ Z', p.Binds x → x ∈ Z) :
    p.SolvedOn r Z' :=
  fun x hx e he => h x (hSub x hx ⟨e, he⟩) e he

/-- Only the values of the variables matter. -/
theorem SolvedOn.congr_values (h : p.SolvedOn r Z) (hSame : ∀ x ∈ Z, p.Binds x → r' x = r x)
    (hMentioned : ∀ x ∈ Z, ∀ y, p.Mentions x y → r' y = r y) : p.SolvedOn r' Z := by
  intro x hx e he
  have hInst : e.bound.type.Inst r' = e.bound.type.Inst r :=
    Polytype.Inst_congr fun y hy => hMentioned x hx y ⟨e, he, hy⟩
  rw [hSame x hx ⟨e, he⟩, hInst]
  exact h x hx e he

theorem SolvedOn.congr_binds (hScoped : p.Scoped) (h : p.SolvedOn r Z)
    (hSame : ∀ x, p.Binds x → r' x = r x) : p.SolvedOn r' Z :=
  h.congr_values (fun x _ => hSame x) fun _ _ y hxy => hSame y (hScoped.binds hxy)

theorem IsSolution.congr (hScoped : p.Scoped) (h : p.IsSolution r)
    (hSame : ∀ x, p.Binds x → r' x = r x) : p.IsSolution r' :=
  isSolution_iff.2 ((h.solvedOn _).congr_binds hScoped hSame)

theorem Covers.eval_congr {t : Monotype} (h : p.Covers t) (hSame : ∀ x, p.Binds x → r' x = r x) :
    t.eval r' = t.eval r :=
  Monotype.eval_congr fun x hx => hSame x (h x hx)

theorem Covers.Inst_congr {t : Polytype} (h : p.Covers t) (hSame : ∀ x, p.Binds x → r' x = r x) :
    t.Inst r' = t.Inst r :=
  Polytype.Inst_congr fun x hx => hSame x (h x hx)

/-! ## Along mentions -/

/-- What a variable reaches is worth no more than the variable. -/
theorem SolvedOn.height_le (hp : p.WellFormed) (h : p.SolvedOn r Z) {x y : String}
    (hZ : ∀ z, p.Reaches x z → z ∈ Z) (hxy : p.Reaches x y) : (r y).height ≤ (r x).height := by
  induction hxy with
  | refl => exact Nat.le_refl _
  | @tail a b hxa hab ih =>
    obtain ⟨e, he, hb⟩ := hab
    exact Nat.le_trans ((hp.normal a e he).height_le hb (h a (hZ a hxa) e he)) ih

/-- The value of a variable determines the values of what it reaches. -/
theorem SolvedOn.eq_of_reaches (hp : p.WellFormed) (h : p.SolvedOn r Z) (h' : p.SolvedOn r' Z)
    {x y : String} (hZ : ∀ z, p.Reaches x z → z ∈ Z) (hEq : r x = r' x) (hxy : p.Reaches x y) :
    r y = r' y := by
  induction hxy with
  | refl => exact hEq
  | @tail a b hxa hab ih =>
    obtain ⟨e, he, hb⟩ := hab
    have hInst' := h' a (hZ a hxa) e he
    rw [← ih] at hInst'
    exact (hp.normal a e he).eq_of_mem_Inst hb (h a (hZ a hxa) e he) hInst'

/-- Going on from a variable to the end of its solutions keeps the value of a type. -/
theorem SolvedOn.eval_top (h : p.SolvedOn r Z) {t : Monotype}
    (hZ : ∀ x ∈ t.freeVars, ∀ z, p.Reaches x z → z ∈ Z) : (p.top t).eval r = t.eval r := by
  unfold top
  generalize p.size + 1 = n
  fun_induction follow p n t with
  | case1 t => rfl
  | case2 n x hNone => rfl
  | case3 n x m hSome ih =>
    obtain ⟨e, he, ht⟩ := solution?_eq_some.1 hSome
    have hx : x ∈ (Monotype.var x).freeVars := by simp [Monotype.freeVars]
    have hMem := h x (hZ x hx x .refl) e he
    rw [ht, Polytype.Inst_mono] at hMem
    rw [ih, Monotype.eval, show r x = m.eval r from hMem]
    exact fun y hy z hyz => hZ x hx z (.head ⟨e, he, by rw [ht]; exact hy⟩ hyz)
  | case4 n t hNotVar => rfl

/-! ## Against mentions -/

/-- A valuation that solves an acyclic prefix on names that mention only each other extends to a
solution: the other variables can be given values one after the other, each after what it mentions.
-/
theorem SolvedOn.exists_solution (hAcyclic : p.Acyclic) (h : p.SolvedOn r Z)
    (hClosed : ∀ x ∈ Z, ∀ y, p.Mentions x y → y ∈ Z) :
    ∃ r', (∀ x, x ∈ Z ∨ ¬ p.Binds x → r' x = r x) ∧ p.IsSolution r' := by
  classical
  -- one value, given those of the names that the variable mentions
  have next (x : String) (before : ∀ y, p.Mentions x y → Ground) :
      ∃ g, (x ∈ Z ∨ ¬ p.Binds x → g = r x) ∧
        ∀ e, p.find? x = some e → x ∉ Z → ∀ r' : Valuation,
          (∀ y (hy : p.Mentions x y), r' y = before y hy) → g ∈ e.bound.type.Inst r' := by
    by_cases hOld : x ∈ Z ∨ ¬ p.Binds x
    · refine ⟨r x, fun _ => rfl, fun e he hx => ?_⟩
      exact absurd hOld (not_or.2 ⟨hx, not_not.2 ⟨e, he⟩⟩)
    · -- any instance of the bound will do, under the values of what the bound mentions
      obtain ⟨e, he⟩ := not_not.1 (not_or.1 hOld).2
      let values : Valuation := fun y => if hy : p.Mentions x y then before y hy else r y
      obtain ⟨g, hg⟩ := e.bound.type.Inst_nonempty values
      refine ⟨g, fun h => absurd h hOld, fun e' he' _ r' hr' => ?_⟩
      obtain rfl := Option.some.inj (he.symm.trans he')
      have hValues (y : String) (hy : y ∈ e.bound.type.freeVars) : r' y = values y := by
        have hMentions : p.Mentions x y := ⟨e, he, hy⟩
        rw [hr' y hMentions]
        exact (dif_pos hMentions).symm
      rwa [Polytype.Inst_congr hValues]
  choose value hKept hNew using next
  let r' := hAcyclic.wellFounded.fix value
  have hValue (x : String) : r' x = value x fun y _ => r' y := hAcyclic.wellFounded.fix_eq value x
  have hSame (x : String) (hx : x ∈ Z ∨ ¬ p.Binds x) : r' x = r x := by
    rw [hValue]
    exact hKept x _ hx
  refine ⟨r', hSame, fun x e he => ?_⟩
  by_cases hx : x ∈ Z
  · -- a name that has its value already mentions only such names
    have hInst : e.bound.type.Inst r' = e.bound.type.Inst r :=
      Polytype.Inst_congr fun y hy => hSame y (Or.inl (hClosed x hx y ⟨e, he, hy⟩))
    rw [hInst, hSame x (Or.inl hx)]
    exact h x hx e he
  · rw [hValue]
    exact hNew x _ e he hx r' fun _ _ => rfl

theorem Acyclic.exists_isSolution (hp : p.Acyclic) : ∃ r, p.IsSolution r := by
  have hNone : p.SolvedOn (fun _ => default) ∅ := by
    intro x hx
    cases hx
  obtain ⟨r, -, hr⟩ := hNone.exists_solution hp (by simp)
  exact ⟨r, hr⟩

/-! ## New bounds -/

/-- The solutions after a variable got a new bound. -/
theorem Updates.solvedOn_iff {q : Prefix} {x : String} {b : Bound} (h : p.Updates q x b)
    (hx : p.Binds x) : q.SolvedOn r Z ↔ p.SolvedOn r (Z \ {x}) ∧ (x ∈ Z → r x ∈ b.type.Inst r) := by
  constructor
  · intro hq
    refine ⟨?_, fun hxZ => ?_⟩
    · -- other variables keep their bounds, though perhaps not their levels
      rintro y ⟨hy, hyx⟩ e he
      obtain ⟨l, hNew, -⟩ := h.bound y e he
      rw [if_neg (show y ≠ x from hyx)] at hNew
      exact hq y hy ⟨l, e.bound⟩ hNew
    · obtain ⟨e, he⟩ := hx
      obtain ⟨l, hNew, -⟩ := h.bound x e he
      rw [if_pos rfl] at hNew
      exact hq x hxZ ⟨l, b⟩ hNew
  · rintro ⟨hp, hBound⟩ y hy e he
    obtain ⟨e₀, he₀⟩ := (h.binds y).1 ⟨e, he⟩
    obtain ⟨l, hNew, -⟩ := h.bound y e₀ he₀
    obtain rfl := Option.some.inj (hNew.symm.trans he)
    by_cases hyx : y = x
    · subst hyx
      rw [if_pos rfl]
      exact hBound hy
    · rw [if_neg hyx]
      exact hp y ⟨hy, hyx⟩ e₀ he₀

end Prefix

end Mlf
