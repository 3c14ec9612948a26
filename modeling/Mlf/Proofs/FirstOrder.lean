import Mathlib
import Mlf.Proofs.Agreement
import Mlf.Proofs.Layouts
import Mlf.Proofs.UnifySteps

/-!
# First-order unification

Where no bound has quantifiers, a variable is solved, or may be anything, or is rigid without a
bound and so an unknown constant. Unification is then first-order unification over these constants:
it succeeds if some substitution of the variables that may be anything makes the two types the same,
and what it leaves behind is a most general one.

What is carried through a run are the readings of names that realize a prefix. They see through
solutions and give the constants names of their own. A run keeps exactly those of them that make the
two types the same, and if it reports anything, there are none. Readings fit this better than
substitutions, since an older variable that becomes one with a constant takes over its place: the
constant is then a solved variable, and the reading does not notice.

Main results:

* `Linked.realizes_iff`, `solve_realizes` — variables that are tied;
* `run_firstOrder` — a run keeps exactly the realizations that make the types the same;
* `Realizes.exists_assigns` — a realization with names for values gives a substitution;
* `unify_first_order` — first-order unification.
-/

namespace Mlf

open Prefix Relation

namespace Prefix

variable {V : Type} {p q : Prefix} {ρ : Reading V} {x y : String}

/-! ## Realizations -/

/-- A rigid variable without a bound. -/
def Constant (p : Prefix) (x : String) : Prop := p.Has x ⟨.rigid, .bottom⟩

/-- A reading that sees through solutions and gives constants names of their own. -/
structure Realizes (p : Prefix) (ρ : Reading V) : Prop where
  sees : p.Sees ρ
  named : ∀ x, p.Constant x → ∃ v, ρ x = .var v
  apart : ∀ x y, p.Constant x → p.Constant y → ρ x = ρ y → x = y

theorem solution?_eq_some_iff_has {m : Monotype} :
    p.solution? x = some m ↔ ∃ k, p.Has x ⟨k, .mono m⟩ := by
  rw [solution?_eq_some]
  constructor
  · rintro ⟨e, he, hm⟩
    exact ⟨e.bound.kind, e, he, by rw [← hm]⟩
  · rintro ⟨k, e, he, hb⟩
    exact ⟨e, he, by rw [hb]⟩

theorem sees_iff : p.Sees ρ ↔ ∀ x k m, p.Has x ⟨k, .mono m⟩ → ρ x = m.nameless ρ := by
  constructor
  · intro h x k m hx
    exact h x m (solution?_eq_some_iff_has.2 ⟨k, hx⟩)
  · intro h x m hx
    obtain ⟨k, hx⟩ := solution?_eq_some_iff_has.1 hx
    exact h x k m hx

theorem Quiet.has_iff (h : p.Quiet q) {b : Bound} : q.Has x b ↔ p.Has x b := by
  simp only [Has, h.find?]

/-- A realization of one prefix realizes another one with no more constants, if it sees through the
solutions of that one. -/
theorem Realizes.of_sees (h : p.Realizes ρ) (hConstant : ∀ x, q.Constant x → p.Constant x)
    (hSees : q.Sees ρ) : q.Realizes ρ where
  sees := hSees
  named x hx := h.named x (hConstant x hx)
  apart x y hx hy := h.apart x y (hConstant x hx) (hConstant y hy)

theorem Quiet.realizes_iff (h : p.Quiet q) : q.Realizes ρ ↔ p.Realizes ρ := by
  have hSees : q.Sees ρ ↔ p.Sees ρ := by simp only [Sees, h.solution?]
  constructor
  · intro hρ
    exact hρ.of_sees (fun x hx => h.has_iff.2 hx) (hSees.1 hρ.sees)
  · intro hρ
    exact hρ.of_sees (fun x hx => h.has_iff.1 hx) (hSees.2 hρ.sees)

theorem Updates.has_iff {b c : Bound} (h : p.Updates q x b) (hx : p.Binds x) :
    q.Has y c ↔ if y = x then c = b else p.Has y c := by
  split_ifs with hyx
  · subst hyx
    exact ⟨fun hy => hy.eq (h.has hx), fun hc => hc ▸ h.has hx⟩
  · refine ⟨fun hy => ?_, fun hy => hy.updates h hyx⟩
    obtain ⟨e, he⟩ := (h.binds y).1 hy.binds
    have hOld : q.Has y e.bound := Has.updates ⟨e, he, rfl⟩ h hyx
    exact ⟨e, he, hOld.eq hy⟩

/-- A variable that may be anything is solved. -/
theorem solve_realizes {t : Monotype} (hx : p.Has x .unbounded)
    (hUpdates : p.Updates q x ⟨.flexible, .mono t⟩) :
    q.Realizes ρ ↔ p.Realizes ρ ∧ ρ x = t.nameless ρ := by
  have hHas {y : String} {c : Bound} :
      q.Has y c ↔ if y = x then c = ⟨.flexible, .mono t⟩ else p.Has y c :=
    hUpdates.has_iff hx.binds
  -- the variable is no constant before and none afterwards
  have hConstant (y : String) : q.Constant y ↔ p.Constant y := by
    rw [Constant, hHas]
    split_ifs with hyx
    · subst hyx
      refine iff_of_false (by simp) fun hy => ?_
      cases hy.eq hx
    · rfl
  -- one more solution to see through
  have hSees : q.Sees ρ ↔ p.Sees ρ ∧ ρ x = t.nameless ρ := by
    rw [sees_iff, sees_iff]
    constructor
    · intro h
      refine ⟨fun y k m hy => h y k m ?_, h x .flexible t (by rw [hHas, if_pos rfl])⟩
      rw [hHas, if_neg (hy.ne hx (by simp [Bound.unbounded]))]
      exact hy
    · rintro ⟨h, hSelf⟩ y k m hy
      rw [hHas] at hy
      split_ifs at hy with hyx
      · cases hy
        rw [hyx, hSelf]
      · exact h y k m hy
  constructor
  · -- and so for readings, in both directions
    intro hρ
    obtain ⟨hOld, hSelf⟩ := hSees.1 hρ.sees
    exact ⟨hρ.of_sees (fun y hy => (hConstant y).2 hy) hOld, hSelf⟩
  · rintro ⟨hρ, hSelf⟩
    exact hρ.of_sees (fun y hy => (hConstant y).1 hy) (hSees.2 ⟨hρ.sees, hSelf⟩)

/-! ## Variables that become one -/

/-- Afterwards `y` stands for `x`, which is a constant if one of the two was. -/
structure Linked (p q : Prefix) (x y : String) : Prop where
  ne : x ≠ y
  before : (∃ k, p.Has x ⟨k, .bottom⟩) ∧ ∃ k, p.Has y ⟨k, .bottom⟩
  stays : ∃ k, q.Has x ⟨k, .bottom⟩
  goes : q.Has y ⟨.flexible, .mono (.var x)⟩
  others : ∀ z c, z ≠ x → z ≠ y → (q.Has z c ↔ p.Has z c)
  constant : q.Constant x ↔ p.Constant x ∨ p.Constant y
  movable : ¬ (p.Constant x ∧ p.Constant y)

theorem Linked.sees_iff (h : Linked p q x y) : q.Sees ρ ↔ p.Sees ρ ∧ ρ x = ρ y := by
  obtain ⟨⟨kx, hx⟩, ky, hy⟩ := h.before
  obtain ⟨k, hx'⟩ := h.stays
  rw [Prefix.sees_iff, Prefix.sees_iff]
  constructor
  · intro hs
    refine ⟨fun z j m hz => hs z j m ?_, (hs y _ _ h.goes).symm⟩
    exact (h.others z _ (hz.ne hx (by simp)) (hz.ne hy (by simp))).2 hz
  · rintro ⟨hs, hSame⟩ z j m hz
    -- the link itself, and all other solutions
    by_cases hzy : z = y
    · subst hzy
      cases hz.eq h.goes
      exact hSame.symm
    · exact hs z j m ((h.others z _ (hz.ne hx' (by simp)) hzy).1 hz)

/-- The place of a constant is kept, or taken over by the variable that stays. -/
theorem Linked.constant_after (h : Linked p q x y) {z : String} (hz : p.Constant z) :
    ∃ z', q.Constant z' ∧ ((z ≠ y ∧ z' = z) ∨ (z = y ∧ z' = x)) := by
  by_cases hzy : z = y
  · exact ⟨x, h.constant.2 (Or.inr (hzy ▸ hz)), Or.inr ⟨hzy, rfl⟩⟩
  · refine ⟨z, ?_, Or.inl ⟨hzy, rfl⟩⟩
    by_cases hzx : z = x
    · subst hzx
      exact h.constant.2 (Or.inl hz)
    · exact (h.others z _ hzx hzy).2 hz

/-- A constant was one before, or took over the place of the variable that goes. -/
theorem Linked.constant_before (h : Linked p q x y) {z : String} (hz : q.Constant z) :
    z ≠ y ∧ ∃ z', p.Constant z' ∧ (z' = z ∨ (z = x ∧ z' = y)) := by
  have hzy : z ≠ y := hz.ne h.goes (by simp)
  refine ⟨hzy, ?_⟩
  by_cases hzx : z = x
  · subst hzx
    -- the variable that stays is a constant because it was one, or because the other one was
    rcases h.constant.1 hz with hx | hy
    · exact ⟨z, hx, Or.inl rfl⟩
    · exact ⟨y, hy, Or.inr ⟨rfl, rfl⟩⟩
  · exact ⟨z, (h.others z _ hzx hzy).1 hz, Or.inl rfl⟩

/-- The realizations that are left once two variables are one: those that read them alike. -/
theorem Linked.realizes_iff (h : Linked p q x y) :
    q.Realizes ρ ↔ p.Realizes ρ ∧ ρ x = ρ y := by
  constructor
  · -- a constant is found at its place afterwards, and is read as before
    rintro ⟨hs, hn, ha⟩
    obtain ⟨hs, hSame⟩ := h.sees_iff.1 hs
    have hRead {z z' : String} (hPlace : (z ≠ y ∧ z' = z) ∨ (z = y ∧ z' = x)) : ρ z' = ρ z := by
      rcases hPlace with ⟨-, rfl⟩ | ⟨rfl, rfl⟩
      · rfl
      · exact hSame
    refine ⟨⟨hs, fun z hz => ?_, fun z w hz hw hzw => ?_⟩, hSame⟩
    · obtain ⟨z', hz', hPlace⟩ := h.constant_after hz
      rw [← hRead hPlace]
      exact hn z' hz'
    · obtain ⟨z', hz', hzPlace⟩ := h.constant_after hz
      obtain ⟨w', hw', hwPlace⟩ := h.constant_after hw
      have hEq : z' = w' := ha z' w' hz' hw' (by rw [hRead hzPlace, hRead hwPlace, hzw])
      -- two constants come to one place only if both variables were constants
      rcases hzPlace with ⟨-, rfl⟩ | ⟨rfl, rfl⟩ <;> rcases hwPlace with ⟨-, rfl⟩ | ⟨rfl, rfl⟩
      · exact hEq
      · exact absurd ⟨hEq ▸ hz, hw⟩ h.movable
      · exact absurd ⟨hEq ▸ hw, hz⟩ h.movable
      · rfl
  · rintro ⟨⟨hs, hn, ha⟩, hSame⟩
    have hRead {z z' : String} (hPlace : z' = z ∨ (z = x ∧ z' = y)) : ρ z' = ρ z := by
      rcases hPlace with rfl | ⟨rfl, rfl⟩
      · rfl
      · exact hSame.symm
    refine ⟨h.sees_iff.2 ⟨hs, hSame⟩, fun z hz => ?_, fun z w hz hw hzw => ?_⟩
    · obtain ⟨-, z', hz', hPlace⟩ := h.constant_before hz
      rw [← hRead hPlace]
      exact hn z' hz'
    · obtain ⟨hzy, z', hz', hzPlace⟩ := h.constant_before hz
      obtain ⟨hwy, w', hw', hwPlace⟩ := h.constant_before hw
      have hEq : z' = w' := ha z' w' hz' hw' (by rw [hRead hzPlace, hRead hwPlace, hzw])
      -- the variable that goes is no constant afterwards
      rcases hzPlace with rfl | ⟨rfl, rfl⟩ <;> rcases hwPlace with rfl | ⟨rfl, rfl⟩
      · exact hEq
      · exact absurd hEq hzy
      · exact absurd hEq.symm hwy
      · rfl

/-- A variable gets the bound of both, and the other one is linked to it. -/
theorem linked_of_updates {s : Prefix} {k k₁ k₂ : BoundKind} (hx : p.Has x ⟨k₁, .bottom⟩)
    (hy : p.Has y ⟨k₂, .bottom⟩) (hne : x ≠ y) (hKind : k = .rigid ↔ k₁ = .rigid ∨ k₂ = .rigid)
    (hMovable : ¬ (k₁ = .rigid ∧ k₂ = .rigid)) (hStays : p.Updates s x ⟨k, .bottom⟩)
    (hGoes : s.Updates q y ⟨.flexible, .mono (.var x)⟩) : Linked p q x y := by
  -- the bounds after both steps
  have hHas {z : String} {c : Bound} : q.Has z c ↔
      if z = y then c = ⟨.flexible, .mono (.var x)⟩ else
        if z = x then c = ⟨k, .bottom⟩ else p.Has z c := by
    rw [hGoes.has_iff ((hStays.binds y).2 hy.binds), hStays.has_iff hx.binds]
  -- for variables without bounds, to be a constant is to be rigid
  have hConstant {p : Prefix} {z : String} {k : BoundKind} (hz : p.Has z ⟨k, .bottom⟩) :
      p.Constant z ↔ k = .rigid := by
    constructor
    · intro hRigid
      cases hz.eq hRigid
      rfl
    · rintro rfl
      exact hz
  have hx' : q.Has x ⟨k, .bottom⟩ := by rw [hHas, if_neg hne, if_pos rfl]
  have hy' : q.Has y ⟨.flexible, .mono (.var x)⟩ := by rw [hHas, if_pos rfl]
  refine ⟨hne, ⟨⟨k₁, hx⟩, k₂, hy⟩, ⟨k, hx'⟩, hy', fun z c hzx hzy => ?_, ?_, ?_⟩
  · rw [hHas, if_neg hzy, if_neg hzx]
  · rw [hConstant hx', hConstant hx, hConstant hy, hKind]
  · rwa [hConstant hx, hConstant hy]

/-- Two variables become one. -/
theorem merge_realizes {k₁ k₂ : BoundKind} (hx : p.Has x ⟨k₁, .bottom⟩) (hy : p.Has y ⟨k₂, .bottom⟩)
    (hne : x ≠ y) (hMovable : ¬ (k₁ = .rigid ∧ k₂ = .rigid)) :
    (p.merge x y ⟨if k₁ = .rigid ∨ k₂ = .rigid then .rigid else .flexible, .bottom⟩).2.Realizes ρ ↔
      p.Realizes ρ ∧ ρ x = ρ y := by
  have hKind : (if k₁ = .rigid ∨ k₂ = .rigid then BoundKind.rigid else .flexible) = .rigid ↔
      k₁ = .rigid ∨ k₂ = .rigid := by
    split_ifs with h <;> simp [h]
  -- only whether the new bound is rigid matters
  generalize (if k₁ = .rigid ∨ k₂ = .rigid then BoundKind.rigid else .flexible) = k at hKind ⊢
  obtain ⟨stays, goes, hWhich, hEq⟩ := merge_eq hx.binds hy.binds ⟨k, .bottom⟩
  rw [hEq]
  rcases hWhich with ⟨rfl, rfl⟩ | ⟨rfl, rfl⟩
  · have hFirst := update_updates hx.binds ⟨k, .bottom⟩
    exact (linked_of_updates hx hy hne hKind hMovable hFirst
      (update_updates ((hFirst.binds goes).2 hy.binds) _)).realizes_iff
  · have hFirst := update_updates hy.binds ⟨k, .bottom⟩
    rw [eq_comm (a := ρ goes)]
    exact (linked_of_updates hy hx hne.symm (hKind.trans or_comm) (fun h => hMovable h.symm) hFirst
      (update_updates ((hFirst.binds goes).2 hx.binds) _)).realizes_iff

/-- A realization gives every variable an instance of its bound, where no bound has quantifiers. -/
theorem Realizes.isSolution (h : p.Realizes ρ) (hPlain : p.PlainOn Set.univ) (v : V → Ground) :
    p.IsSolution fun x => (ρ x).eval v := by
  intro x e he
  rcases hPlain x trivial e he with hBottom | ⟨m, hm⟩
  · rw [hBottom]
    trivial
  · rw [hm]
    show (ρ x).eval v = m.eval fun x => (ρ x).eval v
    rw [h.sees x m (solution?_eq_some.2 ⟨e, he, hm⟩), Monotype.eval_nameless]

/-- There are no infinite types: what is read like a variable does not lead to it. -/
theorem Realizes.not_occurs (h : p.Realizes ρ) (hp : p.WellFormed) (hPlain : p.PlainOn Set.univ)
    {t : Monotype} (ht : ∀ y, t ≠ .var y) (hEq : ρ x = t.nameless ρ) : p.occurs x t = false := by
  rw [Bool.eq_false_iff]
  intro hOccurs
  -- in ground types the variable would be worth less than itself
  have hr := h.isSolution hPlain fun _ => .const .number
  have hLt := Unify.height_lt_of_occurs hp (Polytype.isNormal_mono t) (fun y => by simpa using ht y)
    hOccurs hr rfl
  rw [hEq, Monotype.eval_nameless] at hLt
  exact Nat.lt_irrefl _ hLt

end Prefix

namespace Unify

/-! ## Steps and runs -/

/-- Runs keep exactly the realizations that make the two types the same, and if they report
anything, there are none. -/
def FirstOrder (R : Behavior) : Prop :=
  ∀ {p q : Prefix} {a e : Monotype} {ds : List Diagnostic}, R p a e (some (q, ds)) →
    p.WellFormed → p.PlainOn Set.univ → p.Covers a → p.Covers e →
    ∀ {V : Type} {ρ : Reading V},
      p.Realizes ρ ∧ a.nameless ρ = e.nameless ρ ↔ ds = [] ∧ q.Realizes ρ

variable {R : Behavior} {p q : Prefix} {x y : String} {ex ey : Entry} {ds : List Diagnostic}
  {V : Type} {ρ : Reading V}

/-- Two variables become one, unless both are constants. -/
theorem TieRun.merge_firstOrder (h : TieRun R p (.merge x y ex.bound ey.bound) (some (q, ds)))
    (hx : p.find? x = some ex) (hy : p.find? y = some ey) (hne : x ≠ y)
    (hxOpen : ex.bound.type = .bottom) (hyOpen : ey.bound.type = .bottom) :
    p.Realizes ρ ∧ ρ x = ρ y ↔ ds = [] ∧ q.Realizes ρ := by
  have hxHas : p.Has x ⟨ex.bound.kind, .bottom⟩ := ⟨ex, hx, by rw [← hxOpen]⟩
  have hyHas : p.Has y ⟨ey.bound.kind, .bottom⟩ := ⟨ey, hy, by rw [← hyOpen]⟩
  -- there is nothing to unify about bounds that say nothing
  have hBottom : (Tie.merge x y ex.bound ey.bound).actual = .bottom ∨
      (Tie.merge x y ex.bound ey.bound).expected = .bottom := Or.inl hxOpen
  cases h with
  | clash _ _ _ _ hBounds =>
    -- two constants
    refine iff_of_false (fun ⟨hρ, hEq⟩ => hne (hρ.apart x y ?_ ?_ hEq)) (by simp)
    · rwa [hBounds ex.bound (by simp [Tie.merge])] at hxHas
    · rwa [hBounds ey.bound (by simp [Tie.merge])] at hyHas
  | cycle _ hOccurs =>
    -- nothing occurs in a type without names
    simp [Tie.merge, hxOpen, hyOpen, not_occurs_bottom] at hOccurs
  | failed hPoly =>
    obtain ⟨-, hNil, -⟩ := hPoly.eq_of_bottom hBottom
    cases hNil
  | @rigid _ _ _ t hPoly _ hDiffer =>
    obtain ⟨-, -, ht⟩ := hPoly.eq_of_bottom hBottom
    obtain rfl : t = .bottom := by simpa [Tie.merge, hxOpen, hyOpen] using ht
    simp [Tie.merge, hxOpen, hyOpen, equivalent_refl] at hDiffer
  | @knot _ _ _ t z hPoly _ hOccurs =>
    obtain ⟨-, -, ht⟩ := hPoly.eq_of_bottom hBottom
    obtain rfl : t = .bottom := by simpa [Tie.merge, hxOpen, hyOpen] using ht
    simp [Tie.merge, not_occurs_bottom] at hOccurs
  | @tied q₁ q₂ t hBegins hPoly hQuiet =>
    obtain ⟨rfl, -, ht⟩ := hPoly.eq_of_bottom hBottom
    obtain rfl : t = .bottom := by simpa [Tie.merge, hxOpen, hyOpen] using ht
    have hMovable : ¬ (ex.bound.kind = .rigid ∧ ey.bound.kind = .rigid) := fun hBoth =>
      hBegins.movable ⟨hxOpen, hyOpen, by simpa [Tie.merge] using hBoth⟩
    rw [← hQuiet.realizes_iff]
    exact (merge_realizes (hxHas.quiet hQuiet) (hyHas.quiet hQuiet) hne hMovable).symm.trans
      (and_iff_right rfl).symm

/-- A variable is solved, unless it is a constant or the type leads to it. -/
theorem TieRun.solve_firstOrder {t : Monotype} {swapped : Bool}
    (h : TieRun R p (.solve x ex.bound t swapped) (some (q, ds))) (hp : p.WellFormed)
    (hPlain : p.PlainOn Set.univ) (hx : p.find? x = some ex) (ht : ∀ y, t ≠ .var y)
    (hxOpen : ex.bound.type = .bottom) :
    p.Realizes ρ ∧ ρ x = t.nameless ρ ↔ ds = [] ∧ q.Realizes ρ := by
  have hxHas : p.Has x ⟨ex.bound.kind, .bottom⟩ := ⟨ex, hx, by rw [← hxOpen]⟩
  have hBottom : (Tie.solve x ex.bound t swapped).actual = .bottom ∨
      (Tie.solve x ex.bound t swapped).expected = .bottom := by
    cases swapped <;> simp [Tie.solve, hxOpen]
  -- a constant is not read like a type that is no variable
  have hRigid (hKind : ex.bound.kind = .rigid) : ¬ (p.Realizes ρ ∧ ρ x = t.nameless ρ) := by
    rintro ⟨hρ, hEq⟩
    obtain ⟨v, hv⟩ := hρ.named x (by rwa [hKind] at hxHas)
    rw [hv] at hEq
    cases t with
    | var y => exact ht y rfl
    | const c => cases hEq
    | fn a b => cases hEq
  -- nor is a variable read like a larger type that leads to it
  have hFinite (hOccurs : p.occurs x t = true) : ¬ (p.Realizes ρ ∧ ρ x = t.nameless ρ) := by
    rintro ⟨hρ, hEq⟩
    rw [hρ.not_occurs hp hPlain ht hEq] at hOccurs
    cases hOccurs
  cases h with
  | clash hKind => exact iff_of_false (hRigid hKind) (by simp)
  | @cycle _ _ z hz hOccurs =>
    obtain rfl : z = x := by simpa [Tie.solve] using hz
    refine iff_of_false (hFinite ?_) (by simp)
    cases swapped <;> simpa [Tie.solve, hxOpen, not_occurs_bottom] using hOccurs
  | failed hPoly =>
    obtain ⟨-, hNil, -⟩ := hPoly.eq_of_bottom hBottom
    cases hNil
  | rigid _ hKind => exact iff_of_false (hRigid hKind) (by simp)
  | @knot _ _ _ _ z hPoly hz hOccurs =>
    obtain rfl : z = x := by simpa [Tie.solve] using hz
    obtain ⟨rfl, -, -⟩ := hPoly.eq_of_bottom hBottom
    exact iff_of_false (hFinite hOccurs) (by simp)
  | @tied q₁ q₂ u hBegins hPoly hQuiet _ hSame =>
    obtain ⟨rfl, -, -⟩ := hPoly.eq_of_bottom hBottom
    -- nothing is equivalent to a rigid bound but the bound
    have hFlexible : ex.bound.kind = .flexible := by
      cases hKind : ex.bound.kind with
      | flexible => rfl
      | rigid =>
        have hEquiv : (q₂.resolved (.mono t)).equivalent (q₂.resolved ex.bound.type) = true :=
          hSame ex.bound (by simp [Tie.solve]) hKind
        rw [hxOpen] at hEquiv
        have hMono := (mono?_eq_none_iff_of_equivalent (Polytype.isNormal_mono t)
          Polytype.isNormal_bottom hEquiv).2 rfl
        cases hMono
    rw [hFlexible] at hxHas
    have hxHas' : q₂.Has x .unbounded := hxHas.quiet hQuiet
    rw [← hQuiet.realizes_iff]
    show _ ↔ [] = [] ∧ (q₂.update x ⟨ex.bound.kind, .mono t⟩).Realizes ρ
    -- the variable may be anything and is solved
    rw [hFlexible, solve_realizes hxHas' (update_updates hxHas'.binds _)]
    exact (and_iff_right rfl).symm

/-- One step keeps exactly the realizations that make the types the same, if the runs that it calls
do. -/
theorem StepRun.firstOrder (hSafe : Safe R) (hSettling : Settling R) (hR : FirstOrder R) :
    FirstOrder (StepRun R) := by
  intro p q a e ds h hp hPlain ha he V ρ
  have hTops (hρ : p.Realizes ρ) :
      a.nameless ρ = e.nameless ρ ↔ (p.top a).nameless ρ = (p.top e).nameless ρ := by
    rw [hρ.sees.nameless_top, hρ.sees.nameless_top]
  have hOpen {p' : Prefix} {t : Monotype} {x : String} {ex : Entry} (hQuiet : p.Quiet p')
      (hTop : p.top t = .var x) (hx : p'.find? x = some ex) : ex.bound.type = .bottom :=
    open_of_top hp hQuiet (closed_univ _) hPlain (fun _ _ => trivial) hTop hx
  have hPlain' {p' : Prefix} (hQuiet : p.Quiet p') : p'.PlainOn Set.univ :=
    (hQuiet.settles (closed_univ _) hPlain).plain
  -- so the question is about the tops, which are what a step looks at
  rw [and_congr_right hTops]
  cases h with
  | same hTop hQuiet =>
    rw [hTop, hQuiet.realizes_iff]
    simp
  | unbound hx hUnbound =>
    refine absurd ?_ hUnbound
    rcases hx with hx | hx
    · exact hp.scoping.binds_top ha hx
    · exact hp.scoping.binds_top he hx
  | merge haTop heTop hne hQuiet hx hy hTie =>
    rw [haTop, heTop, ← hQuiet.realizes_iff]
    exact hTie.merge_firstOrder hx hy hne (hOpen hQuiet haTop hx) (hOpen hQuiet heTop hy)
  | @solve _ _ _ _ swapped _ hTops ht hQuiet hx hTie =>
    have hp' := (hQuiet.wellFormed hp).1
    rw [← hQuiet.realizes_iff]
    -- whichever side the variable is on
    cases swapped with
    | true =>
      obtain ⟨rfl, heTop⟩ := hTops
      rw [heTop, eq_comm]
      exact hTie.solve_firstOrder hp' (hPlain' hQuiet) hx ht (hOpen hQuiet heTop hx)
    | false =>
      obtain ⟨haTop, rfl⟩ := hTops
      rw [haTop]
      exact hTie.solve_firstOrder hp' (hPlain' hQuiet) hx ht (hOpen hQuiet haTop hx)
  | clash hDiffer =>
    -- types with one reading have one value, whatever the names are worth
    refine iff_of_false (fun ⟨_, hEq⟩ => ?_) (by simp)
    apply hDiffer fun x => (ρ x).eval fun _ => .const .number
    rw [← Monotype.eval_nameless, ← Monotype.eval_nameless, hEq]
  | @fn p' p₁ _ ds₁ ds₂ a₁ a₂ e₁ e₂ u v haTop heTop hQuiet hPair hParam hBody =>
    obtain ⟨hu, hv, ha₂, he₂⟩ := hQuiet.covers_parts hp ha he haTop heTop hPair
    have hp' := (hQuiet.wellFormed hp).1
    have hNarrows := hSafe.narrows hParam hp' hu hv 0
    have hPlain₁ := (hSettling hParam hp' hu hv (closed_univ _) (hPlain' hQuiet)
      (fun _ _ => trivial) fun _ _ => trivial).plain
    have hParams : a₁.nameless ρ = e₁.nameless ρ ↔ u.nameless ρ = v.nameless ρ := by
      rcases hPair with ⟨rfl, rfl⟩ | ⟨rfl, rfl⟩
      · rfl
      · exact eq_comm
    rw [haTop, heTop, Monotype.nameless, Monotype.nameless, Nameless.Mono.fn.injEq, hParams]
    -- the bodies are met with what the parameters have left behind
    calc p.Realizes ρ ∧ u.nameless ρ = v.nameless ρ ∧ a₂.nameless ρ = e₂.nameless ρ
      _ ↔ (ds₁ = [] ∧ p₁.Realizes ρ) ∧ a₂.nameless ρ = e₂.nameless ρ := by
          rw [← hR hParam hp' (hPlain' hQuiet) hu hv, hQuiet.realizes_iff, and_assoc]
      _ ↔ ds₁ = [] ∧ ds₂ = [] ∧ q.Realizes ρ := by
          rw [and_assoc, hR hBody hNarrows.wellFormed hPlain₁ (hNarrows.covers ha₂)
            (hNarrows.covers he₂)]
      _ ↔ ds₁ ++ ds₂ = [] ∧ q.Realizes ρ := by rw [List.append_eq_nil_iff, and_assoc]

/-- A run keeps exactly the realizations that make the two types the same. -/
theorem run_firstOrder (fuel : Nat) : FirstOrder (Run fuel) := by
  induction fuel with
  | zero => exact fun h => nomatch h
  | succ n ih => exact StepRun.firstOrder (run_safe n) (run_settling n) ih

end Unify

namespace Prefix

variable {p : Prefix} {x : String} {θ : Subst}

/-! ## Substitutions -/

/-- A substitution of variables that may be anything by types over unsolved variables. -/
structure Assigns (p : Prefix) (θ : Subst) : Prop where
  domain : ∀ x m, θ.find? x = some m → p.Has x .unbounded
  range : ∀ x m, θ.find? x = some m → ∀ y ∈ m.freeVars, p.Unsolved y

theorem Constant.unsolved (h : p.Constant x) : p.Unsolved x :=
  ⟨h.binds, h.solution?⟩

/-- Where no bound has quantifiers, an unsolved variable may be anything or is a constant. -/
theorem PlainOn.unsolved_cases (h : p.PlainOn Set.univ) (hx : p.Unsolved x) :
    p.Has x .unbounded ∨ p.Constant x := by
  obtain ⟨⟨e, he⟩, hNone⟩ := hx
  have hBottom := h.bottom trivial he ((solution?_eq_none he).1 hNone)
  cases hKind : e.bound.kind with
  | flexible => exact Or.inl ⟨e, he, by rw [Bound.unbounded, ← hKind, ← hBottom]⟩
  | rigid => exact Or.inr ⟨e, he, by rw [← hKind, ← hBottom]⟩

/-- Constants are not replaced. -/
theorem Assigns.image_constant (h : p.Assigns θ) (hx : p.Constant x) : θ.image x = .var x := by
  unfold Subst.image
  cases hFind : θ.find? x with
  | none => rfl
  | some m => cases (h.domain x m hFind).eq hx

/-- Resolving a type and then replacing variables is one reading of the type. -/
theorem Expands.nameless_subst_resolvedMono (hp : p.Acyclic) {ρ : Reading String}
    (hρ : p.Expands (θ.nameless .var) ρ) (t : Monotype) :
    ((p.resolvedMono t).subst θ).nameless .var = t.nameless ρ := by
  rw [Monotype.nameless_subst]
  exact hρ.nameless_resolvedMono hp t

theorem Expands.subst_resolvedMono_eq_iff (hp : p.Acyclic) {ρ : Reading String}
    (hρ : p.Expands (θ.nameless .var) ρ) {a e : Monotype} :
    (p.resolvedMono a).subst θ = (p.resolvedMono e).subst θ ↔ a.nameless ρ = e.nameless ρ := by
  rw [← hρ.nameless_subst_resolvedMono hp a, ← hρ.nameless_subst_resolvedMono hp e]
  exact ⟨fun h => by rw [h], Monotype.nameless_var_injective⟩

/-- A substitution is a realization. -/
theorem Assigns.realizes (h : p.Assigns θ) {ρ : Reading String}
    (hρ : p.Expands (θ.nameless .var) ρ) : p.Realizes ρ := by
  have hConstant {x : String} (hx : p.Constant x) : ρ x = .var x := by
    rw [hρ.unsolved x hx.unsolved.2, Subst.nameless, h.image_constant hx]
    rfl
  refine ⟨hρ.solved, fun x hx => ⟨x, hConstant hx⟩, fun x y hx hy hEq => ?_⟩
  rw [hConstant hx, hConstant hy] at hEq
  exact Nameless.Mono.var.inj hEq

/-- Readings that see through solutions and agree on the other variables in play agree on all
variables in play. -/
theorem Expands.eq_of_sees {V : Type} (hp : p.WellFormed) {r ρ σ : Reading V} (hρ : p.Expands r ρ)
    (hσ : p.Sees σ) (hAgree : ∀ x, p.Unsolved x → σ x = r x) (hx : p.Binds x) : ρ x = σ x := by
  -- along solutions, which lead to variables in play only
  induction x using hp.acyclic.wellFounded.induction with
  | _ x ih =>
    cases hSolution : p.solution? x with
    | none => rw [hρ.unsolved x hSolution, hAgree x ⟨hx, hSolution⟩]
    | some m =>
      rw [hρ.solved x m hSolution, hσ x m hSolution]
      apply Monotype.nameless_congr
      intro y hy
      have hMentions := mentions_of_solution? hSolution hy
      exact ih y hMentions (hp.scoping.binds hMentions)

/-- The names of constants in a realization can be taken for the constants. -/
theorem Realizes.exists_names {ρ : Reading String} (h : p.Realizes ρ) : ∃ g : String → String,
    (∀ x, p.Constant x → (ρ x).bind (fun v => .var (g v)) = .var x) ∧
      ∀ v, g v = v ∨ p.Constant (g v) := by
  -- at most one constant has a given name
  have hName (v : String) :
      ∃ y, (∀ x, p.Constant x → ρ x = .var v → y = x) ∧ (y = v ∨ p.Constant y) := by
    by_cases hv : ∃ x, p.Constant x ∧ ρ x = .var v
    · obtain ⟨y, hy, hSame⟩ := hv
      exact ⟨y, fun x hx hEq => h.apart y x hy hx (hSame.trans hEq.symm), Or.inr hy⟩
    · exact ⟨v, fun x hx hEq => absurd ⟨x, hx, hEq⟩ hv, Or.inl rfl⟩
  choose g hg hEither using hName
  refine ⟨g, fun x hx => ?_, hEither⟩
  obtain ⟨v, hv⟩ := h.named x hx
  rw [hv, Nameless.Mono.bind, hg v x hx hv]

end Prefix

theorem Monotype.exists_nameless_var (m : Nameless.Mono String) :
    ∃ t : Monotype, t.nameless .var = m := by
  induction m with
  | var x => exact ⟨.var x, rfl⟩
  | const c => exact ⟨.const c, rfl⟩
  | fn m n ihm ihn =>
    obtain ⟨t, rfl⟩ := ihm
    obtain ⟨u, rfl⟩ := ihn
    exact ⟨.fn t u, rfl⟩

theorem Subst.exists_of_list (names : List String) (f : String → Monotype) :
    ∃ θ : Subst, ∀ x, θ.find? x = if x ∈ names then some (f x) else none := by
  induction names with
  | nil => exact ⟨∅, fun x => rfl⟩
  | cons y names ih =>
    obtain ⟨θ, hθ⟩ := ih
    refine ⟨θ.insert y (f y), fun x => ?_⟩
    rw [NameMap.find?_insert, hθ]
    by_cases hxy : x = y
    · simp [hxy]
    · simp [hxy]

namespace Prefix

/-- The variables that may be anything can be replaced as one likes. -/
theorem exists_subst (p : Prefix) (f : String → Monotype) : ∃ θ : Subst, ∀ x,
    (p.Has x .unbounded → θ.find? x = some (f x)) ∧ (¬ p.Has x .unbounded → θ.find? x = none) := by
  classical
  obtain ⟨θ, hθ⟩ := Subst.exists_of_list (p.entries.keys.filter fun x => p.Has x .unbounded) f
  refine ⟨θ, fun x => ⟨fun hx => ?_, fun hx => ?_⟩⟩
  · have hKey : x ∈ p.entries.keys := mem_keys_iff.2 hx.binds
    rw [hθ, if_pos (by simp [hKey, hx])]
  · rw [hθ, if_neg (by simp [hx])]

/-- A realization over unsolved variables gives a substitution, once its names for constants are
taken for the constants. -/
theorem Realizes.exists_assigns {p : Prefix} {ρ : Reading String} (h : p.Realizes ρ)
    (hp : p.WellFormed) (hPlain : p.PlainOn Set.univ)
    (hOver : ∀ x, p.Binds x → ∀ v, (ρ x).Uses v → p.Unsolved v) :
    ∃ (θ : Subst) (g : String → Nameless.Mono String), p.Assigns θ ∧
      ∀ σ, p.Expands (θ.nameless .var) σ → ∀ x, p.Binds x → σ x = (ρ x).bind g := by
  obtain ⟨g, hConstant, hg⟩ := h.exists_names
  -- a variable that may be anything is replaced by what it is read as
  choose f hf using fun x => Monotype.exists_nameless_var ((ρ x).bind fun v => .var (g v))
  obtain ⟨θ, hθ⟩ := p.exists_subst f
  have hFind {x : String} {m : Monotype} (hm : θ.find? x = some m) :
      p.Has x .unbounded ∧ m = f x := by
    by_cases hx : p.Has x .unbounded
    · rw [(hθ x).1 hx] at hm
      exact ⟨hx, (Option.some.inj hm).symm⟩
    · rw [(hθ x).2 hx] at hm
      cases hm
  refine ⟨θ, fun v => .var (g v), ⟨fun x m hm => (hFind hm).1, fun x m hm y hy => ?_⟩,
    fun σ hσ x hx => ?_⟩
  · obtain ⟨hx, rfl⟩ := hFind hm
    -- the names in the type are those that the realization uses, or constants
    have hUses : ((ρ x).bind fun v => .var (g v)).Uses y := by
      rw [← hf x, Monotype.uses_nameless]
      exact ⟨y, hy, rfl⟩
    obtain ⟨v, hv, hEq⟩ := Nameless.Mono.uses_bind.1 hUses
    obtain rfl : y = g v := hEq
    rcases hg v with hSame | hNamed
    · rw [hSame]
      exact hOver x hx.binds v hv
    · exact hNamed.unsolved
  · have hSees : p.Sees fun y => (ρ y).bind fun v => .var (g v) := by
      intro y m hy
      dsimp only
      rw [h.sees y m hy, Monotype.nameless_bind]
    refine hσ.eq_of_sees hp hSees (fun y hy => ?_) hx
    rw [Subst.nameless, Subst.image]
    rcases hPlain.unsolved_cases hy with hOpen | hNamed
    · rw [(hθ y).1 hOpen]
      exact (hf y).symm
    · have hClosed : ¬ p.Has y .unbounded := by
        intro hOpen
        cases hOpen.eq hNamed
      rw [hConstant y hNamed, (hθ y).2 hClosed]
      rfl

/-- New variables without quantified bounds. -/
theorem Grows.plainOn {p q : Prefix} {x : String} {b : Bound} (h : p.Grows q x b) {Z : Set String}
    (hp : p.PlainOn Z) (hb : b.type = .bottom ∨ ∃ m, b.type = .mono m) : q.PlainOn Z := by
  intro y hy e he
  rw [h.find?] at he
  split_ifs at he with hyx
  · obtain rfl := Option.some.inj he
    exact hb
  · exact hp y hy e he

/-- A substitution that makes two types the same. -/
structure Unifies (p : Prefix) (θ : Subst) (a e : Monotype) : Prop where
  assigns : p.Assigns θ
  same : (p.resolvedMono a).subst θ = (p.resolvedMono e).subst θ

end Prefix

namespace Unify

/-! ## Unification -/

section

variable {fuel : Nat} {p q : Prefix} {a e : Monotype} {ds : List Diagnostic}

/-- Where a substitution makes the types the same, nothing is reported, and what is left behind says
no more than the substitution. -/
theorem run_of_unifies (h : Run fuel p a e (some (q, ds))) (hp : p.WellFormed)
    (hPlain : p.PlainOn Set.univ) (ha : p.Covers a) (he : p.Covers e) {θ : Subst}
    (hθ : p.Unifies θ a e) :
    ds = [] ∧ ∀ t, (q.resolvedMono t).subst θ = (p.resolvedMono t).subst θ := by
  have hq := (Safe.narrows (run_safe fuel) h hp ha he 0).wellFormed.acyclic
  have hFixes := run_fixes fuel h hp ha he
  -- the substitution as a reading that sees through solutions
  obtain ⟨ρ, hρ⟩ := hp.acyclic.exists_expands (θ.nameless .var)
  have hEq := (hρ.subst_resolvedMono_eq_iff hp.acyclic).1 hθ.same
  obtain ⟨hNil, hReal⟩ := (run_firstOrder fuel h hp hPlain ha he).1 ⟨hθ.assigns.realizes hρ, hEq⟩
  refine ⟨hNil, fun t => ?_⟩
  -- the reading is the same afterwards, since only unsolved variables were solved
  have hρ' : q.Expands (θ.nameless .var) ρ := by
    refine ⟨hReal.sees, fun x hx => hρ.unsolved x ?_⟩
    cases hSolution : p.solution? x with
    | none => rfl
    | some m =>
      rw [hFixes.solved x m hSolution] at hx
      cases hx
  apply Monotype.nameless_var_injective
  rw [hρ.nameless_subst_resolvedMono hp.acyclic, hρ'.nameless_subst_resolvedMono hq]

/-- Where nothing is reported, some substitution makes the types the same. -/
theorem exists_unifies_of_run (h : Run fuel p a e (some (q, []))) (hp : p.WellFormed)
    (hPlain : p.PlainOn Set.univ) (ha : p.Covers a) (he : p.Covers e) :
    ∃ θ, p.Unifies θ a e := by
  have hNarrows := Safe.narrows (run_safe fuel) h hp ha he 0
  have hq := hNarrows.wellFormed
  have hSettles := run_settling fuel h hp ha he (closed_univ _) hPlain (fun _ _ => trivial)
    fun _ _ => trivial
  -- the variables that are left for themselves realize what is left behind
  obtain ⟨ρ, hρ⟩ := hq.acyclic.exists_expands .var
  have hEmpty : q.Assigns ∅ := ⟨fun x m hm => (by cases hm), fun x m hm => (by cases hm)⟩
  obtain ⟨hReal, hEq⟩ := (run_firstOrder fuel h hp hPlain ha he).2 ⟨rfl, hEmpty.realizes hρ⟩
  -- what is open afterwards was open before, so the substitution is over open variables
  have hOver (x : String) (hx : p.Binds x) (v : String) (hv : (ρ x).Uses v) : p.Unsolved v := by
    obtain ⟨hNone, hReaches⟩ := hρ.uses hq.acyclic.untangled hv
    have hBinds : q.Binds v := hq.scoping.closed.reaches (hNarrows.binds hx) hReaches
    exact (hSettles.fewer ⟨trivial, hBinds, hNone⟩).2
  obtain ⟨θ, g, hAssigns, hθ⟩ := hReal.exists_assigns hp hPlain hOver
  obtain ⟨σ, hσ⟩ := hp.acyclic.exists_expands (θ.nameless .var)
  -- with the substitution, both types are read as they were by the reading
  have hRead {t : Monotype} (ht : p.Covers t) : t.nameless σ = (t.nameless ρ).bind g := by
    rw [Monotype.nameless_bind]
    exact Monotype.nameless_congr fun x hx => hθ σ hσ x (ht x hx)
  refine ⟨θ, hAssigns, (hσ.subst_resolvedMono_eq_iff hp.acyclic).2 ?_⟩
  rw [hRead ha, hRead he, hEq]

end

/-- Where no bound has quantifiers, unification ends, and it is first-order unification with rigid
variables as constants. It succeeds if and only if some substitution makes the types the same, and
then what it leaves behind makes them the same and is more general than any such substitution. -/
theorem unify_first_order {p : Prefix} (hp : p.WellFormed) (hPlain : p.PlainOn Set.univ)
    {a e : Monotype} (ha : p.Covers a) (he : p.Covers e) (sink : Sink) :
    ∃ n verdict s, (∀ m, n ≤ m → Mlf.unify m a e ⟨p, sink⟩ = .ok (verdict, s)) ∧
      (verdict = none ↔ ∃ θ, p.Unifies θ a e) ∧
      (verdict = none → s.vars.resolvedMono a = s.vars.resolvedMono e ∧
        ∀ θ, p.Unifies θ a e → ∀ t,
          (s.vars.resolvedMono t).subst θ = (p.resolvedMono t).subst θ) := by
  obtain ⟨n, ⟨verdict, s⟩, hEnd⟩ : Ends a e false ⟨p, sink⟩ :=
    ends_of_plain hp ha he (closed_univ _) hPlain (fun _ _ => trivial) fun _ _ => trivial
  obtain ⟨ds, hRun, hVerdict, -⟩ := run_of_within_ok (hEnd n (Nat.le_refl n))
  refine ⟨n, verdict, s, hEnd, ⟨fun hNone => ?_, ?_⟩, fun hNone => ⟨?_, fun θ hθ => ?_⟩⟩
  · -- a unifier is read off what is left behind, and every unifier says that nothing is reported
    obtain rfl : ds = [] := List.head?_eq_none_iff.1 (hVerdict.symm.trans hNone)
    exact exists_unifies_of_run hRun hp hPlain ha he
  · rintro ⟨θ, hθ⟩
    rw [hVerdict, (run_of_unifies hRun hp hPlain ha he hθ).1]
    rfl
  · subst hNone
    exact within_agrees hp ha he (hEnd n (Nat.le_refl n))
  · exact (run_of_unifies hRun hp hPlain ha he hθ).2

/-- A variable `x` becomes one with a younger constant `c`, and `y` becomes `x → x`. The
substitution of `c` for `x` and of `c → c` for `y` makes the types the same, and what is left behind
says as much about `y` under it. -/
theorem unify_first_order_constant : ∃ (p : Prefix) (θ : Subst),
    p = ((empty.enter.add "x" .unbounded).enter.add "c" ⟨.rigid, .bottom⟩).add "y" .unbounded ∧
    θ = NameMap.insert (NameMap.insert ∅ "x" (.var "c")) "y" (.fn (.var "c") (.var "c")) ∧
    p.Unifies θ (.fn (.var "x") (.var "y")) (.fn (.var "c") (.fn (.var "x") (.var "x"))) ∧
    ∃ n s, (∀ m, n ≤ m → Mlf.unify m (.fn (.var "x") (.var "y"))
        (.fn (.var "c") (.fn (.var "x") (.var "x"))) ⟨p, .empty⟩ = .ok (none, s)) ∧
      (s.vars.resolvedMono (.var "y")).subst θ = .fn (.var "c") (.var "c") := by
  obtain ⟨p, θ, hEq, hθ, hSame, hValue⟩ : ∃ (p : Prefix) (θ : Subst),
      p = ((empty.enter.add "x" .unbounded).enter.add "c" ⟨.rigid, .bottom⟩).add "y" .unbounded ∧
      θ = NameMap.insert (NameMap.insert ∅ "x" (.var "c")) "y" (.fn (.var "c") (.var "c")) ∧
      (p.resolvedMono (.fn (.var "x") (.var "y"))).subst θ =
        (p.resolvedMono (.fn (.var "c") (.fn (.var "x") (.var "x")))).subst θ ∧
      (p.resolvedMono (.var "y")).subst θ = .fn (.var "c") (.var "c") :=
    ⟨_, _, rfl, rfl, by cbv, by cbv⟩
  -- how the prefix is put together, one variable after the other
  have hx : empty.enter.Grows (empty.enter.add "x" .unbounded) "x" .unbounded :=
    add_grows (by decide) (by decide) _
  have hc : (empty.enter.add "x" .unbounded).enter.Grows
      ((empty.enter.add "x" .unbounded).enter.add "c" ⟨.rigid, .bottom⟩) "c" ⟨.rigid, .bottom⟩ :=
    add_grows (by decide) (by decide) _
  have hy : ((empty.enter.add "x" .unbounded).enter.add "c" ⟨.rigid, .bottom⟩).Grows p "y"
      .unbounded := by
    subst hEq
    exact add_grows (by decide) (by decide) _
  have hp : p.WellFormed := by
    subst hEq
    exact ((wellFormed_empty.enter.add (by decide)).enter.add (by decide)).add (by decide)
  -- all bounds are bottom, so this is a problem of first order
  have hPlain : p.PlainOn Set.univ := by
    have hEmpty : empty.enter.PlainOn Set.univ := fun z _ e he => by cases he
    exact hy.plainOn (hc.plainOn (hx.plainOn hEmpty (Or.inl rfl)) (Or.inl rfl)) (Or.inl rfl)
  have hHas : p.Has "x" .unbounded ∧ p.Has "y" .unbounded ∧ p.Constant "c" :=
    ⟨(hx.has.enter.grows hc).grows hy, hy.has, hc.has.grows hy⟩
  -- the substitution solves unbounded variables only, and what it brings in is not solved
  have hUnifies : p.Unifies θ (.fn (.var "x") (.var "y"))
      (.fn (.var "c") (.fn (.var "x") (.var "x"))) := by
    refine ⟨⟨fun z m hm => ?_, fun z m hm v hv => ?_⟩, hSame⟩
    · rw [hθ, NameMap.find?_insert, NameMap.find?_insert] at hm
      split_ifs at hm with hy hx
      · exact hy ▸ hHas.2.1
      · exact hx ▸ hHas.1
      · cases hm
    · obtain rfl : v = "c" := by
        rw [hθ, NameMap.find?_insert, NameMap.find?_insert] at hm
        split_ifs at hm
        · obtain rfl := Option.some.inj hm
          simpa [Monotype.freeVars] using hv
        · obtain rfl := Option.some.inj hm
          simpa [Monotype.freeVars] using hv
        · cases hm
      exact hHas.2.2.unsolved
  -- there is a unifier, so the run succeeds, and the unifier is an instance of what it found
  obtain ⟨n, verdict, s, hEnd, hSolvable, hGeneral⟩ := unify_first_order hp hPlain
    (covers_fn.2 ⟨covers_var.2 hHas.1.binds, covers_var.2 hHas.2.1.binds⟩)
    (covers_fn.2 ⟨covers_var.2 hHas.2.2.binds, covers_fn.2
      ⟨covers_var.2 hHas.1.binds, covers_var.2 hHas.1.binds⟩⟩) .empty
  obtain rfl := hSolvable.2 ⟨θ, hUnifies⟩
  refine ⟨p, θ, hEq, hθ, hUnifies, n, s, hEnd, ?_⟩
  rw [(hGeneral rfl).2 θ hUnifies, hValue]

end Unify

end Mlf
