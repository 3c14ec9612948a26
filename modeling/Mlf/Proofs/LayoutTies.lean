import Mlf.Proofs.Layouts

/-!
# New bounds in layouts

A variable of a layout is solved, or two are made one. In a prefix, one of the two stays, with a
bound, and the other one is made to stand for it; which is which depends on their levels and, for
variables of one level, on the order in which they are named. In the layout there is one variable
less, and the order does not show.

Main results:

* `WellFormed.find?_update`, `WellFormed.find?_link` — what a new bound does to all variables;
* `Lays.tie` — what it does to the layout;
* `Lays.solve`, `Lays.merge` — the two ways to tie variables.
-/

namespace Mlf

open Relation

/-! ## Levels after a change -/

namespace Prefix

open Classical in
/-- The level of a variable after a bound changed at level `l`, by whether the bound reaches it. -/
noncomputable def lowered (reached : Prop) (l old : Nat) : Nat := if reached then min old l else old

/-- What a new bound does to all variables: those that it reaches move to the level of the changed
one if they are younger. -/
theorem WellFormed.find?_update {p : Prefix} (hp : p.WellFormed) {x : String} {ex : Entry}
    (hx : p.find? x = some ex) {b : Bound} (hNormal : b.type.IsNormal) (hCovers : p.Covers b.type)
    (hApart : ∀ z ∈ b.type.freeVars, ¬ p.Reaches z x) :
    (p.update x b).find? x = some ⟨ex.level, b⟩ ∧
      ∀ y e, y ≠ x → p.find? y = some e → (p.update x b).find? y =
        some ⟨lowered (∃ z ∈ b.type.freeVars, p.Reaches z y) ex.level e.level, e.bound⟩ := by
  have hBinds : p.Binds x := ⟨ex, hx⟩
  have hUpdates := update_updates hBinds b
  -- the variable itself stays at its level
  have hSelf : (p.update x b).find? x = some ⟨ex.level, b⟩ := by
    obtain ⟨l, hNew, hl⟩ := hUpdates.bound x ex hx
    rw [if_pos rfl] at hNew
    rcases hl with rfl | ⟨hlt, -, e', he', rfl⟩
    · exact hNew
    · obtain rfl := Option.some.inj (hx.symm.trans he')
      omega
  refine ⟨hSelf, fun y e hyx he => ?_⟩
  obtain ⟨l, hNew, hl⟩ := hUpdates.bound y e he
  rw [if_neg hyx] at hNew
  rw [hNew]
  have hLevel : l = lowered (∃ z ∈ b.type.freeVars, p.Reaches z y) ex.level e.level := by
    unfold lowered
    by_cases hReached : ∃ z ∈ b.type.freeVars, p.Reaches z y
    · rw [if_pos hReached]
      obtain ⟨z, hz, hzy⟩ := hReached
      have hxz : (p.update x b).Mentions x z := ⟨_, hSelf, hz⟩
      -- what the bound reaches is reached from the variable now, so it is no younger
      have hPath : (p.update x b).Reaches x y :=
        .head hxz (hUpdates.reaches_of_old hBinds (hApart z hz) hzy)
      have hOlder : l ≤ ex.level :=
        (hp.update hBinds hNormal hCovers hApart).scoping.reaches_level hSelf hPath hNew
      rcases hl with rfl | ⟨hlt, -, e', he', rfl⟩
      · omega
      · obtain rfl := Option.some.inj (hx.symm.trans he')
        omega
    · rw [if_neg hReached]
      -- only what the new bound reaches has moved
      refine hl.resolve_right ?_
      rintro ⟨-, hPath, -⟩
      rcases hPath.cases_head with hEq | ⟨z, hxz, hzy⟩
      · exact hyx hEq.symm
      · have hz : z ∈ b.type.freeVars := by rwa [hUpdates.mentions hBinds, if_pos rfl] at hxz
        exact hReached ⟨z, hz, hUpdates.reaches_of_not hBinds (hApart z hz) hzy⟩
  rw [hLevel]

/-- The same where a second variable, which is no older, is made to stand for the changed one. -/
theorem WellFormed.find?_link {p : Prefix} (hp : p.WellFormed) {x y : String} {ex ey : Entry}
    (hx : p.find? x = some ex) (hy : p.find? y = some ey) (hne : x ≠ y)
    (hOlder : ex.level ≤ ey.level) {b : Bound} (hNormal : b.type.IsNormal)
    (hCovers : p.Covers b.type)
    (hApart : ∀ z ∈ b.type.freeVars, ¬ p.Reaches z x ∧ ¬ p.Reaches z y) (z : String) :
    ((p.update x b).update y ⟨.flexible, .mono (.var x)⟩).find? z =
      if z = y then some ⟨ey.level, ⟨.flexible, .mono (.var x)⟩⟩
      else if z = x then some ⟨ex.level, b⟩
      else (p.find? z).map fun e =>
        ⟨lowered (∃ w ∈ b.type.freeVars, p.Reaches w z) ex.level e.level, e.bound⟩ := by
  have hApartFirst : ∀ z ∈ b.type.freeVars, ¬ p.Reaches z x := fun z hz => (hApart z hz).1
  obtain ⟨hSelf, hOthers⟩ := hp.find?_update hx hNormal hCovers hApartFirst
  -- the new bound does not lead to the second variable, so it has not moved
  have hyFirst : (p.update x b).find? y = some ey := by
    rw [hOthers y ey hne.symm hy, lowered, if_neg]
    rintro ⟨z, hz, hzy⟩
    exact (hApart z hz).2 hzy
  -- the second variable stands for one that is no younger, so that nothing moves
  have hSecond := find?_update_of_le (b := ⟨.flexible, .mono (.var x)⟩)
    (hp.update ⟨ex, hx⟩ hNormal hCovers hApartFirst).scoping hyFirst (by
      intro w hw
      obtain rfl : w = x := by simpa [Polytype.freeVars, Monotype.freeVars] using hw
      exact ⟨_, hSelf, hOlder⟩) z
  rw [hSecond]
  by_cases hzy : z = y
  · rw [if_pos hzy, if_pos hzy]
  · rw [if_neg hzy, if_neg hzy]
    by_cases hzx : z = x
    · rw [if_pos hzx, hzx, hSelf]
    · rw [if_neg hzx]
      cases hz : p.find? z with
      | none =>
        refine Option.eq_none_iff_forall_ne_some.2 fun e he => ?_
        obtain ⟨e', he'⟩ := ((update_updates ⟨ex, hx⟩ b).binds z).1 ⟨e, he⟩
        rw [hz] at he'
        cases he'
      | some e => exact hOthers z e hzx hz

end Prefix

namespace Layout

open Prefix

variable {S : Layout} {ρ : Reading ℕ} {p q : Prefix} {x y : String} {i j : ℕ}

/-! ## Tied variables -/

open Classical in
/-- The variables with the numbers `tied` are given new cells or none, and the others have `f` put
in for them; what the type `t` reaches moves to level `l`. -/
noncomputable def tie (S : Layout) (tied : Set ℕ) (new : ℕ → Option Cell) (t : Nameless ℕ) (l : Nat)
    (f : ℕ → Nameless.Mono ℕ) : Layout where
  level := S.level
  cell? j :=
    if j ∈ tied then new j
    else (S.cell? j).map fun c => ⟨lowered (S.Reaches t j) l c.level, c.kind, c.bound.bind f⟩

/-- The layout after some variables are tied to a type. -/
theorem Lays.tie (h : S.Lays ρ p) (hq : q.WellFormed) (hLevel : q.level = p.level)
    {X : Set String} {tied : Set ℕ} {new : ℕ → Option Cell} {t : Polytype} {l : Nat}
    {f : ℕ → Nameless.Mono ℕ} (ht : p.Covers t)
    (hX : ∀ x ∈ X, p.Unsolved x ∧ ∃ i ∈ tied, ρ x = .var i)
    (hTied : ∀ i ∈ tied, ∃ x ∈ X, ρ x = .var i) (hf : ∀ i, i ∉ tied → f i = .var i)
    (hBinds : ∀ y, q.Binds y → p.Binds y)
    (hOthers : ∀ y e, y ∉ X → p.find? y = some e → q.find? y =
      some ⟨lowered (∃ z ∈ t.freeVars, p.Reaches z y) l e.level, e.bound⟩)
    (hSolved : ∀ x ∈ X, ∀ m, q.solution? x = some m →
      (ρ x).bind f = m.nameless fun z => (ρ z).bind f)
    (hCell : ∀ x ∈ X, ∀ e, q.find? x = some e → e.bound.type.mono? = none →
      ∃ i ∈ tied, (ρ x).bind f = .var i ∧
        new i = some ⟨e.level, e.bound.kind, e.bound.type.nameless fun z => (ρ z).bind f⟩)
    (hUnique : ∀ x ∈ X, ∀ y ∈ X, q.Unsolved x → q.Unsolved y → x = y)
    (hFull : ∀ i ∈ tied, ∀ c, new i = some c → ∃ x ∈ X, q.Unsolved x ∧ (ρ x).bind f = .var i) :
    (S.tie tied new (t.nameless ρ) l f).Lays (fun z => (ρ z).bind f) q := by
  -- other variables had the same bound before, and at most another level
  have hEntry {y : String} (hy : y ∉ X) {e : Entry} (he : q.find? y = some e) :
      ∃ e', p.find? y = some e' ∧ e =
        ⟨lowered (∃ z ∈ t.freeVars, p.Reaches z y) l e'.level, e'.bound⟩ := by
    obtain ⟨e', he'⟩ := hBinds y ⟨e, he⟩
    exact ⟨e', he', Option.some.inj (he.symm.trans (hOthers y e' hy he'))⟩
  have hUnsolved {y : String} (hy : y ∉ X) : q.Unsolved y ↔ p.Unsolved y := by
    constructor
    · intro hUnsolved
      obtain ⟨e, he⟩ := hUnsolved.1
      obtain ⟨e', he', rfl⟩ := hEntry hy he
      exact (unsolved_iff he').2 ((unsolved_iff he).1 hUnsolved)
    · intro hUnsolved
      obtain ⟨e, he⟩ := hUnsolved.1
      exact (unsolved_iff (hOthers y e hy he)).2 ((unsolved_iff he).1 hUnsolved)
  -- the other variables keep their numbers
  have hKept {y : String} {k : ℕ} (hy : y ∉ X) (hUnsolved : p.Unsolved y) (hk : ρ y = .var k) :
      k ∉ tied ∧ (ρ y).bind f = .var k := by
    have hkTied : k ∉ tied := by
      intro hkTied
      obtain ⟨x, hx, hxk⟩ := hTied k hkTied
      exact hy (h.unique x y k (hX x hx).1 hUnsolved hxk hk ▸ hx)
    exact ⟨hkTied, by rw [hk, Nameless.Mono.bind, hf k hkTied]⟩
  -- and those of the tied ones are not theirs
  have hTiedVar {x : String} {k : ℕ} (hx : x ∈ X) (hUnsolved : q.Unsolved x)
      (hk : (ρ x).bind f = .var k) : k ∈ tied := by
    obtain ⟨e, he⟩ := hUnsolved.1
    obtain ⟨i, hi, hxi, -⟩ := hCell x hx e he ((unsolved_iff he).1 hUnsolved)
    obtain rfl : k = i := by
      rw [hk] at hxi
      injection hxi
    exact hi
  have hApart {x y : String} {k : ℕ} (hx : x ∈ X) (hy : y ∉ X) (hxq : q.Unsolved x)
      (hyq : q.Unsolved y) (hxk : (ρ x).bind f = .var k) : (ρ y).bind f ≠ .var k := by
    intro hyk
    obtain ⟨i, hi⟩ := h.exists_var ((hUnsolved hy).1 hyq)
    obtain ⟨hiTied, hyi⟩ := hKept hy ((hUnsolved hy).1 hyq) hi
    obtain rfl : i = k := by
      rw [hyi] at hyk
      injection hyk
    exact hiTied (hTiedVar hx hxq hxk)
  refine ⟨hq, h.level.trans hLevel.symm, fun y m hy => ?_, fun y e he hOpen => ?_,
    fun y z k hy hz hyk hzk => ?_, fun k c hc => ?_⟩
  · -- what is read through solutions, and then the cells of what is open
    by_cases hyX : y ∈ X
    · exact hSolved y hyX m hy
    · obtain ⟨e, he, hType⟩ := solution?_eq_some.1 hy
      obtain ⟨e', he', rfl⟩ := hEntry hyX he
      rw [h.solved y m (solution?_eq_some.2 ⟨e', he', hType⟩), Monotype.nameless_bind]
  · by_cases hyX : y ∈ X
    · obtain ⟨i, hi, hyi, hNew⟩ := hCell y hyX e he hOpen
      exact ⟨i, hyi, (if_pos hi).trans hNew⟩
    · obtain ⟨e', he', rfl⟩ := hEntry hyX he
      have hUnsolvedOld : p.Unsolved y := (unsolved_iff he').2 hOpen
      obtain ⟨k, hk, hOld⟩ := h.cell y e' he' hOpen
      obtain ⟨hkTied, hyk⟩ := hKept hyX hUnsolvedOld hk
      refine ⟨k, hyk, (if_neg hkTied).trans ?_⟩
      rw [hOld, Option.map_some, Polytype.nameless_bind,
        propext (h.reaches_iff ht hUnsolvedOld hk)]
  · -- two variables with one number are both tied or both not
    by_cases hyX : y ∈ X <;> by_cases hzX : z ∈ X
    · exact hUnique y hyX z hzX hy hz
    · exact absurd hzk (hApart hyX hzX hy hz hyk)
    · exact absurd hyk (hApart hzX hyX hz hy hzk)
    · have hyOld := (hUnsolved hyX).1 hy
      have hzOld := (hUnsolved hzX).1 hz
      obtain ⟨i, hi⟩ := h.exists_var hyOld
      obtain ⟨i', hi'⟩ := h.exists_var hzOld
      rw [(hKept hyX hyOld hi).2] at hyk
      rw [(hKept hzX hzOld hi').2] at hzk
      injection hyk with hik
      injection hzk with hik'
      exact h.unique y z k hyOld hzOld (hik ▸ hi) (hik' ▸ hi')
  · -- a number that is in use belongs to a tied variable or to one from before
    by_cases hkTied : k ∈ tied
    · have hNew : new k = some c := (if_pos hkTied).symm.trans hc
      obtain ⟨x, -, hx, hxk⟩ := hFull k hkTied c hNew
      exact ⟨x, hx, hxk⟩
    · have hOld : (S.cell? k).map _ = some c := (if_neg hkTied).symm.trans hc
      obtain ⟨c', hc', -⟩ := Option.map_eq_some_iff.1 hOld
      obtain ⟨y, hy, hyk⟩ := h.full k c' hc'
      have hyX : y ∉ X := by
        intro hyX
        obtain ⟨-, i, hi, hyi⟩ := hX y hyX
        rw [hyk] at hyi
        injection hyi with hki
        exact hkTied (hki ▸ hi)
      exact ⟨y, (hUnsolved hyX).2 hy, (hKept hyX hy hyk).2⟩

/-! ## Solved variables -/

/-- A variable is solved by a type. -/
noncomputable def solve (S : Layout) (i : ℕ) (l : Nat) (m : Nameless.Mono ℕ) : Layout :=
  S.tie {i} (fun _ => none) (.mono m) l (Function.update .var i m)

/-- The layout after a variable is solved: its position is gone, and wherever it stood there is the
reading of the solution. -/
theorem Lays.solve (h : S.Lays ρ p) {ex : Entry} (hx : p.find? x = some ex)
    (hOpen : ex.bound.type.mono? = none) (hi : ρ x = .var i) (k : BoundKind) {t : Monotype}
    (ht : p.Covers t) (hApart : p.occurs x t = false) :
    (S.solve i ex.level (t.nameless ρ)).Lays
      (fun z => (ρ z).bind (Function.update .var i (t.nameless ρ))) (p.update x ⟨k, .mono t⟩) := by
  have hUnsolved : p.Unsolved x := (unsolved_iff hx).2 hOpen
  have hReach : ∀ z ∈ (Polytype.mono t).freeVars, ¬ p.Reaches z x := not_reaches_of_occurs hApart
  have hq := h.wellFormed.update (b := ⟨k, .mono t⟩) hUnsolved.1 trivial ht hReach
  have hUpdates := update_updates hUnsolved.1 ⟨k, .mono t⟩
  obtain ⟨hSelf, hOthers⟩ := h.wellFormed.find?_update (b := ⟨k, .mono t⟩) hx trivial ht hReach
  -- the type does not have the number of the variable
  have hFixed : (t.nameless ρ).bind (Function.update .var i (t.nameless ρ)) = t.nameless ρ := by
    refine (Nameless.Mono.bind_congr fun k hk => ?_).trans (Nameless.Mono.bind_var _)
    refine Function.update_of_ne ?_ _ _
    rintro rfl
    exact Bool.eq_false_iff.1 hApart ((h.occurs_iff ht hUnsolved hi).2 ⟨k, hk, .refl⟩)
  have hValue : (ρ x).bind (Function.update .var i (t.nameless ρ)) = t.nameless ρ := by
    rw [hi, Nameless.Mono.bind, Function.update_self]
  -- one variable, which is solved afterwards, so that no position is left to describe
  refine h.tie (X := {x}) (t := .mono t) hq hUpdates.level ht ?_ ?_ (fun k hk => ?_)
    (fun y hy => (hUpdates.binds y).1 hy) (fun y e hy he => hOthers y e hy he) ?_ ?_ ?_
    (fun _ _ c hc => by cases hc)
  · rintro _ rfl
    exact ⟨hUnsolved, i, rfl, hi⟩
  · rintro _ rfl
    exact ⟨x, rfl, hi⟩
  · exact Function.update_of_ne hk _ _
  · rintro _ rfl m hm
    obtain ⟨e, he, hType⟩ := solution?_eq_some.1 hm
    obtain rfl := Option.some.inj (hSelf.symm.trans he)
    obtain rfl : t = m := by injection hType
    rw [hValue, ← Monotype.nameless_bind, hFixed]
  · rintro _ rfl e he hNone
    obtain rfl := Option.some.inj (hSelf.symm.trans he)
    cases hNone
  · rintro y rfl z rfl _ _
    rfl

/-! ## Variables made one -/

end Layout

/-- What variables stand for that are made one with the given bound: a monotype, or the first of
them with that bound. -/
def Nameless.joined (i : ℕ) : Nameless ℕ → Nameless.Mono ℕ
  | .mono m => m
  | _ => .var i

namespace Layout

open Prefix

variable {S : Layout} {ρ : Reading ℕ} {p q : Prefix} {x y : String} {i j : ℕ}

/-- The variable that stays where two are made one, unless they are solved by that. -/
def joinedCell (i : ℕ) (l : Nat) (k : BoundKind) : Nameless ℕ → ℕ → Option Cell
  | .mono _, _ => none
  | t, j => if j = i then some ⟨l, k, t⟩ else none

/-- The replacement of two variables by what they become together. -/
def joining (i j : ℕ) (t : Nameless ℕ) : ℕ → Nameless.Mono ℕ :=
  Function.update (Function.update .var i (t.joined i)) j (t.joined i)

/-- Two variables are made one. -/
noncomputable def merge (S : Layout) (i j : ℕ) (l : Nat) (k : BoundKind) (t : Nameless ℕ) :
    Layout :=
  S.tie {i, j} (joinedCell i l k t) t l (joining i j t)

theorem joining_left (i j : ℕ) (t : Nameless ℕ) : joining i j t i = t.joined i := by
  simp [joining, Function.update_apply]

theorem joining_right (i j : ℕ) (t : Nameless ℕ) : joining i j t j = t.joined i := by
  simp [joining]

theorem joining_of_ne {k : ℕ} (hi : k ≠ i) (hj : k ≠ j) (t : Nameless ℕ) :
    joining i j t k = .var k := by
  rw [joining, Function.update_of_ne hj, Function.update_of_ne hi]

theorem joined_nameless {t : Polytype} (ht : t.mono? = none) (ρ : Reading ℕ) (i : ℕ) :
    (t.nameless ρ).joined i = .var i := by
  cases t with
  | mono m => cases ht
  | bottom => rfl
  | all x k b t => rfl

theorem joinedCell_nameless {t : Polytype} (ht : t.mono? = none) (ρ : Reading ℕ) (i : ℕ) (l : Nat)
    (k : BoundKind) : joinedCell i l k (t.nameless ρ) i = some ⟨l, k, t.nameless ρ⟩ := by
  cases t with
  | mono m => cases ht
  | bottom => exact if_pos rfl
  | all x k b t => exact if_pos rfl

theorem of_joinedCell {t : Polytype} {ρ : Reading ℕ} {i j : ℕ} {l : Nat} {k : BoundKind} {c : Cell}
    (h : joinedCell i l k (t.nameless ρ) j = some c) : t.mono? = none ∧ j = i := by
  cases t with
  | mono m => cases h
  | bottom => exact ⟨rfl, (Option.ite_none_right_eq_some.1 h).1⟩
  | all x k b t => exact ⟨rfl, (Option.ite_none_right_eq_some.1 h).1⟩

/-- One of two variables gets a new bound, and the other one is made to stand for it. Which is which
does not show in the layout. -/
theorem Lays.link (h : S.Lays ρ p) {ex ey : Entry} (hx : p.find? x = some ex)
    (hy : p.find? y = some ey) (hxOpen : p.Unsolved x) (hyOpen : p.Unsolved y) (hne : x ≠ y)
    (hOlder : ex.level ≤ ey.level)
    (hNumbers : (ρ x = .var i ∧ ρ y = .var j) ∨ (ρ x = .var j ∧ ρ y = .var i)) (k : BoundKind)
    {t : Polytype} (hNormal : t.IsNormal) (ht : p.Covers t) (hxApart : p.occurs x t = false)
    (hyApart : p.occurs y t = false) :
    (S.merge i j ex.level k (t.nameless ρ)).Lays (fun z => (ρ z).bind (joining i j (t.nameless ρ)))
      ((p.update x ⟨k, t⟩).update y ⟨.flexible, .mono (.var x)⟩) := by
  have hApart : ∀ z ∈ t.freeVars, ¬ p.Reaches z x ∧ ¬ p.Reaches z y := fun z hz =>
    ⟨not_reaches_of_occurs hxApart z hz, not_reaches_of_occurs hyApart z hz⟩
  have hNarrows := (link_narrows h.wellFormed (b := ⟨k, t⟩) hxOpen.1 hyOpen.1 hne hNormal ht hApart
    0 (closed_univ p) trivial trivial fun _ _ => trivial).2
  have hFind := h.wellFormed.find?_link hx hy hne hOlder (b := ⟨k, t⟩) hNormal ht hApart
  have hxNew := (hFind x).trans ((if_neg hne).trans (if_pos rfl))
  have hyNew := (hFind y).trans (if_pos rfl)
  -- both variables are read as what they become together
  have hBoth : (ρ x).bind (joining i j (t.nameless ρ)) = (t.nameless ρ).joined i ∧
      (ρ y).bind (joining i j (t.nameless ρ)) = (t.nameless ρ).joined i := by
    rcases hNumbers with ⟨hxi, hyj⟩ | ⟨hxj, hyi⟩
    · rw [hxi, hyj]
      exact ⟨joining_left i j _, joining_right i j _⟩
    · rw [hxj, hyi]
      exact ⟨joining_right i j _, joining_left i j _⟩
  obtain ⟨hxBoth, hyBoth⟩ := hBoth
  -- the new bound has neither number
  have hFixed : (t.nameless ρ).bind (joining i j (t.nameless ρ)) = t.nameless ρ := by
    refine (Nameless.bind_congr fun k hk => ?_).trans (Nameless.bind_var _)
    have hkx : ρ x ≠ .var k := fun hxk =>
      Bool.eq_false_iff.1 hxApart ((h.occurs_iff ht hxOpen hxk).2 ⟨k, hk, .refl⟩)
    have hky : ρ y ≠ .var k := fun hyk =>
      Bool.eq_false_iff.1 hyApart ((h.occurs_iff ht hyOpen hyk).2 ⟨k, hk, .refl⟩)
    apply joining_of_ne
    · rintro rfl
      exact hNumbers.elim (fun hNumbers => hkx hNumbers.1) fun hNumbers => hky hNumbers.2
    · rintro rfl
      exact hNumbers.elim (fun hNumbers => hky hNumbers.2) fun hNumbers => hkx hNumbers.1
  have hySolved :
      ¬ Prefix.Unsolved ((p.update x ⟨k, t⟩).update y ⟨.flexible, .mono (.var x)⟩) y := by
    rw [unsolved_iff hyNew]
    exact nofun
  refine h.tie (X := {x, y}) hNarrows.wellFormed hNarrows.level ht ?_ ?_ (fun k hk => ?_)
    (fun z hz => ?_) (fun z e hz he => ?_) ?_ ?_ ?_ (fun k' hk' c hc => ?_)
  · rintro z (rfl | rfl)
    · refine ⟨hxOpen, ?_⟩
      rcases hNumbers with ⟨hxi, -⟩ | ⟨hxj, -⟩
      · exact ⟨i, Or.inl rfl, hxi⟩
      · exact ⟨j, Or.inr rfl, hxj⟩
    · refine ⟨hyOpen, ?_⟩
      rcases hNumbers with ⟨-, hyj⟩ | ⟨-, hyi⟩
      · exact ⟨j, Or.inr rfl, hyj⟩
      · exact ⟨i, Or.inl rfl, hyi⟩
  · rintro k' (rfl | rfl)
    · rcases hNumbers with ⟨hxi, -⟩ | ⟨-, hyi⟩
      · exact ⟨x, Or.inl rfl, hxi⟩
      · exact ⟨y, Or.inr rfl, hyi⟩
    · rcases hNumbers with ⟨-, hyj⟩ | ⟨hxj, -⟩
      · exact ⟨y, Or.inr rfl, hyj⟩
      · exact ⟨x, Or.inl rfl, hxj⟩
  · exact joining_of_ne (fun hki => hk (Or.inl hki)) (fun hkj => hk (Or.inr hkj)) _
  · have hFirst := update_updates hxOpen.1 ⟨k, t⟩
    have hSecond := update_updates ((hFirst.binds y).2 hyOpen.1) ⟨.flexible, .mono (.var x)⟩
    exact (hFirst.binds z).1 ((hSecond.binds z).1 hz)
  · have hzx : z ≠ x := fun hzx => hz (Or.inl hzx)
    have hzy : z ≠ y := fun hzy => hz (Or.inr hzy)
    rw [hFind, if_neg hzy, if_neg hzx, he]
    rfl
  · rintro z (rfl | rfl) m hm
    · obtain ⟨e, he, hType⟩ := solution?_eq_some.1 hm
      obtain rfl := Option.some.inj (hxNew.symm.trans he)
      obtain rfl : t = .mono m := hType
      rw [hxBoth, ← Monotype.nameless_bind]
      exact (Nameless.mono.inj hFixed).symm
    · obtain ⟨e, he, hType⟩ := solution?_eq_some.1 hm
      obtain rfl := Option.some.inj (hyNew.symm.trans he)
      obtain rfl : .var x = m := by injection hType
      rw [hyBoth]
      exact hxBoth.symm
  · rintro z (rfl | rfl) e he hNone
    · obtain rfl := Option.some.inj (hxNew.symm.trans he)
      refine ⟨i, Or.inl rfl, hxBoth.trans (joined_nameless hNone ρ i), ?_⟩
      rw [joinedCell_nameless hNone, ← Polytype.nameless_bind, hFixed]
    · obtain rfl := Option.some.inj (hyNew.symm.trans he)
      cases hNone
  · rintro z (rfl | rfl) w (rfl | rfl) hz hw
    · rfl
    · exact absurd hw hySolved
    · exact absurd hz hySolved
    · rfl
  · obtain ⟨hNone, rfl⟩ := of_joinedCell hc
    exact ⟨x, Or.inl rfl, (unsolved_iff hxNew).2 hNone, hxBoth.trans (joined_nameless hNone ρ k')⟩

/-- Two variables are made one, whichever of them is named first. -/
theorem Lays.merge (h : S.Lays ρ p) {ex ey : Entry} (hx : p.find? x = some ex)
    (hy : p.find? y = some ey) (hxOpen : p.Unsolved x) (hyOpen : p.Unsolved y) (hne : x ≠ y)
    (hNumbers : (ρ x = .var i ∧ ρ y = .var j) ∨ (ρ x = .var j ∧ ρ y = .var i)) (k : BoundKind)
    {t : Polytype} (hNormal : t.IsNormal) (ht : p.Covers t) (hxApart : p.occurs x t = false)
    (hyApart : p.occurs y t = false) :
    (S.merge i j (min ex.level ey.level) k (t.nameless ρ)).Lays
      (fun z => (ρ z).bind (joining i j (t.nameless ρ))) (p.merge x y ⟨k, t⟩).2 := by
  rcases merge_cases hx hy ⟨k, t⟩ with ⟨hOlder, hEq⟩ | ⟨hOlder, hEq⟩
  · rw [hEq, Nat.min_eq_left hOlder]
    exact h.link hx hy hxOpen hyOpen hne hOlder hNumbers k hNormal ht hxApart hyApart
  · rw [hEq, Nat.min_eq_right hOlder]
    have hSwapped := hNumbers.symm.imp And.symm And.symm
    exact h.link hy hx hyOpen hxOpen hne.symm hOlder hSwapped k hNormal ht hyApart hxApart

end Layout

end Mlf
