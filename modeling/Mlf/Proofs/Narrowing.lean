import Mlf.Proofs.Generalization

/-!
# Narrowing

Unification and inference change a prefix step by step. What they keep is said once here, in two
relations that compose.

A prefix narrows to another one within a set of names when no variable is lost, none moves to a
younger level, and only the variables of the set and new ones change. The set and the new names
mention only each other afterwards, so the rest of the prefix is as if nothing had happened. Levels
below a given one gain variables only if there were some: what moves to a level is mentioned by a
variable that belongs to it or to an older one.

A prefix refines another one by a condition when its solutions are those of the other one under
which the condition holds, up to the values of new variables. On older levels, these are determined.

Main results:

* `Narrows.trans`, `Narrows.leave` — narrowing step by step, and at a level of its own;
* `Refines.trans`, `Determines.leave` — the same for solutions;
* `update_narrows`, `Updates.refines` — a variable that gets a new bound;
* `Narrows.localize` — solutions on names that were not touched.
-/

namespace Mlf

open Relation

variable {p q : Prefix} {b : Bound} {x : String} {k : Nat} {Z : Set String} {r : Valuation}

namespace Prefix

/-- The names of a set mention only names of the set. -/
def Closed (p : Prefix) (Z : Set String) : Prop := ∀ x ∈ Z, ∀ y, p.Mentions x y → y ∈ Z

/-- The names that a change within `Z` may be about: those in `Z` and those that are new. -/
def Allowed (p : Prefix) (Z : Set String) : Set String := {x | p.Binds x → x ∈ Z}

/-- A prefix narrows to `q` within the names `Z`; the levels from `k` on may have gained variables
of their own. -/
structure Narrows (k : Nat) (p q : Prefix) (Z : Set String) : Prop where
  wellFormed : q.WellFormed
  level : q.level = p.level
  failures : q.failures = p.failures
  kept : ∀ x e, p.find? x = some e →
    ∃ e', q.find? x = some e' ∧ e'.level ≤ e.level ∧ (x ∉ Z → e' = e)
  closed : q.Closed (p.Allowed Z)
  older : ∀ x e', q.find? x = some e' → e'.level < k → ∃ y e, p.find? y = some e ∧ e.level ≤ e'.level

theorem Closed.reaches (h : p.Closed Z) {y : String} (hx : x ∈ Z) (hxy : p.Reaches x y) :
    y ∈ Z := by
  induction hxy with
  | refl => exact hx
  | tail _ hMentions ih => exact h _ ih _ hMentions

theorem Closed.allowed (h : p.Closed Z) : p.Closed (p.Allowed Z) :=
  fun x hx y hxy _ => h x (hx hxy.binds) y hxy

theorem closed_univ (p : Prefix) : p.Closed Set.univ := fun _ _ _ _ => trivial

theorem allowed_univ (p : Prefix) : p.Allowed Set.univ = Set.univ :=
  Set.eq_univ_of_forall fun _ _ => trivial

theorem Narrows.refl (hp : p.WellFormed) (k : Nat) (hZ : p.Closed Z) : Narrows k p p Z where
  wellFormed := hp
  level := rfl
  failures := rfl
  kept _ e he := ⟨e, he, Nat.le_refl _, fun _ => rfl⟩
  closed := hZ.allowed
  older x e he _ := ⟨x, e, he, Nat.le_refl _⟩

theorem Narrows.binds (h : Narrows k p q Z) (hx : p.Binds x) : q.Binds x := by
  obtain ⟨e, he⟩ := hx
  obtain ⟨e', he', -⟩ := h.kept x e he
  exact ⟨e', he'⟩

theorem Narrows.covers (h : Narrows k p q Z) {t : Polytype} (ht : p.Covers t) : q.Covers t :=
  fun x hx => h.binds (ht x hx)

theorem Narrows.one_le_level (h : Narrows k p q Z) (hLevel : 1 ≤ p.level) : 1 ≤ q.level := by
  rw [h.level]
  exact hLevel

theorem Narrows.allowed_subset (h : Narrows k p q Z) : q.Allowed (p.Allowed Z) ⊆ p.Allowed Z :=
  fun _ hx hb => hx (h.binds hb) hb

/-- Narrowing step by step: the second step may be about new names of the first. -/
theorem Narrows.trans {s : Prefix} (h : Narrows k p q Z) (h' : Narrows k q s (p.Allowed Z)) :
    Narrows k p s Z where
  wellFormed := h'.wellFormed
  level := h'.level.trans h.level
  failures := h'.failures.trans h.failures
  kept x e he := by
    obtain ⟨e', he', hLe, hSame⟩ := h.kept x e he
    obtain ⟨e'', he'', hLe', hSame'⟩ := h'.kept x e' he'
    refine ⟨e'', he'', Nat.le_trans hLe' hLe, fun hx => ?_⟩
    -- a name that was in play and not in the set is not among those of the second step either
    rw [hSame' fun hAllowed => hx (hAllowed ⟨e, he⟩), hSame hx]
  closed x hx y hxy := h.allowed_subset (h'.closed x (fun _ => hx) y hxy)
  older x e'' he'' hk := by
    obtain ⟨y, e', he', hLe⟩ := h'.older x e'' he'' hk
    obtain ⟨z, e, he, hLe'⟩ := h.older y e' he' (Nat.lt_of_le_of_lt hLe hk)
    exact ⟨z, e, he, Nat.le_trans hLe' hLe⟩

theorem Narrows.trans_univ {s : Prefix} (h : Narrows k p q Set.univ) (h' : Narrows k q s Set.univ) :
    Narrows k p s Set.univ :=
  h.trans (by rwa [allowed_univ])

theorem binds_enter : p.enter.Binds x ↔ p.Binds x := by
  rw [Binds, find?_enter, Binds]

/-- What is narrowed at a level of its own is narrowed when the level is left, and no level has
gained variables of its own. -/
theorem Narrows.leave (hp : p.Owned) (h : Narrows (p.level + 1) p.enter q Z) (k : Nat) :
    Narrows k p q.leave Z := by
  have hLevel : q.level = p.level + 1 := h.level
  have hFind := h.wellFormed.owned.find?_leave (by omega : 1 ≤ q.level)
  refine ⟨h.wellFormed.leave (by omega), ?_, ?_, fun x e he => ?_, ?_, fun x e' he' hk => ?_⟩
  · rw [level_leave, hLevel, Nat.add_sub_cancel]
  · rw [failures_leave (by omega), h.failures]
    rfl
  · obtain ⟨e', he', hLe, hSame⟩ := h.kept x e (by rwa [find?_enter])
    -- it belonged to an older level before, so it is not forgotten
    have := hp.level_le he
    exact ⟨e', (hFind x e').2 ⟨he', by omega⟩, hLe, hSame⟩
  · rintro x hx y ⟨e, he, hy⟩ hb
    have hMentions : q.Mentions x y := ⟨e, ((hFind x e).1 he).1, hy⟩
    exact h.closed x (fun hb' => hx (binds_enter.1 hb')) y hMentions (binds_enter.2 hb)
  · -- what is left belongs to older levels, which gained nothing of their own
    obtain ⟨hFound, hLt⟩ := (hFind x e').1 he'
    obtain ⟨y, e, he, hLe⟩ := h.older x e' hFound (by omega)
    exact ⟨y, e, by rwa [find?_enter] at he, hLe⟩

/-- A new variable narrows a prefix within any closed set that its bound is over. -/
theorem Grows.narrows (h : p.Grows q x b) (hq : q.WellFormed) (hZ : p.Closed Z)
    (hBound : ∀ y ∈ b.type.freeVars, y ∈ Z) : Narrows p.level p q Z where
  wellFormed := hq
  level := h.level
  failures := h.failures
  kept y e he := by
    -- the new name was not in play
    have hne : y ≠ x := fun hyx => h.fresh ⟨e, hyx ▸ he⟩
    exact ⟨e, by rw [h.find?, if_neg hne, he], Nat.le_refl _, fun _ => rfl⟩
  closed := by
    rintro y hy z ⟨e, he, hz⟩ hb
    rw [h.find?] at he
    split_ifs at he with hyx
    · obtain rfl := Option.some.inj he
      exact hBound z hz
    · exact hZ y (hy ⟨e, he⟩) z ⟨e, he, hz⟩
  older y e he hLt := by
    rw [h.find?] at he
    split_ifs at he with hyx
    · -- the new variable belongs to the current level
      obtain rfl := Option.some.inj he
      exact absurd hLt (Nat.lt_irrefl _)
    · exact ⟨y, e, he, Nat.le_refl _⟩

theorem newType_narrows (hp : p.WellFormed) (hLevel : 1 ≤ p.level) (hNormal : b.type.IsNormal)
    (hCovers : p.Covers b.type) (hZ : p.Closed Z) (hBound : ∀ y ∈ b.type.freeVars, y ∈ Z) :
    Narrows p.level p (p.newType b).2 Z :=
  (newType_grows hLevel b).narrows (hp.newType hLevel hNormal hCovers) hZ hBound

/-- A new bound narrows a prefix within any closed set that has the variable and the names of the
bound. -/
theorem update_narrows (hp : p.WellFormed) (hx : p.Binds x) (hNormal : b.type.IsNormal)
    (hCovers : p.Covers b.type) (hApart : ∀ y ∈ b.type.freeVars, ¬ p.Reaches y x) (k : Nat)
    (hZ : p.Closed Z) (hxZ : x ∈ Z) (hBound : ∀ y ∈ b.type.freeVars, y ∈ Z) :
    Narrows k p (p.update x b) Z := by
  have hUpdates := update_updates hx b
  -- the set stays closed: its names mention what they did, or the new bound
  have hClosed : (p.update x b).Closed Z := by
    intro y hy z hyz
    rw [hUpdates.mentions hx] at hyz
    split_ifs at hyz with hyx
    · exact hBound z hyz
    · exact hZ y hy z hyz
  refine ⟨hp.update hx hNormal hCovers hApart, hUpdates.level, hUpdates.failures,
    fun y e he => ?_, fun y hy z hyz _ => ?_, fun y e' he' _ => ?_⟩
  · obtain ⟨l, hNew, hLevel⟩ := hUpdates.bound y e he
    refine ⟨_, hNew, ?_, fun hyZ => ?_⟩
    · show l ≤ e.level
      omega
    · have hyx : y ≠ x := fun hyx => hyZ (hyx ▸ hxZ)
      rcases hLevel with rfl | ⟨-, hReach, -⟩
      · rw [if_neg hyx]
      · exact absurd (hClosed.reaches hxZ hReach) hyZ
  · exact hClosed y (hy ((hUpdates.binds y).1 hyz.binds)) z hyz
  · obtain ⟨e, he⟩ := (hUpdates.binds y).1 ⟨e', he'⟩
    obtain ⟨l, hNew, hLevel⟩ := hUpdates.bound y e he
    obtain rfl := Option.some.inj (hNew.symm.trans he')
    rcases hLevel with rfl | ⟨-, -, ex, hex, rfl⟩
    · exact ⟨y, e, he, Nat.le_refl _⟩
    · -- what moves goes to the level of the variable
      exact ⟨x, ex, hex, Nat.le_refl _⟩

/-! ## Solutions -/

/-- On levels older than `k`, solutions are determined by what they give to the variables that were
there before. -/
def Determines (k : Nat) (p q : Prefix) : Prop :=
  ∀ l < k, ∀ r r', q.IsSolution r → q.IsSolution r' →
    (∀ x e, p.find? x = some e → e.level ≤ l → r x = r' x) →
    ∀ x e, q.find? x = some e → e.level ≤ l → r x = r' x

/-- No bound is rigid, at any depth. -/
def Flexible (p : Prefix) : Prop :=
  ∀ x e, p.find? x = some e → e.bound.kind = .flexible ∧ e.bound.type.Flexible

/-- The solutions of `q` are those of `p` under which a condition holds, up to the values of new
variables. -/
structure Refines (k : Nat) (p q : Prefix) (holds : Valuation → Prop) : Prop where
  sound : ∀ r, q.IsSolution r → p.IsSolution r ∧ holds r
  complete : ∀ r, p.IsSolution r → holds r →
    ∃ r', (∀ x, p.Binds x → r' x = r x) ∧ q.IsSolution r'
  determines : Determines k p q

theorem Determines.refl (k : Nat) (p : Prefix) : Determines k p p :=
  fun _ _ _ _ _ _ hAgree => hAgree

theorem Determines.trans {s : Prefix} (h : Determines k p q) (h' : Determines k q s)
    (hSound : ∀ r, s.IsSolution r → q.IsSolution r) : Determines k p s :=
  fun l hl r r' hr hr' hAgree =>
    h' l hl r r' hr hr' (h l hl r r' (hSound r hr) (hSound r' hr') hAgree)

/-- All variables belong to levels up to the current one, so what is determined there is determined
altogether. -/
theorem Determines.of_level_lt (h : Determines k p q) (hq : q.Owned) (hLevel : q.level ≤ p.level)
    (hk : p.level < k) (k' : Nat) : Determines k' p q := by
  intro l _ r r' hr hr' hAgree x e he hLe
  have hxLevel := hq.level_le he
  refine h (min l p.level) (by omega) r r' hr hr' (fun y e' he' hLe' => ?_) x e he (by omega)
  exact hAgree y e' he' (by omega)

theorem Refines.congr {holds holds' : Valuation → Prop} (h : Refines k p q holds)
    (hIff : ∀ r, p.IsSolution r → (holds r ↔ holds' r)) : Refines k p q holds' where
  sound r hr := by
    obtain ⟨hSol, hHolds⟩ := h.sound r hr
    exact ⟨hSol, (hIff r hSol).1 hHolds⟩
  complete r hr hHolds := h.complete r hr ((hIff r hr).2 hHolds)
  determines := h.determines

/-- Refining step by step, where the second condition is about variables that were there before. -/
theorem Refines.trans {s : Prefix} {first second : Valuation → Prop} (h : Refines k p q first)
    (h' : Refines k q s second) (hBinds : ∀ x, p.Binds x → q.Binds x)
    (hSecond : ∀ r r', (∀ x, p.Binds x → r' x = r x) → second r → second r') :
    Refines k p s fun r => first r ∧ second r where
  sound r hr := by
    obtain ⟨hq, hHolds'⟩ := h'.sound r hr
    obtain ⟨hp, hHolds⟩ := h.sound r hq
    exact ⟨hp, hHolds, hHolds'⟩
  complete := by
    rintro r hr ⟨hHolds, hHolds'⟩
    obtain ⟨r', hSame, hr'⟩ := h.complete r hr hHolds
    obtain ⟨r'', hSame', hr''⟩ := h'.complete r' hr' (hSecond r r' hSame hHolds')
    exact ⟨r'', fun x hx => (hSame' x (hBinds x hx)).trans (hSame x hx), hr''⟩
  determines := h.determines.trans h'.determines fun r hr => (h'.sound r hr).1

/-! ## Solutions and levels -/

theorem isSolution_enter : p.enter.IsSolution r ↔ p.IsSolution r := by
  simp only [IsSolution, find?_enter]

theorem IsSolution.leave (hp : p.Owned) (hLevel : 1 ≤ p.level) (h : p.IsSolution r) :
    p.leave.IsSolution r :=
  fun x e he => h x e ((hp.find?_leave hLevel x e).1 he).1

/-- A solution for the older levels extends to one for the current level. -/
theorem IsSolution.of_leave (hp : p.WellFormed) (hLevel : 1 ≤ p.level) (h : p.leave.IsSolution r) :
    ∃ r', (∀ x, p.leave.Binds x → r' x = r x) ∧ p.IsSolution r' := by
  obtain ⟨r', hSol, hSame, -⟩ := (mem_Inst_generalize hp.owned hp.scoping hp.acyclic hLevel
    (t := .bottom) (fun x hx => by simp [Polytype.freeVars] at hx) h).1
    (Polytype.Inst_nonempty _ r).some_mem
  exact ⟨r', hSame, hSol⟩

theorem Flexible.leave (hp : p.Owned) (hLevel : 1 ≤ p.level) (h : p.Flexible) : p.leave.Flexible :=
  fun x e he => h x e ((hp.find?_leave hLevel x e).1 he).1

theorem Flexible.generalize (hp : p.WellFormed) {t : Polytype} (hCovers : p.Covers t)
    (h : p.Flexible) (ht : t.Flexible) : (p.generalize t).1.Flexible := by
  rw [generalize_eq hp.scoping hCovers]
  refine Polytype.flexible_quantifyAll (Polytype.flexible_chain ht fun b hb => ?_)
  obtain ⟨⟨e, he, hBound, -⟩, -⟩ := (mem_generalizable hp.scoping hCovers).1 hb
  rw [← hBound]
  exact h b.name e he

/-- What a level of its own leaves behind is determined by what was there before it. -/
theorem Determines.leave (hp : p.Owned) (hNarrows : Narrows (p.level + 1) p.enter q Z)
    (h : Determines (p.level + 1) p.enter q) (k : Nat) : Determines k p q.leave := by
  have hLevel : q.level = p.level + 1 := hNarrows.level
  have hq := hNarrows.wellFormed
  have hFind := hq.owned.find?_leave (by omega : 1 ≤ q.level)
  have hLeave := hNarrows.leave hp (p.level + 1)
  refine Determines.of_level_lt (k := p.level + 1) ?_ hLeave.wellFormed.owned
    (Nat.le_of_eq hLeave.level) (Nat.lt_succ_self _) k
  intro l hl r r' hr hr' hAgree x e he hLe
  -- both solutions extend to the level that was left, where the older variables decide
  obtain ⟨s, hSame, hs⟩ := hr.of_leave hq (by omega)
  obtain ⟨s', hSame', hs'⟩ := hr'.of_leave hq (by omega)
  rw [← hSame x ⟨e, he⟩, ← hSame' x ⟨e, he⟩]
  refine h l hl s s' hs hs' (fun y e' he' hLe' => ?_) x e ((hFind x e).1 he).1 hLe
  rw [find?_enter] at he'
  rw [hSame y (hLeave.binds ⟨e', he'⟩), hSame' y (hLeave.binds ⟨e', he'⟩)]
  exact hAgree y e' he' hLe'

/-! ## Solutions and new bounds -/

theorem Updates.isSolution_iff (h : p.Updates q x b) (hx : p.Binds x) :
    q.IsSolution r ↔ p.SolvedOn r {x}ᶜ ∧ r x ∈ b.type.Inst r := by
  rw [Prefix.isSolution_iff, h.solvedOn_iff hx, Set.compl_eq_univ_sdiff]
  simp

theorem isSolution_iff_solvedOn_compl {e : Entry} (hx : p.find? x = some e) :
    p.IsSolution r ↔ p.SolvedOn r {x}ᶜ ∧ r x ∈ e.bound.type.Inst r := by
  refine ⟨fun h => ⟨h.solvedOn _, h x e hx⟩, fun ⟨h, hSelf⟩ y e' he' => ?_⟩
  by_cases hyx : y = x
  · subst hyx
    obtain rfl := Option.some.inj (hx.symm.trans he')
    exact hSelf
  · exact h y hyx e' he'

/-- A new bound that has no more instances refines a prefix. -/
theorem Updates.refines (h : p.Updates q x b) (hq : q.WellFormed) {e : Entry}
    (hx : p.find? x = some e)
    (hFewer : ∀ r, p.SolvedOn r {x}ᶜ → r x ∈ b.type.Inst r → r x ∈ e.bound.type.Inst r) (k : Nat) :
    Refines k p q fun r => r x ∈ b.type.Inst r where
  sound r hr := by
    obtain ⟨hRest, hSelf⟩ := (h.isSolution_iff ⟨e, hx⟩).1 hr
    exact ⟨(isSolution_iff_solvedOn_compl hx).2 ⟨hRest, hFewer r hRest hSelf⟩, hSelf⟩
  complete r hr hSelf :=
    ⟨r, fun _ _ => rfl, (h.isSolution_iff ⟨e, hx⟩).2 ⟨hr.solvedOn _, hSelf⟩⟩
  determines := by
    intro l _ r r' hr hr' hAgree y e' he' hLe
    obtain ⟨e₀, he₀⟩ := (h.binds y).1 ⟨e', he'⟩
    obtain ⟨l', hNew, hLevel⟩ := h.bound y e₀ he₀
    obtain rfl := Option.some.inj (hNew.symm.trans he')
    rcases hLevel with rfl | ⟨-, hReach, ex, hex, rfl⟩
    · exact hAgree y e₀ he₀ hLe
    · -- what moved is reached from the variable, so it follows its value
      exact (hr.solvedOn Set.univ).eq_of_reaches hq (hr'.solvedOn Set.univ) (fun _ _ => trivial)
        (hAgree x ex hex hLe) hReach

theorem Flexible.updates (hp : p.Flexible) (h : p.Updates q x b) (hKind : b.kind = .flexible)
    (hType : b.type.Flexible) : q.Flexible := by
  intro y e' he'
  obtain ⟨e, he⟩ := (h.binds y).1 ⟨e', he'⟩
  obtain ⟨l, hNew, -⟩ := h.bound y e he
  obtain rfl := Option.some.inj (hNew.symm.trans he')
  split_ifs
  · exact ⟨hKind, hType⟩
  · exact hp y e he

/-- What holds in all solutions of a narrowed prefix, and is about the names that it was narrowed
within, holds as well where other variables have values that are no instances of their bounds. -/
theorem Narrows.localize {X : Set String} (h : Narrows k p q Z)
    (hApart : ∀ x ∈ X, x ∉ p.Allowed Z) (hr : q.SolvedOn r Xᶜ) :
    ∃ r', (∀ x ∈ p.Allowed Z, r' x = r x) ∧ q.IsSolution r' := by
  have hZ : q.SolvedOn r (p.Allowed Z) := hr.mono fun x hx _ hxX => hApart x hxX hx
  obtain ⟨r', hKeep, hSolution⟩ := hZ.exists_solution h.wellFormed.acyclic h.closed
  exact ⟨r', fun x hx => hKeep x (Or.inl hx), hSolution⟩

end Prefix

end Mlf
