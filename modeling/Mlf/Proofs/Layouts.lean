import Mathlib.Logic.Equiv.List
import Mathlib.Logic.Function.Basic
import Mlf.Proofs.OpenedChains
import Mlf.Proofs.Resolution
import Mlf.Proofs.UnifyInvariant

/-!
# Layouts

What matters about a prefix is which of its unsolved variables belong to which level, and what their
bounds are once solved variables are seen through. A layout says just that, with numbers in the
place of the variables. A prefix has a layout under a reading, which takes an unsolved variable to
its number and a solved one to what it stands for. Two prefixes with one layout may have different
names, and different ways to write down the same solutions: one may have a variable stand for
another one where the other prefix has it the other way around.

Everything that unification asks of a prefix is answered by a layout, and everything that it does to
a prefix is done to the layout. So what a run does to the layout depends on the readings of its two
types and on nothing else.

Main results:

* `Lays.occurs_iff`, `Lays.nameless_top`, `Lays.equivalent_iff` — what unification asks;
* `exists_lays` — well-formed prefixes have layouts;
* `Lays.enter`, `Lays.leave`, `Lays.opened` — levels and instances.
-/

namespace Mlf

open Relation

/-- An unsolved variable: the level that owns it and its bound, over the numbers of variables. -/
structure Cell where
  level : Nat
  kind : BoundKind
  bound : Nameless ℕ

/-- The unsolved variables in play, by their numbers. -/
structure Layout where
  level : Nat
  cell? : ℕ → Option Cell

namespace Prefix

/-- A variable is in play and not solved. -/
def Unsolved (p : Prefix) (x : String) : Prop := p.Binds x ∧ p.solution? x = none

theorem unsolved_iff {p : Prefix} {x : String} {e : Entry} (he : p.find? x = some e) :
    p.Unsolved x ↔ e.bound.type.mono? = none := by
  rw [Unsolved, solution?_eq_none he]
  exact and_iff_right ⟨e, he⟩

end Prefix

namespace Layout

/-- The bound of a variable mentions another one. -/
def Mentions (S : Layout) (i j : ℕ) : Prop := ∃ c, S.cell? i = some c ∧ c.bound.Uses j

/-- A type reaches its variables and whatever a sequence of mentions leads to from there. -/
def Reaches (S : Layout) (t : Nameless ℕ) (j : ℕ) : Prop :=
  ∃ i, t.Uses i ∧ ReflTransGen S.Mentions i j

/-- The layout of a prefix under a reading. -/
structure Lays (S : Layout) (ρ : Reading ℕ) (p : Prefix) : Prop where
  wellFormed : p.WellFormed
  level : S.level = p.level
  /-- A solved variable is read as what it stands for. -/
  solved : ∀ x m, p.solution? x = some m → ρ x = m.nameless ρ
  /-- An unsolved variable has a number. -/
  cell : ∀ x e, p.find? x = some e → e.bound.type.mono? = none →
    ∃ i, ρ x = .var i ∧ S.cell? i = some ⟨e.level, e.bound.kind, e.bound.type.nameless ρ⟩
  unique : ∀ x y i, p.Unsolved x → p.Unsolved y → ρ x = .var i → ρ y = .var i → x = y
  /-- No other variables are in the layout. -/
  full : ∀ i c, S.cell? i = some c → ∃ x, p.Unsolved x ∧ ρ x = .var i

variable {S : Layout} {ρ : Reading ℕ} {p q : Prefix} {x y : String} {i j : ℕ}

/-! ## Variables and their numbers -/

theorem Lays.exists_var (h : S.Lays ρ p) (hx : p.Unsolved x) : ∃ i, ρ x = .var i := by
  obtain ⟨⟨e, he⟩, hNone⟩ := hx
  obtain ⟨i, hi, -⟩ := h.cell x e he ((Prefix.solution?_eq_none he).1 hNone)
  exact ⟨i, hi⟩

theorem Lays.cell_of_var (h : S.Lays ρ p) {e : Entry} (he : p.find? x = some e) (hx : p.Unsolved x)
    (hi : ρ x = .var i) : S.cell? i = some ⟨e.level, e.bound.kind, e.bound.type.nameless ρ⟩ := by
  obtain ⟨j, hj, hCell⟩ := h.cell x e he ((Prefix.unsolved_iff he).1 hx)
  obtain rfl : i = j := by
    rw [hi] at hj
    injection hj
  exact hCell

/-- What a variable is read as is over the numbers of unsolved variables that it reaches. -/
theorem Lays.uses (h : S.Lays ρ p) (hx : p.Binds x) (hi : (ρ x).Uses i) :
    ∃ y, p.Unsolved y ∧ ρ y = .var i ∧ p.Reaches x y := by
  -- along the mentions of variables, of which there are no cycles
  induction x using h.wellFormed.acyclic.wellFounded.induction with
  | _ x ih =>
    cases hSolution : p.solution? x with
    | none =>
      obtain ⟨j, hj⟩ := h.exists_var ⟨hx, hSolution⟩
      rw [hj] at hi
      obtain rfl : i = j := hi
      exact ⟨x, ⟨hx, hSolution⟩, hj, .refl⟩
    | some m =>
      rw [h.solved x m hSolution, Monotype.uses_nameless] at hi
      obtain ⟨z, hz, hi⟩ := hi
      have hxz := Prefix.mentions_of_solution? hSolution hz
      obtain ⟨y, hy, hyi, hzy⟩ := ih z hxz (h.wellFormed.scoping.binds hxz) hi
      exact ⟨y, hy, hyi, .head hxz hzy⟩

/-- A way in the prefix is a way in the layout, where steps from solved variables to what they stand
for are no steps at all. -/
theorem Lays.leads_of_reaches (h : S.Lays ρ p) (hxy : p.Reaches x y) (hy : ρ y = .var j) :
    ∃ i, (ρ x).Uses i ∧ ReflTransGen S.Mentions i j := by
  induction hxy using ReflTransGen.head_induction_on with
  | refl => exact ⟨j, by rw [hy]; rfl, .refl⟩
  | @head x z hxz _ ih =>
    obtain ⟨i, hi, hij⟩ := ih
    obtain ⟨e, he, hz⟩ := hxz
    have hUses : (e.bound.type.nameless ρ).Uses i := Polytype.uses_nameless.2 ⟨z, hz, hi⟩
    cases ht : e.bound.type.mono? with
    | none =>
      obtain ⟨k, hk, hCell⟩ := h.cell x e he ht
      exact ⟨k, by rw [hk]; rfl, .head ⟨_, hCell, hUses⟩ hij⟩
    | some m =>
      -- a solved variable has the numbers of what it stands for
      have hType : e.bound.type = .mono m := by
        cases hCase : e.bound.type <;> simp_all [Polytype.mono?]
      rw [hType] at hUses
      refine ⟨i, ?_, hij⟩
      rw [h.solved x m (Prefix.solution?_eq_some.2 ⟨e, he, hType⟩)]
      exact hUses

theorem Lays.reaches_of_leads (h : S.Lays ρ p) (hx : p.Binds x) (hi : (ρ x).Uses i)
    (hij : ReflTransGen S.Mentions i j) : ∃ y, p.Unsolved y ∧ ρ y = .var j ∧ p.Reaches x y := by
  induction hij with
  | refl => exact h.uses hx hi
  | @tail k j _ hkj ih =>
    obtain ⟨y, hy, hyk, hxy⟩ := ih
    obtain ⟨c, hc, hUses⟩ := hkj
    obtain ⟨e, he⟩ := hy.1
    rw [h.cell_of_var he hy hyk] at hc
    obtain rfl := Option.some.inj hc
    -- the bound mentions a name that is read with the position in it, perhaps through solutions
    obtain ⟨z, hz, hj⟩ := Polytype.uses_nameless.1 hUses
    have hyz : p.Mentions y z := ⟨e, he, hz⟩
    obtain ⟨w, hw, hwj, hzw⟩ := h.uses (h.wellFormed.scoping.binds hyz) hj
    exact ⟨w, hw, hwj, hxy.trans (.head hyz hzw)⟩

/-- What a type reaches can be told from its reading. -/
theorem Lays.reaches_iff (h : S.Lays ρ p) {t : Polytype} (ht : p.Covers t) (hy : p.Unsolved y)
    (hj : ρ y = .var j) : (∃ x ∈ t.freeVars, p.Reaches x y) ↔ S.Reaches (t.nameless ρ) j := by
  constructor
  · rintro ⟨x, hx, hxy⟩
    obtain ⟨i, hi, hij⟩ := h.leads_of_reaches hxy hj
    exact ⟨i, Polytype.uses_nameless.2 ⟨x, hx, hi⟩, hij⟩
  · rintro ⟨i, hi, hij⟩
    obtain ⟨x, hx, hi⟩ := Polytype.uses_nameless.1 hi
    obtain ⟨y', hy', hj', hxy⟩ := h.reaches_of_leads (ht x hx) hi hij
    obtain rfl := h.unique y' y j hy' hy hj' hj
    exact ⟨x, hx, hxy⟩

theorem Lays.occurs_iff (h : S.Lays ρ p) {t : Polytype} (ht : p.Covers t) (hy : p.Unsolved y)
    (hj : ρ y = .var j) : p.occurs y t = true ↔ S.Reaches (t.nameless ρ) j := by
  rw [Prefix.occurs_iff, h.reaches_iff ht hy hj]

/-! ## Tops and equivalence -/

theorem Lays.nameless_top (h : S.Lays ρ p) (t : Monotype) : (p.top t).nameless ρ = t.nameless ρ :=
  Prefix.Sees.nameless_top h.solved t

/-- A variable at the top of a type is not solved. -/
theorem Lays.unsolved_top (h : S.Lays ρ p) {t : Monotype} (ht : p.Covers t)
    (hx : p.top t = .var x) : p.Unsolved x :=
  ⟨h.wellFormed.scoping.binds_top ht hx, h.wellFormed.acyclic.solution?_top hx⟩

theorem Lays.nameless_resolved (h : S.Lays ρ p) (t : Polytype) :
    (p.resolved t).nameless ρ = t.nameless ρ := by
  have hExpands : p.Expands ρ ρ := ⟨h.solved, fun _ _ => rfl⟩
  exact hExpands.nameless_resolved h.wellFormed.acyclic.untangled t

/-- The numbers can be read as the variables again. -/
theorem Lays.exists_names (h : S.Lays ρ p) :
    ∃ g : ℕ → Nameless.Mono String, ∀ x, p.Unsolved x → (ρ x).bind g = .var x := by
  classical
  let name (i : ℕ) : String := if hi : ∃ x, p.Unsolved x ∧ ρ x = .var i then hi.choose else ""
  refine ⟨fun i => .var (name i), fun x hx => ?_⟩
  obtain ⟨i, hi⟩ := h.exists_var hx
  have hName : ∃ x, p.Unsolved x ∧ ρ x = .var i := ⟨x, hx, hi⟩
  have hSame : name i = x := by
    simp only [name, dif_pos hName]
    exact h.unique _ x i hName.choose_spec.1 hx hName.choose_spec.2 hi
  rw [hi, Nameless.Mono.bind, hSame]

/-- Resolved types are equivalent when their readings have the same normal form. -/
theorem Lays.equivalent_iff (h : S.Lays ρ p) {t u : Polytype} (ht : p.Covers t) (hu : p.Covers u) :
    (p.resolved t).equivalent (p.resolved u) = true ↔
      (t.nameless ρ).norm = (u.nameless ρ).norm := by
  constructor
  · intro hEquivalent
    rw [← h.nameless_resolved t, ← h.nameless_resolved u]
    exact Polytype.norm_nameless_of_equivalent hEquivalent ρ
  · intro hNorm
    obtain ⟨g, hg⟩ := h.exists_names
    -- a resolved type is over unsolved variables, so its names can be had back
    have hShape {t : Polytype} (ht : p.Covers t) :
        (p.resolved t).shape = (t.nameless ρ).bind g := by
      rw [← h.nameless_resolved t, Polytype.nameless_bind]
      refine Polytype.nameless_congr fun x hx => (hg x ?_).symm
      obtain ⟨hNone, y, hy, hyx⟩ :=
        Prefix.mem_freeVars_resolved h.wellFormed.acyclic.untangled hx
      exact ⟨h.wellFormed.reaches_binds (ht y hy) hyx, hNone⟩
    rw [Polytype.equivalent_iff_norm_eq, hShape ht, hShape hu, Nameless.norm_bind,
      Nameless.norm_bind, hNorm]

/-! ## Every well-formed prefix has a layout -/

/-- A well-formed prefix has a layout. -/
theorem exists_lays (hp : p.WellFormed) : ∃ S ρ, Lays S ρ p := by
  -- names can be numbered
  have hChar : Countable Char :=
    (show Function.Injective Char.toNat from fun a b h => Char.ext (UInt32.toNat_inj.1 h)).countable
  have hString : Countable String :=
    (show Function.Injective String.toList from fun a b h => String.toList_injective h).countable
  obtain ⟨f, hf⟩ := exists_injective_nat String
  obtain ⟨ρ, hSolved, hUnsolved⟩ := hp.acyclic.exists_expands fun x => .var (f x)
  -- the cell of a number is that of the unsolved variable with this number, if there is one
  let cell? (i : ℕ) : Option Cell :=
    (f.partialInv i).bind fun x => (p.find? x).bind fun e =>
      if e.bound.type.mono? = none then
        some ⟨e.level, e.bound.kind, e.bound.type.nameless ρ⟩
      else none
  have hVar {x : String} (hx : p.Unsolved x) : ρ x = .var (f x) := hUnsolved x hx.2
  refine ⟨⟨p.level, cell?⟩, ρ, hp, rfl, hSolved, fun x e he ht => ⟨f x, ?_, ?_⟩,
    fun x y i hx hy hxi hyi => ?_, fun i c hc => ?_⟩
  · exact hVar ((Prefix.unsolved_iff he).2 ht)
  · simp [cell?, (hf.isPartialInv x (f x)).2 rfl, he, ht]
  · rw [hVar hx] at hxi
    rw [hVar hy] at hyi
    injection hxi with hxi
    injection hyi with hyi
    exact hf (hxi.trans hyi.symm)
  · obtain ⟨x, hx, hc⟩ := Option.bind_eq_some_iff.1 hc
    obtain ⟨e, he, hc⟩ := Option.bind_eq_some_iff.1 hc
    split_ifs at hc with ht
    have hxi : f x = i := (hf.isPartialInv x i).1 hx
    have hUnsolved : p.Unsolved x := (Prefix.unsolved_iff he).2 ht
    exact ⟨x, hUnsolved, by rw [hVar hUnsolved, hxi]⟩

/-! ## Levels -/

/-- One more level. -/
def enter (S : Layout) : Layout := { S with level := S.level + 1 }

/-- The current level is left and its variables are forgotten. -/
def leave (S : Layout) : Layout where
  level := S.level - 1
  cell? i := (S.cell? i).filter fun c => c.level < S.level

theorem Lays.congr (h : S.Lays ρ p) (hq : q.WellFormed) (hFind : ∀ x, q.find? x = p.find? x) :
    Lays { S with level := q.level } ρ q := by
  have hSolution (x : String) : q.solution? x = p.solution? x := by
    simp only [Prefix.solution?, hFind]
  have hUnsolved (x : String) : q.Unsolved x ↔ p.Unsolved x := by
    simp only [Prefix.Unsolved, Prefix.Binds, hFind, hSolution]
  refine ⟨hq, rfl, fun x m hx => ?_, fun x e he => ?_, fun x y i hx hy => ?_, fun i c hc => ?_⟩
  · rw [hSolution] at hx
    exact h.solved x m hx
  · rw [hFind] at he
    exact h.cell x e he
  · rw [hUnsolved] at hx hy
    exact h.unique x y i hx hy
  · simp only [hUnsolved]
    exact h.full i c hc

theorem Lays.quiet (h : S.Lays ρ p) (hQuiet : p.Quiet q) : S.Lays ρ q := by
  have hLays := h.congr (hQuiet.wellFormed h.wellFormed).1 hQuiet.find?
  have hLevel : q.level = S.level := by
    rw [h.level, Prefix.level, hQuiet.levels, Prefix.level]
  rw [hLevel] at hLays
  exact hLays

theorem Lays.enter (h : S.Lays ρ p) : S.enter.Lays ρ p.enter := by
  have hLays := h.congr h.wellFormed.enter (Prefix.find?_enter p)
  rw [Prefix.level_enter, ← h.level] at hLays
  exact hLays

/-- A level is left in the prefix and in the layout. -/
theorem Lays.leave (h : S.Lays ρ p) (hLevel : 1 ≤ p.level) : S.leave.Lays ρ p.leave := by
  have hFind := h.wellFormed.owned.find?_leave hLevel
  have hSolution {x : String} {m : Monotype} (hx : p.leave.solution? x = some m) :
      p.solution? x = some m := by
    obtain ⟨e, he, ht⟩ := Prefix.solution?_eq_some.1 hx
    exact Prefix.solution?_eq_some.2 ⟨e, ((hFind x e).1 he).1, ht⟩
  -- what is left of the prefix was there before
  have hUnsolved {x : String} (hx : p.leave.Unsolved x) : p.Unsolved x := by
    obtain ⟨e, he⟩ := hx.1
    exact (Prefix.unsolved_iff ((hFind x e).1 he).1).2 ((Prefix.unsolved_iff he).1 hx)
  refine ⟨h.wellFormed.leave hLevel, ?_, fun x m hx => h.solved x m (hSolution hx),
    fun x e he ht => ?_, fun x y i hx hy => h.unique x y i (hUnsolved hx) (hUnsolved hy),
    fun i c hc => ?_⟩
  · rw [Prefix.level_leave, ← h.level]
    rfl
  · obtain ⟨he, hOlder⟩ := (hFind x e).1 he
    obtain ⟨i, hi, hCell⟩ := h.cell x e he ht
    refine ⟨i, hi, Option.filter_eq_some_iff.2 ⟨hCell, ?_⟩⟩
    rw [decide_eq_true_iff, h.level]
    exact hOlder
  · obtain ⟨hCell, hOlder⟩ := Option.filter_eq_some_iff.1 hc
    obtain ⟨x, hx, hxi⟩ := h.full i c hCell
    obtain ⟨e, he⟩ := hx.1
    -- the variable is not forgotten, since its cell is not
    obtain rfl := Option.some.inj (hCell.symm.trans (h.cell_of_var he hx hxi))
    rw [decide_eq_true_iff, h.level] at hOlder
    have hLeft : p.leave.find? x = some e := (hFind x e).2 ⟨he, hOlder⟩
    exact ⟨x, (Prefix.unsolved_iff hLeft).2 ((Prefix.unsolved_iff he).1 hx), hxi⟩

/-! ## Instances -/

/-- One more variable. -/
def add (S : Layout) (i : ℕ) (c : Cell) : Layout :=
  { S with cell? := Function.update S.cell? i (some c) }

theorem add_cell?_of_ne (S : Layout) (c : Cell) (hne : j ≠ i) : (S.add i c).cell? j = S.cell? j :=
  Function.update_of_ne hne _ _

theorem add_comm (S : Layout) (c d : Cell) (hne : i ≠ j) :
    (S.add i c).add j d = (S.add j d).add i c := by
  simp only [add, Function.update_comm hne]

/-- A variable that is made up gets a number that is not in use. -/
theorem Lays.grows (h : S.Lays ρ p) (hq : q.WellFormed) {b : Bound} (hGrows : p.Grows q x b)
    (hCovers : p.Covers b.type) (hb : b.type.mono? = none) (hi : S.cell? i = none) :
    (S.add i ⟨S.level, b.kind, b.type.nameless ρ⟩).Lays (Function.update ρ x (.var i)) q := by
  have hne {y : String} (hy : p.Binds y) : y ≠ x := fun hyx => hGrows.fresh (hyx ▸ hy)
  -- older variables are read as before
  have hOld {y : String} (hy : p.Binds y) : Function.update ρ x (.var i) y = ρ y :=
    Function.update_of_ne (hne hy) _ ρ
  have hNew : q.find? x = some ⟨p.level, b⟩ := by rw [hGrows.find?, if_pos rfl]
  have hUnsolvedNew : q.Unsolved x := (Prefix.unsolved_iff hNew).2 hb
  have hFind {y : String} (hyx : y ≠ x) : q.find? y = p.find? y := by
    rw [hGrows.find?, if_neg hyx]
  have hUnsolved {y : String} (hyx : y ≠ x) : q.Unsolved y ↔ p.Unsolved y := by
    simp only [Prefix.Unsolved, Prefix.Binds, Prefix.solution?, hFind hyx]
  -- the new number is not that of another variable
  have hFresh {y : String} (hy : p.Unsolved y) : ρ y ≠ .var i := by
    intro hyi
    obtain ⟨e, he⟩ := hy.1
    rw [h.cell_of_var he hy hyi] at hi
    cases hi
  refine ⟨hq, by rw [hGrows.level]; exact h.level, fun y m hy => ?_, fun y e he ht => ?_,
    fun y z k hy hz hyk hzk => ?_, fun k c hc => ?_⟩
  · have hyx : y ≠ x := by
      rintro rfl
      rw [hUnsolvedNew.2] at hy
      cases hy
    have hyp : p.solution? y = some m := by rwa [Prefix.solution?, hFind hyx] at hy
    obtain ⟨e, he⟩ := Prefix.find?_of_solution? hyp
    rw [hOld ⟨e, he⟩, h.solved y m hyp]
    refine Monotype.nameless_congr fun z hz => (hOld ?_).symm
    exact h.wellFormed.scoping.binds (Prefix.mentions_of_solution? hyp hz)
  · by_cases hyx : y = x
    · subst hyx
      obtain rfl := Option.some.inj (hNew.symm.trans he)
      refine ⟨i, Function.update_self y _ ρ, ?_⟩
      rw [← h.level, Polytype.nameless_congr fun z hz => hOld (hCovers z hz)]
      exact Function.update_self i _ _
    · rw [hFind hyx] at he
      obtain ⟨k, hk, hCell⟩ := h.cell y e he ht
      have hki : k ≠ i := by
        rintro rfl
        exact hFresh ((Prefix.unsolved_iff he).2 ht) hk
      have hBound : e.bound.type.nameless (Function.update ρ x (.var i)) =
          e.bound.type.nameless ρ :=
        Polytype.nameless_congr fun z hz => hOld (h.wellFormed.scoping.binds ⟨e, he, hz⟩)
      exact ⟨k, (hOld ⟨e, he⟩).trans hk, by rw [add_cell?_of_ne S _ hki, hCell, hBound]⟩
  · -- two variables with one number: both are the new one, or both are old
    by_cases hyx : y = x <;> by_cases hzx : z = x
    · rw [hyx, hzx]
    · rw [hyx, Function.update_self] at hyk
      rw [Function.update_of_ne hzx, ← hyk] at hzk
      exact absurd hzk (hFresh ((hUnsolved hzx).1 hz))
    · rw [hzx, Function.update_self] at hzk
      rw [Function.update_of_ne hyx, ← hzk] at hyk
      exact absurd hyk (hFresh ((hUnsolved hyx).1 hy))
    · rw [Function.update_of_ne hyx] at hyk
      rw [Function.update_of_ne hzx] at hzk
      exact h.unique y z k ((hUnsolved hyx).1 hy) ((hUnsolved hzx).1 hz) hyk hzk
  · by_cases hki : k = i
    · exact ⟨x, hUnsolvedNew, by rw [Function.update_self, hki]⟩
    · rw [add_cell?_of_ne S _ hki] at hc
      obtain ⟨y, hy, hyk⟩ := h.full k c hc
      exact ⟨y, (hUnsolved (hne hy.1)).2 hy, (hOld hy.1).trans hyk⟩

end Layout

/-- An instance of a type, with the given variables for the quantified ones. -/
def Nameless.opened : List ℕ → Nameless ℕ → Nameless.Mono ℕ
  | i :: is, .all _ _ t => (t.fill (.var i)).opened is
  | _, .mono m => m
  | _, _ => .const .boolean

namespace Layout

/-- New variables of the current level for the quantifiers of a type. -/
def opened : Layout → List ℕ → Nameless ℕ → Layout
  | S, i :: is, .all k b t => (S.add i ⟨S.level, k, b⟩).opened is (t.fill (.var i))
  | S, _, _ => S

variable {S : Layout} {ρ : Reading ℕ} {p q : Prefix} {x y : String} {i j : ℕ} {is js : List ℕ}

theorem opened_level (S : Layout) (is : List ℕ) (t : Nameless ℕ) :
    (S.opened is t).level = S.level := by
  fun_induction opened S is t with
  | case1 S i is k b t ih => exact ih
  | case2 S is t => rfl

theorem opened_add (c : Cell) (hj : j ∉ is) (t : Nameless ℕ) :
    (S.add j c).opened is t = (S.opened is t).add j c := by
  induction is generalizing S t with
  | nil => rfl
  | cons i is ih =>
    cases t with
    | mono m => rfl
    | bottom => rfl
    | all k b t =>
      simp only [List.mem_cons, not_or] at hj
      rw [opened, opened, add_comm S _ _ hj.1, ih hj.2]
      rfl

/-- Instances of two types can be made in either order. -/
theorem opened_comm (h : ∀ i ∈ is, i ∉ js) (t u : Nameless ℕ) :
    (S.opened is t).opened js u = (S.opened js u).opened is t := by
  induction is generalizing S t with
  | nil => rfl
  | cons i is ih =>
    cases t with
    | mono m => rfl
    | bottom => rfl
    | all k b t =>
      rw [opened, opened, ih (fun j hj => h j (List.mem_cons_of_mem i hj)),
        opened_add _ (h i List.mem_cons_self), opened_level]

theorem opened_cell?_of_not_mem (hj : j ∉ is) (t : Nameless ℕ) :
    (S.opened is t).cell? j = S.cell? j := by
  induction is generalizing S t with
  | nil => rfl
  | cons i is ih =>
    simp only [List.mem_cons, not_or] at hj
    cases t with
    | mono m => rfl
    | bottom => rfl
    | all k b t => rw [opened, ih hj.2, add_cell?_of_ne S _ hj.1]

/-- Numbers that are not in use, each once. -/
structure Fresh (S : Layout) (is : List ℕ) : Prop where
  unused : ∀ i ∈ is, S.cell? i = none
  nodup : is.Nodup

/-- New variables for the bindings of a chain. -/
theorem Lays.instantiateWith (h : S.Lays ρ p) (hLevel : 1 ≤ p.level) {bs : List Binding}
    {m : Monotype} {s : Subst}
    (hBounds : ∀ b ∈ bs, b.bound.type.IsNormal ∧ b.bound.type.mono? = none)
    (hImages : ∀ x ∈ (Polytype.chain bs (.mono m)).freeVars, ∀ y ∈ (s.image x).freeVars, p.Binds y)
    (hFresh : S.Fresh is) (hLength : bs.length ≤ is.length) :
    ∃ ρ', (S.opened is ((Polytype.chain bs (.mono m)).nameless (s.nameless ρ))).Lays ρ'
        (p.instantiateWith s bs).2 ∧
      (∀ z, p.Binds z → ρ' z = ρ z) ∧
      (m.subst (p.instantiateWith s bs).1).nameless ρ' =
        ((Polytype.chain bs (.mono m)).nameless (s.nameless ρ)).opened is := by
  induction bs generalizing p S ρ s is with
  | nil =>
    refine ⟨ρ, ?_, fun _ _ => rfl, ?_⟩
    · cases is <;> exact h
    · rw [Prefix.instantiateWith_nil, Monotype.nameless_subst]
      cases is <;> rfl
  | cons b bs ih =>
    cases is with
    | nil => simp at hLength
    | cons i is =>
      obtain ⟨hNormal, hNotMono⟩ := hBounds b List.mem_cons_self
      have hCovers : p.Covers (b.bound.type.subst s) := by
        intro y hy
        obtain ⟨x, hx, hyx⟩ := Polytype.mem_freeVars_subst.1 hy
        exact hImages x (by simp [Polytype.freeVars, hx]) y hyx
      -- the substitution takes the names that are still free to variables in play
      have hBody (z : String) (hz : z ∈ (Polytype.chain bs (.mono m)).freeVars) (hne : z ≠ b.name) :
          ∀ y ∈ (s.image z).freeVars, p.Binds y :=
        hImages z (by simp [Polytype.freeVars, hz, hne])
      have hNext := h.wellFormed.newType hLevel (b := ⟨b.bound.kind, b.bound.type.subst s⟩)
        (hNormal.subst s) hCovers
      have hGrows := Prefix.newType_grows hLevel ⟨b.bound.kind, b.bound.type.subst s⟩
      simp only [Prefix.instantiateWith_cons]
      generalize p.newType ⟨b.bound.kind, b.bound.type.subst s⟩ = made at hGrows hNext
      obtain ⟨x, q⟩ := made
      -- the first quantifier becomes a variable, with the first number
      have hLays := h.grows hNext hGrows hCovers (Polytype.mono?_subst_eq_none.2 hNotMono)
        (hFresh.unused i List.mem_cons_self)
      have hxp {y : String} (hy : p.Binds y) : y ≠ x := fun hyx => hGrows.fresh (hyx ▸ hy)
      have hBinds {y : String} (hy : p.Binds y) : q.Binds y := by
        rwa [Prefix.Binds, hGrows.find?, if_neg (hxp hy)]
      -- the rest of the chain is read with the new variable for the quantified one
      have hRead : (Polytype.chain bs (.mono m)).nameless
          (Subst.nameless (s.insert b.name (.var x)) (Function.update ρ x (.var i))) =
          ((Polytype.chain bs (.mono m)).nameless (Reading.under (s.nameless ρ) b.name)).fill
            (.var i) := by
        rw [Polytype.fill_nameless, Subst.nameless_insert]
        refine Polytype.nameless_congr fun z hz => ?_
        by_cases hzb : z = b.name
        · rw [hzb, Function.update_self, Function.update_self, Monotype.nameless,
            Function.update_self]
        · rw [Function.update_of_ne hzb, Function.update_of_ne hzb]
          exact Monotype.nameless_congr fun y hy =>
            Function.update_of_ne (hxp (hBody z hz hzb y hy)) _ ρ
      -- and the other quantifiers follow, with the other numbers
      have hRest := ih hLays (by rw [hGrows.level]; exact hLevel) (s := s.insert b.name (.var x))
        (fun c hc => hBounds c (List.mem_cons_of_mem b hc))
        (fun z hz y hy => by
          rw [Subst.image_insert] at hy
          split_ifs at hy with hzb
          · obtain rfl : y = x := by simpa [Monotype.freeVars] using hy
            exact ⟨_, by rw [hGrows.find?, if_pos rfl]⟩
          · exact hBinds (hBody z hz hzb y hy))
        ⟨fun j hj => by
          have hji : j ≠ i := by
            rintro rfl
            exact (List.nodup_cons.1 hFresh.nodup).1 hj
          rw [add_cell?_of_ne S _ hji]
          exact hFresh.unused j (List.mem_cons_of_mem i hj),
          (List.nodup_cons.1 hFresh.nodup).2⟩
        (by simpa using hLength)
      rw [hRead, Polytype.nameless_subst] at hRest
      obtain ⟨ρ', hLays', hSame, hInstance⟩ := hRest
      refine ⟨ρ', hLays', fun z hz => ?_, hInstance⟩
      rw [hSame z (hBinds hz), Function.update_of_ne (hxp hz)]

/-- An instance of a type with quantifiers, or of a monotype. -/
theorem Lays.opened (h : S.Lays ρ p) (hLevel : 1 ≤ p.level) {t : Polytype} (ht : t.IsNormal)
    (hNotBottom : t ≠ .bottom) (hCovers : p.Covers t) (hFresh : S.Fresh is)
    (hLength : t.split.1.length ≤ is.length) :
    ∃ ρ', (S.opened is (t.nameless ρ)).Lays ρ' (p.opened t).2 ∧
      (∀ z, p.Binds z → ρ' z = ρ z) ∧ (p.opened t).1.nameless ρ' = (t.nameless ρ).opened is := by
  rcases ht.split_cases with hBottom | ⟨bs, m, hSplit, rfl, hBounds⟩
  · exact absurd hBottom hNotBottom
  · rw [Prefix.opened_of_split (by rwa [Polytype.normal_eq_self.2 ht])]
    rw [hSplit] at hLength
    refine h.instantiateWith hLevel (s := ∅)
      (fun b hb => ⟨hBounds b hb, ht.mono?_of_chain b hb⟩) (fun x hx y hy => ?_) hFresh hLength
    obtain rfl : y = x := by simpa [Monotype.freeVars] using hy
    exact hCovers y hx

/-- Only finitely many numbers are in use. -/
theorem Lays.exists_unused (h : S.Lays ρ p) : ∃ n, ∀ i, n ≤ i → S.cell? i = none := by
  let number : Nameless.Mono ℕ → ℕ
    | .var i => i
    | _ => 0
  obtain ⟨n, hn⟩ := (List.finite_toSet (p.entries.keys.map fun x => number (ρ x))).bddAbove
  refine ⟨n + 1, fun i hi => Option.eq_none_iff_forall_ne_some.2 fun c hc => ?_⟩
  obtain ⟨x, hx, hxi⟩ := h.full i c hc
  have hMem : i ∈ {j | j ∈ p.entries.keys.map fun x => number (ρ x)} :=
    List.mem_map.2 ⟨x, Prefix.mem_keys_iff.2 hx.1, by rw [hxi]⟩
  have := hn hMem
  omega

end Layout

end Mlf
