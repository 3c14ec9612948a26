import Mathlib
import Mlf.Proofs.Generalization
import Mlf.Proofs.Instances

/-!
# What generalization quantifies over

Generalization has to quantify over every variable of the current level that its result would mention,
since that level is left next, and over nothing else. A type mentions such a variable directly, or
through the bounds of others; the bound of a variable of an older level leads to no variable of the
current one. So the variables to quantify over are those that can be got to in steps that stay on the
current level.

The bounds become the bounds of quantifiers, and a quantifier binds in what comes after it. So each
variable has to come after those that its own bound mentions. That the bounds do not lead in a circle
makes such an order possible, and the depth-first walk finds one.

None of this needs bounds in normal form.

Main results:

* `Quantified` — the variables that can be got to on the current level;
* `mem_generalizable_iff` — these are quantified, with their bounds;
* `Ordered.mem_before` — each after those that its bound mentions;
* `generalize_closes_level` — what generalization does;
* `generalize_keeps_instances` — what the result stands for.
-/

namespace Mlf

/-! ## Lists in order -/

theorem Ordered.nodup {bs : List Binding} (h : Ordered bs) : (bs.map Binding.name).Nodup :=
  List.pairwise_map.2 (h.pairwise.imp fun hbc => hbc.1)

/-- In a list in order, what a bound mentions stands before it if it stands there at all. -/
theorem Ordered.mem_before {before after : List Binding} {b : Binding}
    (h : Ordered (before ++ b :: after)) {y : String} (hy : y ∈ b.bound.type.freeVars)
    (hListed : y ∈ (before ++ b :: after).map Binding.name) : y ∈ before.map Binding.name := by
  obtain ⟨-, hFrom, -⟩ := List.pairwise_append.1 h.pairwise
  obtain ⟨c, hc, rfl⟩ := List.mem_map.1 hListed
  rcases List.mem_append.1 hc with hc | hc
  · exact List.mem_map.2 ⟨c, hc, rfl⟩
  -- neither the binding itself nor one behind it is mentioned
  rcases List.mem_cons.1 hc with rfl | hc
  · exact absurd hy (h.apart c (by simp))
  · exact absurd hy ((List.pairwise_cons.1 hFrom).1 c hc).2

namespace Prefix

/-! ## Variables of the current level -/

/-- The variables of the current level that a type leads to through the bounds of such variables. -/
inductive Quantified (p : Prefix) (t : Polytype) : String → Prop
  | free {x : String} {e : Entry} (hx : x ∈ t.freeVars) (he : p.find? x = some e)
    (hLevel : e.level = p.level) : Quantified p t x
  | mentioned {x y : String} {e : Entry} (hx : Quantified p t x) (hxy : p.Mentions x y)
    (he : p.find? y = some e) (hLevel : e.level = p.level) : Quantified p t y

variable {p : Prefix} {t : Polytype}

theorem Quantified.find? {x : String} (h : p.Quantified t x) :
    ∃ e, p.find? x = some e ∧ e.level = p.level := by
  cases h with
  | free _ he hLevel => exact ⟨_, he, hLevel⟩
  | mentioned _ _ he hLevel => exact ⟨_, he, hLevel⟩

/-- A way from a type to a variable of the current level never leaves that level: what is on the way
is not older than where it leads. -/
theorem quantified_iff (hOwned : p.Owned) (hScoped : p.Scoped) {x : String} :
    p.Quantified t x ↔
      (∃ e, p.find? x = some e ∧ e.level = p.level) ∧ ∃ y ∈ t.freeVars, p.Reaches y x := by
  constructor
  · intro h
    refine ⟨h.find?, ?_⟩
    induction h with
    | free hx => exact ⟨_, hx, .refl⟩
    | mentioned _ hxy _ _ ih =>
      obtain ⟨y, hy, hReach⟩ := ih
      exact ⟨y, hy, hReach.tail hxy⟩
  · rintro ⟨⟨e, he, hLevel⟩, y, hy, hReach⟩
    induction hReach generalizing e with
    | refl => exact .free hy he hLevel
    | @tail z x hyz hzx ih =>
      obtain ⟨ez, hez⟩ := hzx.binds
      -- what mentions the variable is no older, and nothing is younger than the current level
      have hOlder := hScoped.reaches_level hez (.single hzx) he
      have hInner := hOwned.level_le hez
      exact .mentioned (ih ez hez (by omega)) hzx he hLevel

/-- A type is quantified over the variables of the current level that it leads to, with the bounds
that they have. -/
theorem mem_generalizable_iff (hOwned : p.Owned) (hScoped : p.Scoped) (hCovers : p.Covers t)
    {b : Binding} :
    b ∈ (p.generalizable t).1 ↔
      p.Quantified t b.name ∧ ∃ e, p.find? b.name = some e ∧ e.bound = b.bound := by
  rw [mem_generalizable hScoped hCovers, quantified_iff hOwned hScoped]
  constructor
  · rintro ⟨⟨e, he, hBound, hLevel⟩, hReached⟩
    have hInner := hOwned.level_le he
    exact ⟨⟨⟨e, he, by omega⟩, hReached⟩, e, he, hBound⟩
  · rintro ⟨⟨⟨e, he, hLevel⟩, hReached⟩, e', he', hBound⟩
    obtain rfl := Option.some.inj (he.symm.trans he')
    exact ⟨⟨e, he, hBound, by omega⟩, hReached⟩

theorem mem_map_generalizable (hOwned : p.Owned) (hScoped : p.Scoped) (hCovers : p.Covers t)
    {x : String} : x ∈ (p.generalizable t).1.map Binding.name ↔ p.Quantified t x := by
  rw [List.mem_map]
  constructor
  · rintro ⟨b, hb, rfl⟩
    exact ((mem_generalizable_iff hOwned hScoped hCovers).1 hb).1
  · intro hx
    obtain ⟨e, he, -⟩ := hx.find?
    exact ⟨⟨x, e.bound⟩, (mem_generalizable_iff hOwned hScoped hCovers).2 ⟨hx, e, he, rfl⟩, rfl⟩

/-- Generalization closes a type over the current level. In a prefix where each variable is owned by
the level of its entry, bounds mention variables in play of no younger level, and no bound leads
back to its variable, and for a type over the variables in play: nothing is misused and the
variables stay as they are; every name that is free in the result belongs to an older level; and the
quantified variables are those of the current level that the type leads to on that level, each once,
with its bound, and after every variable of the current level that its bound mentions. -/
theorem generalize_closes_level {p : Prefix} (hOwned : p.Owned) (hScoped : p.Scoped)
    (hAcyclic : p.Acyclic) {t : Polytype} (hCovers : p.Covers t) :
    p.generalize t = (.quantifyAll (p.generalizable t).1 t, p) ∧
    (∀ x ∈ (p.generalize t).1.freeVars, ∃ e, p.find? x = some e ∧ e.level < p.level) ∧
    (∀ x, x ∈ (p.generalizable t).1.map Binding.name ↔ p.Quantified t x) ∧
    ((p.generalizable t).1.map Binding.name).Nodup ∧
    (∀ b ∈ (p.generalizable t).1, ∃ e, p.find? b.name = some e ∧ e.bound = b.bound) ∧
    ∀ before b after, (p.generalizable t).1 = before ++ b :: after →
      ∀ y ∈ b.bound.type.freeVars, (∃ e, p.find? y = some e ∧ e.level = p.level) →
        y ∈ before.map Binding.name := by
  have hOrdered := generalizable_ordered hAcyclic t
  refine ⟨generalize_eq hScoped hCovers, fun x hx => ?_,
    fun x => mem_map_generalizable hOwned hScoped hCovers, hOrdered.nodup, fun b hb => ?_, ?_⟩
  · exact (freeVars_generalize hScoped hAcyclic hCovers hx).1
  · exact ((mem_generalizable_iff hOwned hScoped hCovers).1 hb).2
  · rintro before b after hList y hy ⟨e, he, hLevel⟩
    have hb : b ∈ (p.generalizable t).1 := by simp [hList]
    obtain ⟨hQuantified, eb, heb, hBound⟩ := (mem_generalizable_iff hOwned hScoped hCovers).1 hb
    -- what the bound mentions on this level is quantified as well
    have hListed := (mem_map_generalizable hOwned hScoped hCovers).2
      (.mentioned hQuantified ⟨eb, heb, hBound ▸ hy⟩ he hLevel)
    rw [hList] at hOrdered hListed
    exact hOrdered.mem_before hy hListed

/-- The type `b → a` mentions `b` first, but the bound of `b` mentions `a`. It mentions `w` too,
which is left to the level outside. -/
theorem generalize_closes_level_dependent : ∃ p t,
    p = ((empty.enter.add "w" .unbounded).enter.add "a" .unbounded).add "b" ⟨.flexible,
      .all "c" .flexible .bottom (.mono (.fn (.var "c") (.fn (.var "a") (.var "w"))))⟩ ∧
    t = .mono (.fn (.var "b") (.var "a")) ∧
    (p.generalizable t).1.map Binding.name = ["a", "b"] ∧
    (∀ x, p.Quantified t x ↔ x = "a" ∨ x = "b") ∧
    p.generalize t = (.quantifyAll (p.generalizable t).1 t, p) ∧
    ∀ x ∈ (p.generalize t).1.freeVars, ∃ e, p.find? x = some e ∧ e.level < 2 := by
  obtain ⟨p, t, hp, ht, hNames, hLevel⟩ : ∃ p t,
      p = ((empty.enter.add "w" .unbounded).enter.add "a" .unbounded).add "b" ⟨.flexible,
        .all "c" .flexible .bottom (.mono (.fn (.var "c") (.fn (.var "a") (.var "w"))))⟩ ∧
      t = .mono (.fn (.var "b") (.var "a")) ∧
      (p.generalizable t).1.map Binding.name = ["a", "b"] ∧ p.level = 2 :=
    ⟨_, _, rfl, rfl, by cbv, rfl⟩
  have hWellFormed : p.WellFormed := by
    subst hp
    exact ((wellFormed_empty.enter.add (by decide)).enter.add (by decide)).add (by decide)
  have hCovers : p.Covers t := by
    subst hp ht
    decide
  -- what is quantified is what the list of names says
  obtain ⟨hEq, hOlder, hQuantified, -⟩ := generalize_closes_level hWellFormed.owned
    hWellFormed.scoping hWellFormed.acyclic hCovers
  refine ⟨p, t, hp, ht, hNames, fun x => ?_, hEq, hLevel ▸ hOlder⟩
  rw [← hQuantified, hNames]
  simp

/-! ## Instances -/

/-- Generalization loses no instance and adds none. In a prefix as above, let the variables of older
levels have values that satisfy their bounds. Then the instances of the generalized type are the
values of the type in the solutions of the prefix that agree on these variables. So what mentions
one variable in two places stays tied together, and the variables that are not quantified restrict
nothing. -/
theorem generalize_keeps_instances {p : Prefix} (hOwned : p.Owned) (hScoped : p.Scoped)
    (hAcyclic : p.Acyclic) (hLevel : 1 ≤ p.level) {t : Monotype} (hCovers : p.Covers t)
    {r : Valuation}
    (hr : ∀ x e, p.find? x = some e → e.level < p.level → r x ∈ e.bound.type.Inst r) :
    (p.generalize t).1.Inst r = {g | ∃ r' : Valuation,
      (∀ x e, p.find? x = some e → e.level < p.level → r' x = r x) ∧ p.IsSolution r' ∧
        t.eval r' = g} := by
  have hFind := hOwned.find?_leave hLevel
  -- the variables of older levels are those that are left with the current one
  have hSolution : p.leave.IsSolution r := by
    intro x e he
    obtain ⟨he, hOlder⟩ := (hFind x e).1 he
    exact hr x e he hOlder
  have hAgree (r' : Valuation) : (∀ x, p.leave.Binds x → r' x = r x) ↔
      ∀ x e, p.find? x = some e → e.level < p.level → r' x = r x := by
    constructor
    · intro hSame x e he hOlder
      exact hSame x ⟨e, (hFind x e).2 ⟨he, hOlder⟩⟩
    · intro hSame x hx
      obtain ⟨e, he⟩ := hx
      obtain ⟨he, hOlder⟩ := (hFind x e).1 he
      exact hSame x e he hOlder
  ext g
  rw [mem_Inst_generalize hOwned hScoped hAcyclic hLevel hCovers hSolution]
  constructor
  · intro hg
    obtain ⟨r', hr', hSame, hg⟩ := hg
    exact ⟨r', (hAgree r').1 hSame, hr', hg.symm⟩
  · intro hg
    obtain ⟨r', hSame, hr', hg⟩ := hg
    exact ⟨r', hr', (hAgree r').2 hSame, hg.symm⟩

/-- The type `b → b`, where the bound of `b` is `∀ c. c → a` and `a` is solved by `w` of the level
outside, which stands for a number. The two sides of an instance are the same, and nothing is asked
of the variable `u`, which the type does not lead to. -/
theorem generalize_keeps_instances_shared : ∃ (p : Prefix) (t : Monotype) (r : Valuation),
    p = (((empty.enter.add "w" .unbounded).enter.add "a" ⟨.flexible, .mono (.var "w")⟩).add "b"
      ⟨.flexible, .all "c" .flexible .bottom (.mono (.fn (.var "c") (.var "a")))⟩).add "u" .unbounded ∧
    t = .fn (.var "b") (.var "b") ∧ r "w" = .const .number ∧
    ∀ g, g ∈ (p.generalize t).1.Inst r ↔
      ∃ c, g = .fn (.fn c (.const .number)) (.fn c (.const .number)) := by
  let r : Valuation := fun _ => .const .number
  let bound : Polytype := .all "c" .flexible .bottom (.mono (.fn (.var "c") (.var "a")))
  let p₁ := empty.enter.add "w" .unbounded
  let p₂ := p₁.enter.add "a" ⟨.flexible, .mono (.var "w")⟩
  let p₃ := p₂.add "b" ⟨.flexible, bound⟩
  have h₁ : empty.enter.Grows p₁ "w" .unbounded := add_grows (by decide) (by decide) _
  have h₂ : p₁.enter.Grows p₂ "a" ⟨.flexible, .mono (.var "w")⟩ :=
    add_grows (by decide) (by decide) _
  have h₃ : p₂.Grows p₃ "b" ⟨.flexible, bound⟩ := add_grows (by decide) (by decide) _
  have h₄ : p₃.Grows (p₃.add "u" .unbounded) "u" .unbounded := add_grows (by decide) (by decide) _
  generalize hp : p₃.add "u" .unbounded = p at h₄
  have hWellFormed : p.WellFormed := by
    subst hp
    exact (((wellFormed_empty.enter.add (by decide)).enter.add (by decide)).add (by decide)).add
      (by decide)
  have hSolutions (v : Valuation) :
      p.IsSolution v ↔ v "a" = v "w" ∧ ∃ c, v "b" = .fn c (v "a") := by
    have hEmpty : empty.IsSolution v := by
      intro x e he
      cases he
    simp [h₄.isSolution_iff, h₃.isSolution_iff, h₂.isSolution_iff, h₁.isSolution_iff,
      isSolution_enter, hEmpty, Bound.unbounded, bound, Polytype.Inst, Monotype.eval]
  have hCovers : p.Covers (Monotype.fn (.var "b") (.var "b")) := by
    subst hp
    decide
  have hLevel : p.level = 2 := by
    subst hp
    rfl
  -- the only variable of the older level is `w`
  have hOlder (x : String) (e : Entry) (he : p.find? x = some e) (hLt : e.level < p.level) :
      x = "w" ∧ e.bound = .unbounded := by
    rw [h₄.find?, h₃.find?, h₂.find?, find?_enter, h₁.find?] at he
    rw [hLevel] at hLt
    split_ifs at he with hu hb ha hw
    · cases he
      exact absurd hLt (by decide)
    · cases he
      exact absurd hLt (by decide)
    · cases he
      exact absurd hLt (by decide)
    · cases he
      exact ⟨hw, rfl⟩
    · cases he
  have hInst := generalize_keeps_instances hWellFormed.owned hWellFormed.scoping
    hWellFormed.acyclic (by omega) hCovers (r := r) fun x e he hLt => by
      rw [(hOlder x e he hLt).2]
      trivial
  refine ⟨p, _, r, rfl, rfl, rfl, fun g => ?_⟩
  rw [hInst]
  constructor
  · rintro ⟨v, hSame, hv, rfl⟩
    obtain ⟨ha, c, hb⟩ := (hSolutions v).1 hv
    have hw : v "w" = .const .number :=
      hSame "w" ⟨1, .unbounded⟩ (by subst hp; rfl) (by rw [hLevel]; decide)
    exact ⟨c, by simp [Monotype.eval, hb, ha, hw]⟩
  · rintro ⟨c, rfl⟩
    refine ⟨Function.update r "b" (.fn c (.const .number)), fun x e he hLt => ?_,
      (hSolutions _).2 ⟨rfl, c, rfl⟩, rfl⟩
    rw [(hOlder x e he hLt).1]
    rfl

end Prefix

end Mlf
