import Mlf.Polytype.Equiv
import Mlf.Proofs.NormalForm

/-!
# Types without bound names

A nameless type has no names for its quantified variables: the body of a quantifier has one variable
more than the quantifier itself, and that variable is the quantified one. The variables come from any
type, so a type over no names of its own can be read over any other variables.

Every type has a nameless reading once its free names have one. The reading turns substitution into
a change of the environment, and what the names of quantified variables do (hiding, renaming to avoid
capture) is gone from it. Normal forms have a short definition on nameless types, one that mentions
no substitution in progress and no names to avoid; it commutes with every replacement of variables.

Main results:

* `nameless_subst` — the reading of a substituted type is the reading of the type in the environment
  of the replacements;
* `nameless_normal` — the reading of a normal form is the normal form of the reading;
* `Nameless.norm_bind` — normal forms commute with replacements;
* `alphaEq_iff` — two types agree up to the names of quantified variables exactly when they have the
  same reading, so that equivalent types are those with the same normal form
  (`equivalent_iff_norm_eq`);
* `Inst_eq_of_equivalent` — equivalent types have the same instances.
-/

namespace Mlf

variable {t u : Polytype} {x : String}
/-! ## Nameless types -/

/-- Monotypes over any variables. -/
inductive Nameless.Mono (V : Type) where
  | var (v : V)
  | const (base : BaseType)
  | fn (param body : Mono V)

/-- Types over any variables. The body of a quantifier has the variable `none` for the quantified
one. -/
inductive Nameless : Type → Type 1 where
  | mono {V : Type} (type : Nameless.Mono V) : Nameless V
  | bottom {V : Type} : Nameless V
  | all {V : Type} (kind : BoundKind) (bound : Nameless V) (body : Nameless (Option V)) : Nameless V

namespace Nameless

variable {U V W : Type}

namespace Mono

/-- Replaces the variables of a monotype. -/
def bind (f : V → Mono W) : Mono V → Mono W
  | var v => f v
  | const c => const c
  | fn p b => fn (p.bind f) (b.bind f)

/-- The monotype under one more quantifier. -/
def weaken (m : Mono V) : Mono (Option V) := m.bind fun v => var (some v)

/-- Whether a variable occurs. -/
def Uses (v : V) : Mono V → Prop
  | var w => v = w
  | const _ => False
  | fn p b => p.Uses v ∨ b.Uses v

@[simp] theorem bind_var (m : Mono V) : m.bind var = m := by
  induction m with
  | var v => rfl
  | const c => rfl
  | fn p b ihp ihb => rw [bind, ihp, ihb]

@[simp] theorem bind_bind (m : Mono U) (f : U → Mono V) (g : V → Mono W) :
    (m.bind f).bind g = m.bind fun v => (f v).bind g := by
  induction m with
  | var v => rfl
  | const c => rfl
  | fn p b ihp ihb => simp only [bind, ihp, ihb]

theorem bind_congr {m : Mono V} {f g : V → Mono W} (h : ∀ v, m.Uses v → f v = g v) :
    m.bind f = m.bind g := by
  induction m with
  | var v => exact h v rfl
  | const c => rfl
  | fn p b ihp ihb =>
    rw [bind, bind, ihp fun v hv => h v (Or.inl hv), ihb fun v hv => h v (Or.inr hv)]

theorem uses_bind {m : Mono V} {f : V → Mono W} {w : W} :
    (m.bind f).Uses w ↔ ∃ v, m.Uses v ∧ (f v).Uses w := by
  induction m with
  | var v => simp [bind, Uses]
  | const c => simp [bind, Uses]
  | fn p b ihp ihb =>
    simp only [bind, Uses, ihp, ihb]
    grind

theorem not_uses_none_weaken (m : Mono V) : ¬ m.weaken.Uses none := by
  rw [weaken, uses_bind]
  rintro ⟨v, -, h⟩
  simp [Uses] at h

@[simp] theorem uses_some_weaken {m : Mono V} {v : V} : m.weaken.Uses (some v) ↔ m.Uses v := by
  rw [weaken, uses_bind]
  simp [Uses]

@[simp] theorem weaken_bind (m : Mono V) (f : Option V → Mono W) :
    m.weaken.bind f = m.bind fun v => f (some v) := by
  rw [weaken, bind_bind]
  rfl

theorem weaken_ne_var_none (m : Mono V) : m.weaken ≠ var none := by
  intro h
  exact not_uses_none_weaken m (h ▸ rfl)

end Mono

/-- A replacement under one more quantifier, which leaves the quantified variable alone. -/
def lift (f : V → Mono W) : Option V → Mono (Option W)
  | none => .var none
  | some v => (f v).weaken

/-- The replacement of the quantified variable by a monotype. -/
def filling (m : Mono V) : Option V → Mono V
  | none => m
  | some v => .var v

@[simp] theorem lift_var : lift (Mono.var : V → Mono V) = Mono.var := by
  funext v
  cases v <;> rfl

theorem lift_bind (f : U → Mono V) (g : V → Mono W) (v : Option U) :
    (lift f v).bind (lift g) = lift (fun v => (f v).bind g) v := by
  cases v with
  | none => rfl
  | some v =>
    simp only [lift, Mono.weaken_bind]
    rw [Mono.weaken, Mono.bind_bind]
    rfl

/-- Replaces the variables of a type. -/
def bind : {V W : Type} → (V → Mono W) → Nameless V → Nameless W
  | _, _, f, mono m => mono (m.bind f)
  | _, _, _, bottom => bottom
  | _, _, f, all k b t => all k (b.bind f) (t.bind (lift f))

/-- Puts a monotype in the place of the quantified variable. -/
def fill (m : Mono V) (t : Nameless (Option V)) : Nameless V := t.bind (filling m)

/-- Whether a variable occurs. -/
def Uses : {V : Type} → V → Nameless V → Prop
  | _, v, mono m => m.Uses v
  | _, _, bottom => False
  | _, v, all _ b t => b.Uses v ∨ t.Uses (some v)

@[simp] theorem bind_var (t : Nameless V) : t.bind Mono.var = t := by
  induction t with
  | mono m => rw [bind, Mono.bind_var]
  | bottom => rfl
  | all k b t ihb iht => rw [bind, lift_var, ihb, iht]

theorem bind_bind (t : Nameless U) (f : U → Mono V) (g : V → Mono W) :
    (t.bind f).bind g = t.bind fun v => (f v).bind g := by
  induction t generalizing V W with
  | mono m => rw [bind, bind, bind, Mono.bind_bind]
  | bottom => rfl
  | all k b t ihb iht => simp only [bind, ihb, iht, lift_bind]

theorem bind_congr {t : Nameless V} {f g : V → Mono W} (h : ∀ v, t.Uses v → f v = g v) :
    t.bind f = t.bind g := by
  induction t generalizing W with
  | mono m => rw [bind, bind, Mono.bind_congr h]
  | bottom => rfl
  | all k b t ihb iht =>
    -- the quantified variable is left alone by both
    have hBody : ∀ v, t.Uses v → lift f v = lift g v := by
      rintro (_ | v) hv
      · rfl
      · rw [lift, lift, h v (Or.inr hv)]
    rw [bind, bind, ihb fun v hv => h v (Or.inl hv), iht hBody]

theorem uses_bind {t : Nameless V} {f : V → Mono W} {w : W} :
    (t.bind f).Uses w ↔ ∃ v, t.Uses v ∧ (f v).Uses w := by
  induction t generalizing W with
  | mono m => exact Mono.uses_bind
  | bottom => simp [bind, Uses]
  | all k b t ihb iht =>
    -- the quantified variable stands for itself only
    have hBody : (∃ v, t.Uses v ∧ (lift f v).Uses (some w)) ↔
        ∃ v, t.Uses (some v) ∧ (f v).Uses w := by
      constructor
      · rintro ⟨_ | v, hv, hw⟩
        · cases hw
        · exact ⟨v, hv, Mono.uses_some_weaken.1 hw⟩
      · rintro ⟨v, hv, hw⟩
        exact ⟨some v, hv, Mono.uses_some_weaken.2 hw⟩
    simp only [bind, Uses, ihb, iht, hBody]
    grind

/-- Under a lifted replacement the quantified variable occurs where it did. -/
theorem uses_none_bind_lift {t : Nameless (Option V)} {f : V → Mono W} :
    (t.bind (lift f)).Uses none ↔ t.Uses none := by
  rw [uses_bind]
  constructor
  · rintro ⟨_ | v, hv, hw⟩
    · exact hv
    · exact absurd hw (Mono.not_uses_none_weaken _)
  · exact fun h => ⟨none, h, rfl⟩

theorem bind_lift_eq_var_none {t : Nameless (Option V)} {f : V → Mono W} :
    t.bind (lift f) = mono (.var none) ↔ t = mono (.var none) := by
  refine ⟨fun h => ?_, fun h => h ▸ rfl⟩
  match t, h with
  | mono (.var none), _ => rfl
  | mono (.var (some v)), h =>
    simp only [bind, Mono.bind, lift, mono.injEq] at h
    exact absurd h (Mono.weaken_ne_var_none _)

/-- Filling in comes before or after a replacement. -/
theorem bind_fill (m : Mono V) (t : Nameless (Option V)) (f : V → Mono W) :
    (t.fill m).bind f = (t.bind (lift f)).fill (m.bind f) := by
  rw [fill, fill, bind_bind, bind_bind]
  congr 1
  funext v
  cases v with
  | none => rfl
  | some v =>
    show f v = (f v).weaken.bind (filling (m.bind f))
    rw [Mono.weaken_bind]
    exact (Mono.bind_var _).symm

/-! ## Normal forms -/

open Classical in
/-- Quantifies a type: a monotype takes the place of the variable, an unused variable is dropped, and
a quantifier over its own variable is its bound. -/
noncomputable def quantify (k : BoundKind) (b : Nameless V) (t : Nameless (Option V)) : Nameless V :=
  match b with
  | mono m => t.fill m
  | b =>
    if ¬ t.Uses none then t.fill (.const .boolean)
    else if t = mono (.var none) then b
    else all k b t

/-- The normal form of a type, from those of its parts. -/
noncomputable def norm : {V : Type} → Nameless V → Nameless V
  | _, mono m => mono m
  | _, bottom => bottom
  | _, all k b t => quantify k b.norm t.norm

/-- Whether the type is a monotype. -/
def IsMono (t : Nameless V) : Prop := ∃ m, t = mono m

@[simp] theorem isMono_bind {t : Nameless V} {f : V → Mono W} : (t.bind f).IsMono ↔ t.IsMono := by
  cases t <;> simp [IsMono, bind]

@[simp] theorem quantify_mono (k : BoundKind) (m : Mono V) (t : Nameless (Option V)) :
    quantify k (mono m) t = t.fill m := rfl

theorem quantify_unused {k : BoundKind} {b : Nameless V} {t : Nameless (Option V)}
    (hb : ¬ b.IsMono) (h : ¬ t.Uses none) : quantify k b t = t.fill (.const .boolean) := by
  cases b with
  | mono m => exact absurd ⟨m, rfl⟩ hb
  | bottom => exact if_pos h
  | all k b t => exact if_pos h

@[simp] theorem quantify_var_none (k : BoundKind) (b : Nameless V) :
    quantify k b (mono (.var none)) = b := by
  cases b <;> simp [quantify, Uses, Mono.Uses, fill, bind, Mono.bind, filling]

theorem quantify_used {k : BoundKind} {b : Nameless V} {t : Nameless (Option V)} (hb : ¬ b.IsMono)
    (hUsed : t.Uses none) (hVar : t ≠ mono (.var none)) : quantify k b t = all k b t := by
  cases b with
  | mono m => exact absurd ⟨m, rfl⟩ hb
  | bottom => simp [quantify, hUsed, hVar]
  | all k b t => simp [quantify, hUsed, hVar]

/-- A variable that does not occur can be filled with anything. -/
theorem fill_of_unused {t : Nameless (Option V)} (h : ¬ t.Uses none) (m n : Mono V) :
    t.fill m = t.fill n := by
  refine bind_congr fun v hv => ?_
  cases v with
  | none => exact absurd hv h
  | some v => rfl

/-- Whatever the bound, an unused quantifier is dropped. -/
theorem quantify_of_unused (k : BoundKind) (b : Nameless V) {t : Nameless (Option V)}
    (h : ¬ t.Uses none) (m : Mono V) : quantify k b t = t.fill m := by
  by_cases hb : b.IsMono
  · obtain ⟨n, rfl⟩ := hb
    exact fill_of_unused h n m
  · rw [quantify_unused hb h, fill_of_unused h _ m]

theorem bind_quantify (k : BoundKind) (b : Nameless V) (t : Nameless (Option V))
    (f : V → Mono W) : (quantify k b t).bind f = quantify k (b.bind f) (t.bind (lift f)) := by
  -- filled in, collapsed, kept or dropped
  by_cases hb : b.IsMono
  · obtain ⟨m, rfl⟩ := hb
    exact bind_fill m t f
  · have hb' : ¬ (b.bind f).IsMono := by simpa using hb
    by_cases hUsed : t.Uses none
    · by_cases hVar : t = mono (.var none)
      · subst hVar
        simp [bind, Mono.bind, lift]
      · rw [quantify_used hb hUsed hVar, bind,
          quantify_used hb' (uses_none_bind_lift.2 hUsed) (mt bind_lift_eq_var_none.1 hVar)]
    · rw [quantify_unused hb hUsed, bind_fill,
        quantify_unused hb' (mt uses_none_bind_lift.1 hUsed)]
      rfl

/-- Normal forms commute with replacements. -/
theorem norm_bind (t : Nameless V) (f : V → Mono W) : (t.bind f).norm = t.norm.bind f := by
  induction t generalizing W with
  | mono m => rfl
  | bottom => rfl
  | all k b t ihb iht => rw [bind, norm, norm, bind_quantify, ihb, iht]

end Nameless

/-! ## The reading of a type -/

/-- What the free names of a type are read as. -/
abbrev Reading (V : Type) := String → Nameless.Mono V

namespace Reading

variable {V W : Type}

/-- Under a quantifier over `x`, `x` is the quantified variable and hides what it was before. -/
def under (r : Reading V) (x : String) : Reading (Option V) := fun y =>
  if y = x then .var none else (r y).weaken

@[simp] theorem under_self (r : Reading V) (x : String) : r.under x x = .var none := if_pos rfl

theorem under_of_ne (r : Reading V) {y : String} (h : y ≠ x) : r.under x y = (r y).weaken :=
  if_neg h

end Reading

variable {V W : Type}

/-- The reading of a monotype. -/
def Monotype.nameless (r : Reading V) : Monotype → Nameless.Mono V
  | var x => r x
  | const c => .const c
  | fn p b => .fn (p.nameless r) (b.nameless r)

/-- The reading of a type. -/
def Polytype.nameless {V : Type} (r : Reading V) : Polytype → Nameless V
  | mono m => .mono (m.nameless r)
  | bottom => .bottom
  | all x k b t => .all k (b.nameless r) (t.nameless (r.under x))

/-- The reading of the replacements of a substitution. -/
def Subst.nameless (s : Subst) (r : Reading V) : Reading V := fun x => (s.image x).nameless r

@[simp] theorem Subst.nameless_empty (r : Reading V) : (∅ : Subst).nameless r = r := rfl

theorem Subst.nameless_insert (s : Subst) (x : String) (m : Monotype) (r : Reading V) :
    Subst.nameless (s.insert x m) r = Function.update (s.nameless r) x (m.nameless r) := by
  funext y
  rw [nameless, image_insert, Function.update_apply]
  split <;> rfl

namespace Monotype

theorem nameless_congr {t : Monotype} {r r' : Reading V} (h : ∀ x ∈ t.freeVars, r x = r' x) :
    t.nameless r = t.nameless r' := by
  induction t with
  | var x => exact h x (by simp [freeVars])
  | const c => rfl
  | fn p b ihp ihb =>
    simp only [freeVars, NameSet.mem_union] at h
    rw [nameless, nameless, ihp fun x hx => h x (Or.inl hx), ihb fun x hx => h x (Or.inr hx)]

theorem nameless_bind (t : Monotype) (r : Reading V) (f : V → Nameless.Mono W) :
    (t.nameless r).bind f = t.nameless fun x => (r x).bind f := by
  induction t with
  | var x => rfl
  | const c => rfl
  | fn p b ihp ihb => rw [nameless, Nameless.Mono.bind, ihp, ihb, nameless]

theorem nameless_subst (t : Monotype) (s : Subst) (r : Reading V) :
    (t.subst s).nameless r = t.nameless (s.nameless r) := by
  induction t with
  | var x => rfl
  | const c => rfl
  | fn p b ihp ihb => rw [subst, nameless, ihp, ihb, nameless]

theorem uses_nameless {t : Monotype} {r : Reading V} {v : V} :
    (t.nameless r).Uses v ↔ ∃ x ∈ t.freeVars, (r x).Uses v := by
  induction t with
  | var x => simp [nameless, freeVars]
  | const c => simp [nameless, freeVars, Nameless.Mono.Uses]
  | fn p b ihp ihb =>
    simp only [nameless, Nameless.Mono.Uses, ihp, ihb, freeVars, NameSet.mem_union]
    grind

end Monotype

namespace Polytype

/-- The reading depends on the free names only. -/
theorem nameless_congr {r r' : Reading V} (h : ∀ x ∈ t.freeVars, r x = r' x) :
    t.nameless r = t.nameless r' := by
  induction t generalizing V with
  | mono m => rw [nameless, nameless, Monotype.nameless_congr h]
  | bottom => rfl
  | all x k b t ihb iht =>
    have hBody : ∀ y ∈ t.freeVars, r.under x y = r'.under x y := by
      intro y hy
      by_cases hyx : y = x
      · simp [hyx]
      · rw [r.under_of_ne hyx, r'.under_of_ne hyx, h y (by simp [freeVars, hy, hyx])]
    rw [nameless, nameless, ihb fun y hy => h y (by simp [freeVars, hy]), iht hBody]

theorem nameless_bind (t : Polytype) (r : Reading V) (f : V → Nameless.Mono W) :
    (t.nameless r).bind f = t.nameless fun x => (r x).bind f := by
  induction t generalizing V W with
  | mono m => rw [nameless, Nameless.bind, Monotype.nameless_bind, nameless]
  | bottom => rfl
  | all x k b t ihb iht =>
    -- a replacement under the quantifier is one outside of it for all other names
    have hUnder : (fun y => (r.under x y).bind (Nameless.lift f)) =
        Reading.under (fun y => (r y).bind f) x := by
      funext y
      by_cases hyx : y = x
      · simp [hyx, Nameless.Mono.bind, Nameless.lift]
      · rw [r.under_of_ne hyx, Reading.under_of_ne _ hyx, Nameless.Mono.weaken_bind,
          Nameless.Mono.weaken, Nameless.Mono.bind_bind]
        rfl
    rw [nameless, Nameless.bind, ihb, iht, hUnder, nameless]

theorem uses_nameless {r : Reading V} {v : V} :
    (t.nameless r).Uses v ↔ ∃ x ∈ t.freeVars, (r x).Uses v := by
  induction t generalizing V with
  | mono m => exact Monotype.uses_nameless
  | bottom => simp [nameless, freeVars, Nameless.Uses]
  | all x k b t ihb iht =>
    -- the name of the quantifier is read as its variable, which is none from outside
    have hBody : (∃ y ∈ t.freeVars, (r.under x y).Uses (some v)) ↔
        ∃ y ∈ t.freeVars, y ≠ x ∧ (r y).Uses v := by
      refine exists_congr fun y => and_congr_right fun _ => ?_
      by_cases hyx : y = x
      · simp [hyx, Nameless.Mono.Uses]
      · simp [r.under_of_ne hyx, hyx]
    simp only [nameless, Nameless.Uses, ihb, iht, hBody, freeVars, NameSet.mem_union,
      NameSet.mem_erase]
    grind

/-- The quantified variable occurs in the reading of a body where its name is free. -/
theorem uses_none_nameless {r : Reading V} :
    (t.nameless (r.under x)).Uses none ↔ x ∈ t.freeVars := by
  rw [uses_nameless]
  constructor
  · rintro ⟨y, hy, hUses⟩
    by_cases hyx : y = x
    · exact hyx ▸ hy
    · rw [r.under_of_ne hyx] at hUses
      exact absurd hUses (Nameless.Mono.not_uses_none_weaken _)
  · exact fun hx => ⟨x, hx, by simp [Nameless.Mono.Uses]⟩

theorem nameless_eq_var_none {r : Reading V} :
    t.nameless (r.under x) = .mono (.var none) ↔ t = mono (.var x) := by
  refine ⟨fun h => ?_, fun h => by simp [h, nameless, Monotype.nameless]⟩
  match t, h with
  | mono (.var y), h =>
    by_cases hyx : y = x
    · rw [hyx]
    · simp only [nameless, Monotype.nameless, r.under_of_ne hyx, Nameless.mono.injEq] at h
      exact absurd h (Nameless.Mono.weaken_ne_var_none _)

/-- To fill the reading of a body is to read the body with a value for the quantified name. -/
theorem fill_nameless (t : Polytype) (r : Reading V) (x : String) (m : Nameless.Mono V) :
    (t.nameless (r.under x)).fill m = t.nameless (Function.update r x m) := by
  rw [Nameless.fill, nameless_bind]
  congr 1
  funext y
  by_cases hyx : y = x
  · simp [hyx, Nameless.Mono.bind, Nameless.filling]
  · rw [r.under_of_ne hyx, Function.update_of_ne hyx, Nameless.Mono.weaken_bind]
    exact Nameless.Mono.bind_var _

/-- Going under a quantifier that is renamed from `x` to `y`: the new name takes the place of the
old one, and no replacement mentions it. -/
theorem nameless_under {y : String} {s s' : Subst} (hImage : s'.image x = .var y)
    (hSame : ∀ z ∈ t.freeVars, z ≠ x → s'.image z = s.image z)
    (hApart : ∀ z ∈ t.freeVars, z ≠ x → y ∉ (s.image z).freeVars) (r : Reading V) :
    t.nameless (s'.nameless (r.under y)) = t.nameless (Reading.under (s.nameless r) x) := by
  refine nameless_congr fun z hz => ?_
  by_cases hzx : z = x
  · subst hzx
    simp [Subst.nameless, hImage, Monotype.nameless]
  · have hApart := hApart z hz hzx
    rw [Reading.under_of_ne _ hzx, Subst.nameless, Subst.nameless, hSame z hz hzx,
      Nameless.Mono.weaken, Monotype.nameless_bind]
    -- nothing that is put in is captured
    refine Monotype.nameless_congr fun w hw => r.under_of_ne ?_
    rintro rfl
    exact hApart hw

theorem nameless_subst (t : Polytype) (s : Subst) (r : Reading V) :
    (t.subst s).nameless r = t.nameless (s.nameless r) := by
  induction t generalizing V s with
  | mono m => rw [subst, nameless, Monotype.nameless_subst, nameless]
  | bottom => rfl
  | all x k b t ihb iht =>
    obtain ⟨y, s', hEq, hImage, hSame, hApart⟩ := subst_all_cases x k b t s
    rw [hEq, nameless, nameless, ihb, iht, nameless_under hImage hSame hApart]

@[simp] theorem isMono_nameless {r : Reading V} : (t.nameless r).IsMono ↔ t.mono? ≠ none := by
  cases t <;> simp [nameless, Nameless.IsMono, mono?]

/-! ## The reading of a normal form -/

theorem nameless_close {b : Binding} (h : b.bound.type.mono? = none) (t : Polytype)
    (r : Reading V) :
    (close b t).nameless r =
      .quantify b.bound.kind (b.bound.type.nameless r) (t.nameless (r.under b.name)) := by
  have hBound : ¬ (b.bound.type.nameless r).IsMono := by simp [h]
  rcases close_cases b t with ⟨hUnused, hEq⟩ | ⟨rfl, hEq⟩ | ⟨hUsed, hVar, hEq⟩
  · -- the quantifier is dropped
    rw [hEq, Nameless.quantify_unused hBound (mt uses_none_nameless.1 hUnused), fill_nameless]
    refine nameless_congr fun y hy => (Function.update_of_ne ?_ _ r).symm
    rintro rfl
    exact hUnused hy
  · -- it is its bound
    rw [hEq, nameless_eq_var_none.2 rfl, Nameless.quantify_var_none]
  · -- it stays
    rw [hEq, Nameless.quantify_used hBound (uses_none_nameless.2 hUsed)
      (mt nameless_eq_var_none.1 hVar), nameless]

/-- Normal forms under a substitution are read as the normal form of the reading, in the environment
of the replacements. -/
theorem nameless_normalizeWith {s : Subst} {taken : NameSet} (h : Avoids taken t s) :
    ∀ {V : Type} (r : Reading V),
      (t.normalizeWith s taken).nameless r = (t.nameless (s.nameless r)).norm := by
  fun_induction normalizeWith t s taken with
  | case1 s taken x k b t m hMono ihBound ihBody =>
    intro V r
    -- the bound is a monotype, so its normal form is filled in
    have hBound : (b.nameless (s.nameless r)).norm = .mono (m.nameless r) := by
      rw [← nameless_subst, ← Subst.nameless_empty r, ← ihBound (.self _), hMono]
      rfl
    have hBody : (t.nameless (Reading.under (s.nameless r) x)).fill (m.nameless r) =
        t.nameless (Subst.nameless (s.insert x m) r) := by
      rw [fill_nameless, Subst.nameless_insert]
    -- the normal form of the body is filled, or the body is filled before
    rw [ihBody (h.inlined hMono), ← hBody, nameless, Nameless.norm, hBound, Nameless.quantify_mono]
    exact Nameless.norm_bind _ _
  | case2 s taken x k b t inner hCapture y hNotMono ihBound =>
    rename_i ihBody
    intro V r
    -- the quantifier is renamed to a name that nothing mentions
    have hFresh : y ∉ taken := freshName_not_mem x taken.toList
    have hUnder : t.nameless (Subst.nameless (inner.insert x (.var y)) (r.under y)) =
        t.nameless (Reading.under (s.nameless r) x) := by
      refine nameless_under (by simp) (fun z _ hzx => ?_) (h.apart_of_not_mem hFresh) r
      rw [Subst.image_insert, if_neg hzx, Subst.image_erase_of_ne hzx]
    rw [nameless_close (mono?_eq_none.2 hNotMono), ihBound (.self _), ihBody (h.renamed y), hUnder,
      Subst.nameless_empty, nameless_subst]
    rfl
  | case3 s taken x k b t inner hCapture hNotMono ihBound ihBody =>
    intro V r
    have hUnder : t.nameless (Subst.nameless inner (r.under x)) =
        t.nameless (Reading.under (s.nameless r) x) :=
      nameless_under (by simp [Subst.image])
        (fun z _ hzx => Subst.image_erase_of_ne hzx) (h.apart_of_kept hCapture) r
    rw [nameless_close (mono?_eq_none.2 hNotMono), ihBound (.self _), ihBody h.kept, hUnder,
      Subst.nameless_empty, nameless_subst]
    rfl
  | case4 s taken t hNotAll =>
    intro V r
    rw [nameless_subst]
    cases t with
    | mono m => rfl
    | bottom => rfl
    | all x k b t => exact absurd rfl (hNotAll x k b t)

theorem nameless_normal (t : Polytype) (r : Reading V) :
    t.normal.nameless r = (t.nameless r).norm := by
  rw [normal_eq_normalizeWith]
  exact nameless_normalizeWith (.self t) r

end Polytype

/-! ## Agreement up to names -/

/-- Reads every name as a variable, the quantified one as `none`. -/
def Reading.varUnder (f : String → V) (x : String) : String → Option V := fun y =>
  if y = x then none else some (f y)

theorem Reading.under_var (f : String → V) (x : String) :
    Reading.under (fun y => .var (f y)) x = fun y => .var (varUnder f x y) := by
  funext y
  unfold under varUnder
  split <;> rfl

theorem Reading.varUnder_injective {f : String → V} (hf : Function.Injective f) (x : String) :
    Function.Injective (varUnder f x) := by
  intro y z h
  by_cases hy : y = x <;> by_cases hz : z = x
  · rw [hy, hz]
  · simp [varUnder, hy, hz] at h
  · simp [varUnder, hy, hz] at h
  · exact hf (by simpa [varUnder, hy, hz] using h)

/-- Two variables are paired when they are read as one. -/
def Pairing.Joins (p : Pairing) (f g : String → V) : Prop :=
  ∀ x y, p.same x y = true ↔ f x = g y

theorem Pairing.joins_nil {f : String → V} (h : Function.Injective f) : Pairing.Joins [] f f := by
  intro x y
  simpa [Pairing.same] using h.eq_iff.symm

theorem Pairing.Joins.cons {p : Pairing} {f g : String → V} (h : p.Joins f g) (a b : String) :
    Pairing.Joins ((a, b) :: p) (Reading.varUnder f a) (Reading.varUnder g b) := by
  intro x y
  by_cases hx : x = a <;> by_cases hy : y = b
  · simp [Pairing.same, Reading.varUnder, hx, hy]
  · simp [Pairing.same, Reading.varUnder, hx, hy, Ne.symm hy]
  · simp [Pairing.same, Reading.varUnder, hx, hy, Ne.symm hx]
  · simpa [Pairing.same, Reading.varUnder, hx, hy, Ne.symm hx, Ne.symm hy] using h x y

/-- Two monotypes with one reading, side by side. The names are read as variables, those of the first
monotype by `F` and those of the second by `G`. -/
inductive Monotype.SameReading (F G : String → V) : Monotype → Monotype → Prop
  | var {x y : String} (h : F x = G y) : SameReading F G (.var x) (.var y)
  | const (c : BaseType) : SameReading F G (.const c) (.const c)
  | fn {p q b c : Monotype} (hParam : SameReading F G p q) (hBody : SameReading F G b c) :
    SameReading F G (.fn p b) (.fn q c)

/-- Monotypes with the same reading have it side by side: they have the same form at each depth. -/
theorem Monotype.sameReading_of_nameless_eq {F G : String → V} {m n : Monotype}
    (h : m.nameless (fun x => .var (F x)) = n.nameless (fun x => .var (G x))) :
    SameReading F G m n := by
  induction m generalizing n with
  | var x =>
    cases n with
    | var y => exact .var (by simpa [nameless] using h)
    | const d => simp [nameless] at h
    | fn q c => simp [nameless] at h
  | const c =>
    cases n with
    | var y => simp [nameless] at h
    | const d =>
      obtain rfl : c = d := by simpa [nameless] using h
      exact .const c
    | fn q d => simp [nameless] at h
  | fn p b ihp ihb =>
    cases n with
    | var y => simp [nameless] at h
    | const d => simp [nameless] at h
    | fn q c =>
      simp only [nameless, Nameless.Mono.fn.injEq] at h
      exact .fn (ihp h.1) (ihb h.2)

theorem Monotype.alphaEq_iff_nameless {p : Pairing} {f g : String → V} (h : p.Joins f g)
    {m n : Monotype} :
    m.alphaEq p n = true ↔ m.nameless (fun x => .var (f x)) = n.nameless (fun x => .var (g x)) := by
  induction m generalizing n with
  | var x => cases n <;> simp [alphaEq, nameless, h x]
  | const c => cases n <;> simp [alphaEq, nameless]
  | fn q b ihq ihb => cases n <;> simp [alphaEq, nameless, ihq, ihb]

namespace Polytype

theorem alphaEq_iff_nameless {p : Pairing} {f g : String → V} (h : p.Joins f g) :
    t.alphaEq p u = true ↔
      t.nameless (fun x => .var (f x)) = u.nameless (fun x => .var (g x)) := by
  induction t generalizing V p u with
  | mono m => cases u <;> simp [alphaEq, nameless, Monotype.alphaEq_iff_nameless h]
  | bottom => cases u <;> simp [alphaEq, nameless]
  | all x k b t ihb iht =>
    cases u with
    | mono n => simp [alphaEq, nameless]
    | bottom => simp [alphaEq, nameless]
    -- the names of the two quantifiers are paired for the bodies
    | all y l c u =>
      simp only [alphaEq, nameless, Bool.and_eq_true, beq_iff_eq, ihb h, iht (h.cons x y),
        Reading.under_var, Nameless.all.injEq, and_assoc]

/-- The reading of a type over its own free names. -/
abbrev shape (t : Polytype) : Nameless String := t.nameless .var

theorem alphaEq_iff : t.alphaEq [] u = true ↔ t.shape = u.shape :=
  alphaEq_iff_nameless (Pairing.joins_nil Function.injective_id)

/-- Two types with one reading, side by side. The free names are read as variables, those of the first
type by `F` and those of the second by `G`. -/
inductive SameReading : {V : Type} → (F G : String → V) → Polytype → Polytype → Prop
  | mono {V : Type} {F G : String → V} {m n : Monotype}
    (h : m.nameless (fun x => .var (F x)) = n.nameless (fun x => .var (G x))) :
    SameReading F G (mono m) (mono n)
  | bottom {V : Type} {F G : String → V} : SameReading F G bottom bottom
  | all {V : Type} {F G : String → V} {x y : String} {k : BoundKind} {b c t u : Polytype}
    (hBound : SameReading F G b c)
    (hBody : SameReading (Reading.varUnder F x) (Reading.varUnder G y) t u) :
    SameReading F G (all x k b t) (all y k c u)

theorem SameReading.nameless_eq {F G : String → V} (h : SameReading F G t u) :
    t.nameless (fun x => .var (F x)) = u.nameless (fun x => .var (G x)) := by
  induction h with
  | mono h => exact congrArg Nameless.mono h
  | bottom => rfl
  | all _ _ ihb iht => rw [nameless, nameless, ihb, Reading.under_var, Reading.under_var, iht]

/-- Types with the same reading have it side by side: they have the same form at each depth. -/
theorem sameReading_of_nameless_eq {F G : String → V}
    (h : t.nameless (fun x => .var (F x)) = u.nameless (fun x => .var (G x))) :
    SameReading F G t u := by
  induction t generalizing V u with
  | mono m =>
    cases u with
    | mono n => exact .mono (by simpa [nameless] using h)
    | bottom => simp [nameless] at h
    | all y l c u => simp [nameless] at h
  | bottom =>
    cases u with
    | mono n => simp [nameless] at h
    | bottom => exact .bottom
    | all y l c u => simp [nameless] at h
  | all x k b t ihb iht =>
    cases u with
    | mono n => simp [nameless] at h
    | bottom => simp [nameless] at h
    | all y l c u =>
      -- one kind, bounds with one reading, and bodies with one reading under the two quantifiers
      simp only [nameless, Nameless.all.injEq, Reading.under_var] at h
      obtain ⟨rfl, hBound, hBody⟩ := h
      exact .all (ihb hBound) (iht hBody)

/-- Types are equivalent when their readings have the same normal form. -/
theorem equivalent_iff_norm_eq : t.equivalent u = true ↔ t.shape.norm = u.shape.norm := by
  rw [equivalent, alphaEq_iff, shape, shape, nameless_normal, nameless_normal]

/-- Equivalent types stay so in every reading. -/
theorem norm_nameless_of_equivalent (h : t.equivalent u = true) (r : Reading V) :
    (t.nameless r).norm = (u.nameless r).norm := by
  have hBind (t : Polytype) : t.nameless r = t.shape.bind r := by
    rw [shape, nameless_bind]
    rfl
  rw [hBind, hBind, Nameless.norm_bind, Nameless.norm_bind, equivalent_iff_norm_eq.1 h]

/-- Substitution keeps equivalence. -/
theorem equivalent_subst (h : t.equivalent u = true) (s : Subst) :
    (t.subst s).equivalent (u.subst s) = true := by
  rw [equivalent_iff_norm_eq, shape, shape, nameless_subst, nameless_subst]
  exact norm_nameless_of_equivalent h _

end Polytype

/-! ## Instances -/

/-- The ground type that a nameless monotype stands for. -/
def Nameless.Mono.eval (v : V → Ground) : Nameless.Mono V → Ground
  | var x => v x
  | const c => .const c
  | fn p b => .fn (p.eval v) (b.eval v)

/-- The ground instances of a nameless type. -/
def Nameless.Inst : {V : Type} → Nameless V → (V → Ground) → Set Ground
  | _, mono m, v => {m.eval v}
  | _, bottom, _ => Set.univ
  | _, all _ b t, v => {g | ∃ h ∈ b.Inst v, g ∈ t.Inst fun x => x.elim h v}

theorem Nameless.Mono.eval_weaken (m : Nameless.Mono V) (v : Option V → Ground) :
    m.weaken.eval v = m.eval fun x => v (some x) := by
  induction m with
  | var x => rfl
  | const c => rfl
  | fn p b ihp ihb =>
    show Ground.fn (p.weaken.eval v) (b.weaken.eval v) = _
    rw [ihp, ihb, eval]

theorem Monotype.eval_nameless (t : Monotype) (r : Reading V) (v : V → Ground) :
    (t.nameless r).eval v = t.eval fun x => (r x).eval v := by
  induction t with
  | var x => rfl
  | const c => rfl
  | fn p b ihp ihb => rw [nameless, Nameless.Mono.eval, ihp, ihb, eval]

/-- The instances of a type are those of its reading. -/
theorem Polytype.Inst_nameless (t : Polytype) (r : Reading V) (v : V → Ground) :
    (t.nameless r).Inst v = t.Inst fun x => (r x).eval v := by
  induction t generalizing V with
  | mono m => rw [nameless, Nameless.Inst, Monotype.eval_nameless, Inst]
  | bottom => rfl
  | all x k b t ihb iht =>
    -- under the quantifier, its variable is read as the ground type at hand
    have hUnder (h : Ground) : (fun y => (r.under x y).eval fun o => o.elim h v) =
        Function.update (fun y => (r y).eval v) x h := by
      funext y
      by_cases hyx : y = x
      · subst hyx
        rw [Reading.under_self, Function.update_self]
        rfl
      · rw [Reading.under_of_ne r hyx, Nameless.Mono.eval_weaken, Function.update_of_ne hyx]
        rfl
    simp only [nameless, Nameless.Inst, Inst, ihb, iht, hUnder]

theorem Polytype.Inst_shape (t : Polytype) (r : Valuation) : t.shape.Inst r = t.Inst r :=
  t.Inst_nameless .var r

/-- Equivalent types have the same instances. -/
theorem Polytype.Inst_eq_of_equivalent (h : t.equivalent u = true) (r : Valuation) :
    t.Inst r = u.Inst r := by
  rw [equivalent, alphaEq_iff] at h
  rw [← Inst_normal t, ← Inst_normal u, ← Inst_shape t.normal, ← Inst_shape u.normal, h]

end Mlf
