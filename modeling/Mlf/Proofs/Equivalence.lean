import Mlf.Proofs.Nameless

/-!
# The equivalence of types

Type equivalence has four laws: the names of quantified variables do not matter, a quantifier whose
variable is not free in the body can be dropped, a quantifier over a monotype can be filled in, and a
quantifier over its own variable is its bound. `Equiv` is the least equivalence relation that has
these laws and is kept by quantifiers. It is stated with a substitution that is not defined where it
would capture: the laws rename first.

Comparing normal forms decides it. One half is that each law keeps the normal form of the nameless
reading. For the other half, a type is equivalent to its normal form, and types with the same reading
are equivalent: their quantifiers are renamed to a name that is free in neither of them.

Main results:

* `Equiv.norm_eq` — equivalent types have the same normal form in every reading;
* `equiv_of_nameless_eq` — types with the same reading are equivalent;
* `equiv_normal` — a type is equivalent to its normal form;
* `equivalent_decides` — comparing normal forms decides equivalence.
-/

namespace Mlf

variable {m : Monotype} {t t' u : Polytype} {x : String}
/-- Puts a monotype in the place of a name. -/
def Monotype.replace : Monotype → String → Monotype → Monotype
  | var y, x, m => if y = x then m else var y
  | const c, _, _ => const c
  | fn p b, x, m => fn (p.replace x m) (b.replace x m)

variable {V : Type}

theorem Monotype.nameless_replace (x : String) (m n : Monotype) (r : Reading V) :
    (n.replace x m).nameless r = n.nameless (Function.update r x (m.nameless r)) := by
  induction n with
  | var y =>
    by_cases hyx : y = x
    · simp [replace, nameless, hyx]
    · simp [replace, nameless, hyx]
  | const c => rfl
  | fn p b ihp ihb => rw [replace, nameless, ihp, ihb, nameless]

theorem Monotype.eq_of_nameless_eq {f : String → V} (hf : Function.Injective f) {n : Monotype}
    (h : m.nameless (fun x => .var (f x)) = n.nameless (fun x => .var (f x))) : m = n := by
  replace h := sameReading_of_nameless_eq h
  induction h with
  -- two variables are read as one value only if they are one
  | var hxy => rw [hf hxy]
  | const c => rfl
  | fn _ _ ihp ihb => rw [ihp, ihb]

namespace Polytype

/-- `Replaced x m t u`: `u` is `t` with `m` in the place of the free name `x`, where no quantifier of
`t` captures a name of `m`. -/
inductive Replaced (x : String) (m : Monotype) : Polytype → Polytype → Prop
  | mono (n : Monotype) : Replaced x m (mono n) (mono (n.replace x m))
  | bottom : Replaced x m bottom bottom
  | hidden {k : BoundKind} {b b' t : Polytype} (hBound : Replaced x m b b') :
      Replaced x m (all x k b t) (all x k b' t)
  | under {y : String} {k : BoundKind} {b b' t t' : Polytype} (hne : y ≠ x) (hFree : y ∉ m.freeVars)
      (hBound : Replaced x m b b') (hBody : Replaced x m t t') :
      Replaced x m (all y k b t) (all y k b' t')

/-- The equivalence of types: the least equivalence relation that is kept by quantifiers and has the
laws of renaming, dropping, filling in and collapsing a quantifier. -/
inductive Equiv : Polytype → Polytype → Prop
  | refl (t : Polytype) : Equiv t t
  | symm {t u : Polytype} (h : Equiv t u) : Equiv u t
  | trans {t u v : Polytype} (h : Equiv t u) (h' : Equiv u v) : Equiv t v
  | bound (x : String) (k : BoundKind) {b b' : Polytype} (t : Polytype) (h : Equiv b b') :
      Equiv (all x k b t) (all x k b' t)
  | body (x : String) (k : BoundKind) (b : Polytype) {t t' : Polytype} (h : Equiv t t') :
      Equiv (all x k b t) (all x k b t')
  | rename {x y : String} (k : BoundKind) (b : Polytype) {t t' : Polytype} (hFree : y ∉ t.freeVars)
      (h : Replaced x (.var y) t t') : Equiv (all x k b t) (all y k b t')
  | unused {x : String} (k : BoundKind) (b : Polytype) {t : Polytype} (hFree : x ∉ t.freeVars) :
      Equiv (all x k b t) t
  | filled {x : String} (k : BoundKind) {m : Monotype} {t t' : Polytype} (h : Replaced x m t t') :
      Equiv (all x k (mono m) t) t'
  | collapsed (x : String) (k : BoundKind) (b : Polytype) : Equiv (all x k b (mono (.var x))) b

/-! ## Every law keeps the normal form -/

/-- A replacement is read as a change of the environment. -/
theorem Replaced.nameless_eq (h : Replaced x m t t') (r : Reading V) :
    t'.nameless r = t.nameless (Function.update r x (m.nameless r)) := by
  induction h generalizing V with
  | mono n => rw [nameless, nameless, Monotype.nameless_replace]
  | bottom => rfl
  | hidden hBound ih =>
    rw [nameless, nameless, ih]
    congr 2
    -- the quantifier hides the name, so its body is read the same
    funext y
    by_cases hyx : y = x
    · simp [hyx]
    · rw [r.under_of_ne hyx, Reading.under_of_ne _ hyx, Function.update_of_ne hyx]
  | @under y k b b' t t' hne hFree hBound hBody ihb iht =>
    -- under a quantifier that captures nothing the replacement has the reading it had outside
    have hRead : m.nameless (r.under y) = (m.nameless r).weaken := by
      rw [Nameless.Mono.weaken, Monotype.nameless_bind]
      refine Monotype.nameless_congr fun z hz => r.under_of_ne ?_
      rintro rfl
      exact hFree hz
    rw [nameless, nameless, ihb, iht, hRead]
    congr 2
    funext z
    by_cases hzx : z = x
    · -- the replaced name, the quantified one, and all others
      subst hzx
      rw [Function.update_self, Reading.under_of_ne _ (Ne.symm hne), Function.update_self]
    · rw [Function.update_of_ne hzx]
      by_cases hzy : z = y
      · simp [hzy]
      · rw [r.under_of_ne hzy, Reading.under_of_ne _ hzy, Function.update_of_ne hzx]

/-- A renamed body is read under the new name as the body was under the old one. -/
theorem Replaced.nameless_under_eq {y : String} (h : Replaced x (.var y) t t')
    (hFree : y ∉ t.freeVars) (r : Reading V) :
    t'.nameless (r.under y) = t.nameless (r.under x) := by
  rw [h.nameless_eq]
  refine nameless_congr fun z hz => ?_
  by_cases hzx : z = x
  · simp [hzx, Monotype.nameless]
  · have hzy : z ≠ y := by
      rintro rfl
      exact hFree hz
    rw [Function.update_of_ne hzx, r.under_of_ne hzy, r.under_of_ne hzx]

/-- Under a quantifier over a name that is not free, a type is read as outside. -/
theorem nameless_under_of_not_mem (h : x ∉ t.freeVars) (r : Reading V) :
    t.nameless (r.under x) = (t.nameless r).bind fun v => .var (some v) := by
  rw [nameless_bind]
  refine nameless_congr fun y hy => r.under_of_ne ?_
  rintro rfl
  exact h hy

theorem norm_all_of_not_mem (h : x ∉ t.freeVars) (k : BoundKind) (b : Polytype) (r : Reading V) :
    ((all x k b t).nameless r).norm = (t.nameless r).norm := by
  -- a reading that has been moved under the quantifier does not use its variable
  have hUnused : ¬ ((t.nameless r).norm.bind fun v => .var (some v)).Uses none := by
    rw [Nameless.uses_bind]
    rintro ⟨v, -, hv⟩
    simp [Nameless.Mono.Uses] at hv
  rw [nameless, Nameless.norm, nameless_under_of_not_mem h, Nameless.norm_bind,
    Nameless.quantify_of_unused _ _ hUnused (.const .boolean), Nameless.fill, Nameless.bind_bind]
  exact Nameless.bind_var _

/-- Equivalent types have the same normal form in every reading. -/
theorem Equiv.norm_eq (h : Equiv t u) (r : Reading V) :
    (t.nameless r).norm = (u.nameless r).norm := by
  induction h generalizing V with
  | refl t => rfl
  | symm h ih => exact (ih r).symm
  | trans h h' ih ih' => exact (ih r).trans (ih' r)
  | bound x k t h ih => simp only [nameless, Nameless.norm, ih]
  | body x k b h ih => simp only [nameless, Nameless.norm, ih]
  -- a renamed quantifier is read the same even before it is normalized
  | rename k b hFree h => rw [nameless, nameless, h.nameless_under_eq hFree]
  | unused k b hFree => exact norm_all_of_not_mem hFree k b r
  | @filled x k m t t' h =>
    rw [nameless, nameless, Nameless.norm, Nameless.norm, Nameless.quantify_mono, Nameless.fill,
      ← Nameless.norm_bind, ← Nameless.fill, fill_nameless, h.nameless_eq]
  | collapsed x k b =>
    simp [nameless, Monotype.nameless, Nameless.norm]

/-! ## Types with the same reading -/

/-- Whether no quantifier is over the name `y`, at any depth. -/
def Clear (y : String) : Polytype → Prop
  | all x _ b t => x ≠ y ∧ b.Clear y ∧ t.Clear y
  | _ => True

/-- Where no quantifier is over a name of the replacement, nothing is captured. -/
theorem exists_replaced (x : String) (h : ∀ y ∈ m.freeVars, t.Clear y) :
    ∃ t', Replaced x m t t' ∧ ∀ y, t.Clear y → t'.Clear y := by
  induction t with
  | mono n => exact ⟨_, .mono n, fun _ _ => trivial⟩
  | bottom => exact ⟨_, .bottom, fun _ _ => trivial⟩
  | all z k b t ihb iht =>
    obtain ⟨b', hb', hClearB⟩ := ihb fun y hy => (h y hy).2.1
    obtain ⟨t', ht', hClearT⟩ := iht fun y hy => (h y hy).2.2
    -- a quantifier over the replaced name hides it, and its body stays as it is
    by_cases hzx : z = x
    · subst hzx
      exact ⟨_, .hidden hb', fun y hy => ⟨hy.1, hClearB y hy.2.1, hy.2.2⟩⟩
    · have hFree : z ∉ m.freeVars := fun hz => (h z hz).1 rfl
      exact ⟨_, .under hzx hFree hb' ht', fun y hy => ⟨hy.1, hClearB y hy.2.1, hClearT y hy.2.2⟩⟩

/-- The free names are those that the reading uses. -/
theorem mem_freeVars_of_nameless_eq
    (h : ∀ (V : Type) (r : Reading V), t'.nameless r = t.nameless r) :
    x ∈ t'.freeVars ↔ x ∈ t.freeVars := by
  rw [← uses_none_nameless (r := .var), ← uses_none_nameless (r := .var), h]

/-- Renames a quantifier to a name that is not free in its body, where a copy of the body has no
quantifier over that name. -/
theorem exists_renamed {z : String} {t₁ : Polytype} (k : BoundKind) (b : Polytype)
    (hFree : z ∉ t.freeVars) (hEquiv : Equiv t t₁) (hClear : t₁.Clear z)
    (hRead : ∀ (V : Type) (r : Reading V), t₁.nameless r = t.nameless r) :
    ∃ t', Equiv (all x k b t) (all z k b t') ∧ (∀ y, t₁.Clear y → t'.Clear y) ∧
      ∀ (V : Type) (r : Reading V), t'.nameless (r.under z) = t.nameless (r.under x) := by
  -- the copy has the free names of the type, as it is read alike
  have hFree₁ : z ∉ t₁.freeVars := mt (mem_freeVars_of_nameless_eq hRead).1 hFree
  obtain ⟨t', hReplaced, hClear'⟩ := exists_replaced (t := t₁) x (m := .var z) (by
    intro y hy
    obtain rfl : y = z := by simpa [Monotype.freeVars] using hy
    exact hClear)
  refine ⟨t', (hEquiv.body x k b).trans (.rename k b hFree₁ hReplaced), hClear', fun V r => ?_⟩
  rw [hReplaced.nameless_under_eq hFree₁, hRead]

/-- Every type has an equivalent copy without quantifiers over given names. -/
theorem exists_clear (names : List String) (t : Polytype) :
    ∃ t', Equiv t t' ∧ (∀ y ∈ names, t'.Clear y) ∧
      ∀ (V : Type) (r : Reading V), t'.nameless r = t.nameless r := by
  induction t generalizing names with
  | mono n => exact ⟨_, .refl _, fun _ _ => trivial, fun _ _ => rfl⟩
  | bottom => exact ⟨_, .refl _, fun _ _ => trivial, fun _ _ => rfl⟩
  | all x k b t ihb iht =>
    -- the quantifier gets a name that is none of those to avoid, and not free in its body
    obtain ⟨z, hz⟩ : ∃ z, z ∉ names ++ t.freeVars.toList := ⟨_, freshName_not_mem x _⟩
    simp only [List.mem_append, NameSet.mem_toList, not_or] at hz
    obtain ⟨b', hb, hClearB, hReadB⟩ := ihb names
    obtain ⟨t₁, ht, hClearT, hReadT⟩ := iht (z :: names)
    obtain ⟨t', ht', hClear', hRead'⟩ :=
      exists_renamed (x := x) k b' hz.2 ht (hClearT z (by simp)) hReadT
    refine ⟨all z k b' t', (hb.bound x k t).trans ht', fun y hy => ?_, fun V r => ?_⟩
    · have hzy : z ≠ y := by
        rintro rfl
        exact hz.1 hy
      exact ⟨hzy, hClearB y hy, hClear' y (hClearT y (by simp [hy]))⟩
    · rw [nameless, nameless, hReadB, hRead']

/-- Two quantifiers can be renamed to one name. -/
theorem exists_renamed_to {z : String} (x : String) (k : BoundKind) (b : Polytype)
    (hFree : z ∉ t.freeVars) :
    ∃ t', Equiv (all x k b t) (all z k b t') ∧
      ∀ (V : Type) (r : Reading V), t'.nameless (r.under z) = t.nameless (r.under x) := by
  obtain ⟨t₁, ht, hClear, hRead⟩ := exists_clear [z] t
  obtain ⟨t', ht', -, hRead'⟩ :=
    exists_renamed (x := x) k b hFree ht (hClear z (by simp)) hRead
  exact ⟨t', ht', hRead'⟩

/-- Types with the same reading are equivalent. The induction is on the reading: two quantifiers
with the same reading are renamed to a common name, and their bodies are then read alike. -/
theorem equiv_of_nameless_eq {n : Nameless V} {f : String → V} (hf : Function.Injective f)
    (ht : t.nameless (fun x => .var (f x)) = n) (hu : u.nameless (fun x => .var (f x)) = n) :
    Equiv t u := by
  induction n generalizing t u with
  | mono m =>
    cases t <;> cases u <;> simp only [nameless, Nameless.mono.injEq, reduceCtorEq] at ht hu
    rw [Monotype.eq_of_nameless_eq hf (ht.trans hu.symm)]
    exact .refl _
  | bottom =>
    cases t <;> cases u <;> simp only [nameless, reduceCtorEq] at ht hu
    exact .refl _
  | all k b₀ t₀ ihb iht =>
    cases t with
    | mono m => simp [nameless] at ht
    | bottom => simp [nameless] at ht
    | all x k₁ b t =>
    cases u with
    | mono m => simp [nameless] at hu
    | bottom => simp [nameless] at hu
    | all y k₂ c u =>
    simp only [nameless, Nameless.all.injEq, Reading.under_var] at ht hu
    obtain ⟨rfl, hb, ht⟩ := ht
    obtain ⟨rfl, hc, hu⟩ := hu
    -- a name that is free in neither body
    obtain ⟨z, hz⟩ : ∃ z, z ∉ t.freeVars.toList ++ u.freeVars.toList := ⟨_, freshName_not_mem x _⟩
    simp only [List.mem_append, NameSet.mem_toList, not_or] at hz
    obtain ⟨t', ht', hReadT⟩ := exists_renamed_to x k₂ b hz.1
    obtain ⟨u', hu', hReadU⟩ := exists_renamed_to y k₂ c hz.2
    have hBody : Equiv t' u' := by
      refine iht (Reading.varUnder_injective hf z) ?_ ?_
      · rw [← Reading.under_var, hReadT, Reading.under_var, ht]
      · rw [← Reading.under_var, hReadU, Reading.under_var, hu]
    exact ht'.trans ((hBody.body z k₂ b).trans (((ihb hf hb hc).bound z k₂ u').trans hu'.symm))

theorem equiv_of_shape_eq (h : t.shape = u.shape) : Equiv t u :=
  equiv_of_nameless_eq Function.injective_id h rfl

/-! ## Normal forms are equivalent to their types -/

/-- The law of filling in, for every substitution that avoids capture. -/
theorem equiv_fill (k : BoundKind)
    (h : t'.shape = t.nameless (Function.update .var x (m.nameless .var))) :
    Equiv (all x k (mono m) t) t' := by
  obtain ⟨t₁, ht₁, hClear, hRead⟩ := exists_clear m.freeVars.toList t
  obtain ⟨t₂, ht₂, -⟩ := exists_replaced (t := t₁) x (m := m) (by simpa using hClear)
  have hShape : t₂.shape = t'.shape := by
    rw [h, shape, ht₂.nameless_eq, hRead]
  exact (ht₁.body x k _).trans ((Equiv.filled k ht₂).trans (equiv_of_shape_eq hShape))

/-- A quantifier over types in normal form is equivalent to every type that is read as its normal
form. -/
theorem equiv_quantify {k : BoundKind} {b : Polytype}
    (h : u.shape = .quantify k b.shape (t.nameless (Reading.under .var x))) :
    Equiv (all x k b t) u := by
  -- a bound that is a monotype: it takes the place of the variable
  by_cases hb : b.shape.IsMono
  · cases b with
    | mono m =>
      refine equiv_fill k ?_
      rw [h, shape, nameless, Nameless.quantify_mono, fill_nameless]
    | bottom => simp [mono?] at hb
    | all y l c b => simp [mono?] at hb
  · -- used, and then perhaps the whole body
    by_cases hUsed : x ∈ t.freeVars
    · by_cases hVar : t = mono (.var x)
      · subst hVar
        rw [nameless_eq_var_none.2 rfl, Nameless.quantify_var_none] at h
        exact (Equiv.collapsed x k b).trans (equiv_of_shape_eq h.symm)
      · rw [Nameless.quantify_used hb (uses_none_nameless.2 hUsed)
          (mt nameless_eq_var_none.1 hVar)] at h
        exact equiv_of_shape_eq h.symm
    · have hBody : t.shape = u.shape := by
        rw [h, Nameless.quantify_unused hb (mt uses_none_nameless.1 hUsed), fill_nameless]
        refine nameless_congr fun y hy => (Function.update_of_ne ?_ _ _).symm
        rintro rfl
        exact hUsed hy
      exact (Equiv.unused k b hUsed).trans (equiv_of_shape_eq hBody)

/-- A type is equivalent to its normal form. -/
theorem equiv_normal (t : Polytype) : Equiv t t.normal := by
  induction t with
  | mono m => exact (normal_eq_self.2 (isNormal_mono m)).symm ▸ .refl _
  | bottom => exact (normal_eq_self.2 isNormal_bottom).symm ▸ .refl _
  | all x k b t ihb iht =>
    refine ((ihb.bound x k t).trans (iht.body x k b.normal)).trans (equiv_quantify ?_)
    rw [shape, shape, nameless_normal, nameless_normal, nameless_normal]
    rfl

/-- Comparing normal forms decides the equivalence of types. So the comparison is reflexive,
symmetric and transitive, and a normal form is equivalent to its type. -/
theorem equivalent_decides :
    (∀ t u : Polytype, t.equivalent u = true ↔ Equiv t u) ∧
    Equivalence (fun t u : Polytype => t.equivalent u = true) ∧
    ∀ t : Polytype, Equiv t.normal t := by
  have hDecides (t u : Polytype) : t.equivalent u = true ↔ Equiv t u := by
    constructor
    · intro h
      -- normal forms that agree up to names are equivalent by renaming
      have hNormal : Equiv t.normal u.normal := equiv_of_shape_eq (alphaEq_iff.1 h)
      exact (equiv_normal t).trans (hNormal.trans (equiv_normal u).symm)
    · exact fun h => equivalent_iff_norm_eq.2 (h.norm_eq _)
  refine ⟨hDecides, ⟨fun t => ?_, fun h => ?_, fun h h' => ?_⟩, fun t => (equiv_normal t).symm⟩
  · exact (hDecides _ _).2 (.refl t)
  · exact (hDecides _ _).2 ((hDecides _ _).1 h).symm
  · exact (hDecides _ _).2 (((hDecides _ _).1 h).trans ((hDecides _ _).1 h'))

end Polytype

end Mlf
