import Mathlib.Data.Set.Insert
import Mlf.Polytype.Subst
import Mlf.Proofs.FreshNames

/-!
# Ground types and instances

A ground type has no variables. A valuation gives ground types to names, and thereby to monotypes;
a polytype has a set of ground instances under a valuation: one for a monotype, all of them for
bottom, and for a quantifier those of the body, where the variable stands for an instance of the
bound. Flexible and rigid bounds have the same instances.

Substitution replaces names as a valuation would: the instances of a substituted type are those of
the type under the valuation that evaluates the replacements. That is what makes the renaming of
quantifiers right, and everything that is proved about normal forms rests on it.

Main results:

* `Inst_congr` — instances depend on the values of the free names only;
* `mem_freeVars_subst` — the free names of a substituted type, exactly;
* `Inst_subst` — the instances of a substituted type.
-/

namespace Mlf

variable {t : Polytype} {x y : String} {s : Subst}
/-- Types without variables. -/
inductive Ground where
  | const (base : BaseType)
  | fn (param body : Ground)
deriving DecidableEq

instance : Inhabited Ground := ⟨.const .boolean⟩

/-- Ground types for names. -/
abbrev Valuation := String → Ground

/-- The ground type that a monotype stands for. -/
def Monotype.eval (r : Valuation) : Monotype → Ground
  | var x => r x
  | const c => .const c
  | fn p b => .fn (p.eval r) (b.eval r)

/-- The ground instances of a type. -/
def Polytype.Inst : Polytype → Valuation → Set Ground
  | mono m, r => {m.eval r}
  | bottom, _ => Set.univ
  | all x _ b t, r => {g | ∃ h ∈ b.Inst r, g ∈ t.Inst (Function.update r x h)}

/-! ## What instances depend on -/

theorem Monotype.eval_congr {t : Monotype} {r r' : Valuation} (h : ∀ x ∈ t.freeVars, r x = r' x) :
    t.eval r = t.eval r' := by
  induction t with
  | var x => exact h x (by simp [freeVars])
  | const c => rfl
  | fn p b ihp ihb =>
    rw [eval, eval, ihp fun x hx => h x (by simp [freeVars, hx]),
      ihb fun x hx => h x (by simp [freeVars, hx])]

namespace Polytype

@[simp] theorem Inst_mono (m : Monotype) (r : Valuation) : (mono m).Inst r = {m.eval r} := rfl

@[simp] theorem Inst_bottom (r : Valuation) : bottom.Inst r = Set.univ := rfl

theorem mem_Inst_all {k : BoundKind} {b : Polytype} {r : Valuation} {g : Ground} :
    g ∈ (all x k b t).Inst r ↔ ∃ h ∈ b.Inst r, g ∈ t.Inst (Function.update r x h) := Iff.rfl

/-- Instances depend on the values of the free names only. -/
theorem Inst_congr {r r' : Valuation} (h : ∀ x ∈ t.freeVars, r x = r' x) :
    t.Inst r = t.Inst r' := by
  induction t generalizing r r' with
  | mono m => rw [Inst_mono, Inst_mono, Monotype.eval_congr h]
  | bottom => rfl
  | all x k b t ihb iht =>
    have hBound : b.Inst r = b.Inst r' := ihb fun y hy => h y (by simp [freeVars, hy])
    -- the quantified variable has the same value on both sides
    have hBody (i : Ground) :
        t.Inst (Function.update r x i) = t.Inst (Function.update r' x i) := by
      refine iht fun y hy => ?_
      by_cases hyx : y = x
      · simp [hyx]
      · simp [hyx, h y (by simp [freeVars, hy, hyx])]
    ext g
    simp only [mem_Inst_all, hBound, hBody]

/-- A name that is not free can take any value. -/
theorem Inst_update_of_not_mem (hx : x ∉ t.freeVars) (r : Valuation) (g : Ground) :
    t.Inst (Function.update r x g) = t.Inst r := by
  refine Inst_congr fun y hy => Function.update_of_ne ?_ g r
  rintro rfl
  exact hx hy

/-- Every type has an instance. -/
theorem Inst_nonempty (t : Polytype) (r : Valuation) : (t.Inst r).Nonempty := by
  induction t generalizing r with
  | mono m => exact Set.singleton_nonempty _
  | bottom => exact Set.univ_nonempty
  | all x k b t ihb iht =>
    obtain ⟨h, hh⟩ := ihb r
    obtain ⟨g, hg⟩ := iht (Function.update r x h)
    exact ⟨g, h, hh, hg⟩

end Polytype

/-! ## Substitution -/

theorem NameMap.mem_toList_of_find? {α : Type} {m : NameMap α} {a : α} (h : m.find? x = some a) :
    (x, a) ∈ m.toList := by
  obtain ⟨before, after, hEq, -⟩ := List.lookup_eq_some_iff.1 h
  simp [hEq]

theorem NameMap.find?_of_mem {α : Type} {m : NameMap α} {a : α} (h : (x, a) ∈ m.toList) :
    m.find? x = some a := by
  obtain ⟨before, after, hEq⟩ := List.append_of_mem h
  refine List.lookup_eq_some_iff.2 ⟨before, after, hEq, fun b hb => ?_⟩
  have hNodup := m.nodup
  rw [hEq, List.map_append, List.nodup_append] at hNodup
  have hne := hNodup.2.2 b.1 (List.mem_map.2 ⟨b, hb, rfl⟩) x (by simp)
  simpa using Ne.symm hne

theorem NameMap.mem_values_of_find? {α : Type} {m : NameMap α} {a : α} (h : m.find? x = some a) :
    a ∈ m.values :=
  List.mem_map.2 ⟨(x, a), mem_toList_of_find? h, rfl⟩

theorem NameSet.mem_foldr_union {α : Type} {f : α → NameSet} {as : List α} :
    x ∈ as.foldr (fun a names => (f a).union names) ∅ ↔ ∃ a ∈ as, x ∈ f a := by
  induction as with
  | nil => simp
  | cons a as ih => simp [ih]

namespace Subst

/-- What a substitution puts in the place of a name. -/
def image (s : Subst) (x : String) : Monotype := (s.find? x).getD (.var x)

/-- The valuation that evaluates the replacements. -/
def eval (s : Subst) (r : Valuation) : Valuation := fun x => (s.image x).eval r

@[simp] theorem image_empty (x : String) : (∅ : Subst).image x = .var x := rfl

@[simp] theorem eval_empty (r : Valuation) : (∅ : Subst).eval r = r := rfl

@[simp] theorem image_insert (s : Subst) (x y : String) (m : Monotype) :
    image (s.insert x m) y = if y = x then m else s.image y := by
  unfold image
  rw [NameMap.find?_insert]
  split <;> rfl

theorem eval_insert (s : Subst) (x : String) (m : Monotype) (r : Valuation) :
    eval (s.insert x m) r = Function.update (s.eval r) x (m.eval r) := by
  ext y
  rw [eval, image_insert, Function.update_apply]
  split <;> rfl

theorem image_erase_of_ne (h : y ≠ x) : image (s.erase x) y = s.image y := by
  unfold image
  rw [NameMap.find?_erase, if_neg h]

/-- A name that a substitution changes is one of its keys. -/
theorem find?_isSome_of_mem_image (hy : y ∈ (s.image x).freeVars) (hne : y ≠ x) :
    ∃ m, s.find? x = some m ∧ y ∈ m.freeVars := by
  unfold image at hy
  cases hx : s.find? x with
  | none => simp [hx, Monotype.freeVars, hne] at hy
  | some m => exact ⟨m, rfl, by simpa [hx] using hy⟩

theorem mem_mentioning {m : Monotype} (h : s.find? y = some m) (hx : x ∈ m.freeVars) :
    y ∈ s.mentioning x := by
  unfold mentioning
  have hMem : (y, m) ∈ s.toList := NameMap.mem_toList_of_find? h
  exact List.mem_map.2 ⟨(y, m), List.mem_filter.2 ⟨hMem, by simpa using hx⟩, rfl⟩

theorem mem_range {m : Monotype} (h : s.find? y = some m) (hx : x ∈ m.freeVars) : x ∈ s.range :=
  NameSet.mem_foldr_union.2 ⟨m, NameMap.mem_values_of_find? h, hx⟩

end Subst

theorem Monotype.subst_var (s : Subst) (x : String) : (var x).subst s = s.image x := rfl

@[simp] theorem Monotype.subst_empty (t : Monotype) : t.subst ∅ = t := by
  induction t with
  | var x => rfl
  | const c => rfl
  | fn p b ihp ihb => rw [subst, ihp, ihb]

theorem Monotype.eval_subst (t : Monotype) (s : Subst) (r : Valuation) :
    (t.subst s).eval r = t.eval (s.eval r) := by
  induction t with
  | var x => rfl
  | const c => rfl
  | fn p b ihp ihb => simp [subst, eval, ihp, ihb]

theorem Monotype.mem_freeVars_subst {t : Monotype} :
    y ∈ (t.subst s).freeVars ↔ ∃ x ∈ t.freeVars, y ∈ (s.image x).freeVars := by
  induction t with
  | var x => simp [subst_var, freeVars]
  | const c => simp [subst, freeVars]
  | fn p b ihp ihb =>
    simp only [subst, freeVars, NameSet.mem_union, ihp, ihb]
    grind

namespace Polytype

/-- The two ways in which a quantifier comes out of a substitution: as it is, where no replacement
mentions its name, or under a new name that occurs nowhere around. -/
theorem subst_all_cases (x : String) (k : BoundKind) (b t : Polytype) (s : Subst) :
    ∃ (y : String) (s' : Subst), (all x k b t).subst s = all y k (b.subst s) (t.subst s') ∧
      s'.image x = .var y ∧ (∀ z ∈ t.freeVars, z ≠ x → s'.image z = s.image z) ∧
      ∀ z ∈ t.freeVars, z ≠ x → y ∉ (s.image z).freeVars := by
  simp only [subst]
  split
  · next hCapture =>
    -- renamed: the new name is neither in the body nor in a replacement
    generalize hTaken : (t.freeVars.union (b.subst s).freeVars).union (Subst.range (s.erase x)) = taken
    have hFresh := freshName_not_mem x taken.toList
    generalize freshName x taken.toList = y at hFresh
    rw [NameSet.mem_toList, ← hTaken, NameSet.mem_union, NameSet.mem_union] at hFresh
    refine ⟨y, _, rfl, by simp, fun z _ hzx => ?_, fun z hz hzx hy => ?_⟩
    · rw [Subst.image_insert, if_neg hzx, Subst.image_erase_of_ne hzx]
    · rw [← Subst.image_erase_of_ne hzx] at hy
      by_cases hyz : y = z
      · subst hyz
        exact hFresh (Or.inl (Or.inl hz))
      · obtain ⟨m, hm, hym⟩ := Subst.find?_isSome_of_mem_image hy hyz
        exact hFresh (Or.inr (Subst.mem_range hm hym))
  · next hNoCapture =>
    -- kept: a free name of the body with a replacement that mentions `x` would have been found
    refine ⟨x, _, rfl, by simp [Subst.image], fun z _ hzx => Subst.image_erase_of_ne hzx,
      fun z hz hzx hx => hNoCapture ?_⟩
    rw [← Subst.image_erase_of_ne hzx] at hx
    obtain ⟨m, hm, hxm⟩ := Subst.find?_isSome_of_mem_image hx (Ne.symm hzx)
    exact List.any_eq_true.2 ⟨z, Subst.mem_mentioning hm hxm, by simpa using hz⟩

/-- A name is free in a substituted type if it is free in the replacement of a free name. -/
theorem mem_freeVars_subst :
    y ∈ (t.subst s).freeVars ↔ ∃ x ∈ t.freeVars, y ∈ (s.image x).freeVars := by
  induction t generalizing s y with
  | mono m => exact Monotype.mem_freeVars_subst
  | bottom => simp [subst, freeVars]
  | all x k b t ihb iht =>
    obtain ⟨z, s', hEq, hImage, hSame, hApart⟩ := subst_all_cases x k b t s
    rw [hEq]
    simp only [freeVars, NameSet.mem_union, NameSet.mem_erase, ihb, iht]
    constructor
    · rintro (⟨w, hw, hy⟩ | ⟨hyz, w, hw, hy⟩)
      · exact ⟨w, Or.inl hw, hy⟩
      · -- the quantified name itself became the new one, which is bound here
        have hwx : w ≠ x := by
          rintro rfl
          rw [hImage] at hy
          exact hyz (by simpa [Monotype.freeVars] using hy)
        exact ⟨w, Or.inr ⟨hwx, hw⟩, hSame w hw hwx ▸ hy⟩
    · rintro ⟨w, hw | ⟨hwx, hw⟩, hy⟩
      · exact Or.inl ⟨w, hw, hy⟩
      · -- a replacement that mentioned the new name would be captured by it
        refine Or.inr ⟨?_, w, hw, (hSame w hw hwx).symm ▸ hy⟩
        rintro rfl
        exact hApart w hw hwx hy

/-- Going under a quantifier that is renamed from `x` to `y`: the new name takes the place of the
old one, and no replacement mentions it. -/
theorem Inst_eval_update {s' : Subst} (hImage : s'.image x = .var y)
    (hSame : ∀ z ∈ t.freeVars, z ≠ x → s'.image z = s.image z)
    (hApart : ∀ z ∈ t.freeVars, z ≠ x → y ∉ (s.image z).freeVars) (r : Valuation) (g : Ground) :
    t.Inst (s'.eval (Function.update r y g)) = t.Inst (Function.update (s.eval r) x g) := by
  refine Inst_congr fun z hz => ?_
  by_cases hzx : z = x
  · subst hzx
    simp [Subst.eval, hImage, Monotype.eval]
  · rw [Function.update_of_ne hzx, Subst.eval, Subst.eval, hSame z hz hzx]
    -- the values of the replacements do not depend on the new name
    refine Monotype.eval_congr fun w hw => Function.update_of_ne ?_ g r
    rintro rfl
    exact hApart z hz hzx hw

/-- The instances of a substituted type are those of the type where the replaced names have the
values of their replacements. -/
theorem Inst_subst (t : Polytype) (s : Subst) (r : Valuation) :
    (t.subst s).Inst r = t.Inst (s.eval r) := by
  induction t generalizing s r with
  | mono m => simp [subst, Monotype.eval_subst]
  | bottom => rfl
  | all x k b t ihb iht =>
    obtain ⟨y, s', hEq, hImage, hSame, hApart⟩ := subst_all_cases x k b t s
    rw [hEq]
    ext g
    simp only [mem_Inst_all, ihb, iht, Inst_eval_update hImage hSame hApart]

end Polytype

end Mlf
