import Mlf.Proofs.NormalPasses

/-!
# Normal forms

A type is in normal form when each quantifier has a bound that is in normal form and no monotype, a
variable that is used, and a body that is more than that variable. The normal form of a type is one,
its free names are among those of the type, and it has the same instances.

In a normal form nothing is idle: each free name has its value at a fixed place of every instance.
Two consequences carry the results on unification. The value of a free name is no larger than the
instance, and smaller unless the type is that name, so an equation between a variable and a type
that reaches it has no solution. And the instance determines the values of all free names.

Main results:

* `isNormal_normal`, `freeVars_normal`, `Inst_normal` — the normal form of a type;
* `normal_eq_self` — the types in normal form are the fixed points of the pass;
* `IsNormal.subst` — substitution keeps normal forms;
* `IsNormal.exists_place` — the place of a free name in the instances;
* `flexible_normal` — normal forms bring in no rigid quantifiers.
-/

namespace Mlf

variable {t : Polytype} {x : String} {g : Ground} {taken : NameSet} {s : Subst}
namespace Polytype

/-- Whether no quantifier of a type is rigid, at any depth. -/
def Flexible : Polytype → Prop
  | all _ k b t => k = .flexible ∧ b.Flexible ∧ t.Flexible
  | _ => True

/-! ## Substitution -/

@[simp] theorem mono?_subst_eq_none : (t.subst s).mono? = none ↔ t.mono? = none := by
  cases t with
  | mono m => simp [subst, mono?]
  | bottom => rfl
  | all x k b t =>
    obtain ⟨y, s', hEq, -⟩ := subst_all_cases x k b t s
    simp [hEq, mono?]

/-- The body of a quantifier in normal form is no variable. -/
theorem IsNormal.body_ne_var {k : BoundKind} {b : Polytype} (h : (all x k b t).IsNormal)
    (y : String) : t ≠ mono (.var y) := by
  obtain ⟨-, -, hUsed, hBody, -⟩ := h
  rintro rfl
  have hxy : x = y := by simpa [freeVars, Monotype.freeVars] using hUsed
  exact hBody (by rw [hxy])

/-- Substitution keeps normal forms: the quantifiers stay, and what they use stays in use. -/
theorem IsNormal.subst (h : t.IsNormal) (s : Subst) : (t.subst s).IsNormal := by
  induction t generalizing s with
  | mono m => trivial
  | bottom => trivial
  | all x k b t ihb iht =>
    have hNoVar := h.body_ne_var
    obtain ⟨hBound, hNotMono, hUsed, hBody, hNormal⟩ := h
    obtain ⟨y, s', hEq, hImage, -, -⟩ := subst_all_cases x k b t s
    rw [hEq]
    refine ⟨ihb hBound s, mono?_subst_eq_none.2 hNotMono, ?_, ?_, iht hNormal s'⟩
    · exact mem_freeVars_subst.2 ⟨x, hUsed, by simp [hImage, Monotype.freeVars]⟩
    · intro hVar
      -- a type that becomes a variable is a monotype that is no function
      cases t with
      | bottom => simp [Polytype.subst] at hVar
      | all z l c u =>
        obtain ⟨w, s'', hEq', -⟩ := subst_all_cases z l c u s'
        rw [hEq'] at hVar
        cases hVar
      | mono m =>
        cases m with
        | var z => exact hNoVar z rfl
        | const c => simp [freeVars, Monotype.freeVars] at hUsed
        | fn p q => simp [Polytype.subst, Monotype.subst] at hVar

theorem Flexible.subst (h : t.Flexible) (s : Subst) : (t.subst s).Flexible := by
  induction t generalizing s with
  | mono m => trivial
  | bottom => trivial
  | all x k b t ihb iht =>
    obtain ⟨hKind, hBound, hBody⟩ := h
    obtain ⟨y, s', hEq, -⟩ := subst_all_cases x k b t s
    rw [hEq]
    exact ⟨hKind, ihb hBound s, iht hBody s'⟩

/-! ## Closing a normal form -/

theorem mem_freeVars_close {b : Binding} {y : String} (h : y ∈ (close b t).freeVars) :
    y ∈ b.bound.type.freeVars ∨ (y ≠ b.name ∧ y ∈ t.freeVars) := by
  rcases close_cases b t with ⟨hUnused, hEq⟩ | ⟨-, hEq⟩ | ⟨-, -, hEq⟩
  · rw [hEq] at h
    exact Or.inr ⟨fun hy => hUnused (hy ▸ h), h⟩
  · exact Or.inl (hEq ▸ h)
  · rw [hEq] at h
    simpa [freeVars] using h

/-- Closing takes out idle quantifiers only. -/
theorem Inst_close (b : Binding) (t : Polytype) (r : Valuation) :
    (close b t).Inst r = (all b.name b.bound.kind b.bound.type t).Inst r := by
  rcases close_cases b t with ⟨hUnused, hEq⟩ | ⟨rfl, hEq⟩ | ⟨-, -, hEq⟩
  · -- any instance of the bound will do, and there is one
    obtain ⟨h, hh⟩ := Inst_nonempty b.bound.type r
    ext g
    simp only [hEq, mem_Inst_all, Inst_update_of_not_mem hUnused]
    exact ⟨fun hg => ⟨h, hh, hg⟩, fun ⟨_, _, hg⟩ => hg⟩
  · ext g
    simp [hEq, mem_Inst_all, Monotype.eval]
  · rw [hEq]

theorem flexible_close {b : Binding} (hKind : b.bound.kind = .flexible)
    (hBound : b.bound.type.Flexible) (h : t.Flexible) : (close b t).Flexible := by
  rcases close_cases b t with ⟨-, hEq⟩ | ⟨-, hEq⟩ | ⟨-, -, hEq⟩
  · rwa [hEq]
  · rwa [hEq]
  · rw [hEq]
    exact ⟨hKind, hBound, h⟩

/-! ## The normal form of a type -/

theorem flexible_normalizeWith (h : t.Flexible) (s : Subst) (taken : NameSet) :
    (t.normalizeWith s taken).Flexible := by
  fun_induction normalizeWith t s taken with
  | case1 s taken x k b t m hMono ihBound ihBody => exact ihBody h.2.2
  | case2 s taken x k b t inner hCapture y hNotMono ihBound ihBody =>
    exact flexible_close h.1 (ihBound (h.2.1.subst s)) (ihBody h.2.2)
  | case3 s taken x k b t inner hCapture hNotMono ihBound ihBody =>
    exact flexible_close h.1 (ihBound (h.2.1.subst s)) (ihBody h.2.2)
  | case4 s taken t hNotAll => exact h.subst s

/-- The free names of a normal form come from the replacements of the free names of the type. -/
theorem exists_of_mem_freeVars_normalizeWith (t : Polytype) (s : Subst) (taken : NameSet) :
    ∀ y ∈ (t.normalizeWith s taken).freeVars, ∃ x ∈ t.freeVars, y ∈ (s.image x).freeVars := by
  -- what the induction hypothesis for a bound says about the names of the bound before substitution
  have ofBound {x : String} {k : BoundKind} {b t : Polytype} {s : Subst} {y : String}
      (h : ∃ w ∈ (b.subst s).freeVars, y ∈ ((∅ : Subst).image w).freeVars) :
      ∃ z ∈ (all x k b t).freeVars, y ∈ (s.image z).freeVars := by
    obtain ⟨w, hw, hyw⟩ := h
    obtain rfl : y = w := by simpa [Monotype.freeVars] using hyw
    obtain ⟨v, hv, hyv⟩ := mem_freeVars_subst.1 hw
    exact ⟨v, by simp [freeVars, hv], hyv⟩
  fun_induction normalizeWith t s taken with
  | case1 s taken x k b t m hMono ihBound ihBody =>
    intro y hy
    obtain ⟨z, hz, hyz⟩ := ihBody y hy
    rw [Subst.image_insert] at hyz
    split_ifs at hyz with hzx
    · -- the name came in with the monotype, and so from the bound
      rw [hMono] at ihBound
      exact ofBound (ihBound y hyz)
    · exact ⟨z, by simp [freeVars, hz, hzx], hyz⟩
  | case2 s taken x k b t inner hCapture y' hNotMono ihBound ihBody =>
    intro y hy
    rcases mem_freeVars_close hy with hBound | ⟨hne, hBody⟩
    · exact ofBound (ihBound y hBound)
    · obtain ⟨z, hz, hyz⟩ := ihBody y hBody
      rw [Subst.image_insert] at hyz
      split_ifs at hyz with hzx
      · -- the new name is bound here
        exact absurd (by simpa [Monotype.freeVars] using hyz) hne
      · rw [Subst.image_erase_of_ne hzx] at hyz
        exact ⟨z, by simp [freeVars, hz, hzx], hyz⟩
  | case3 s taken x k b t inner hCapture hNotMono ihBound ihBody =>
    intro y hy
    rcases mem_freeVars_close hy with hBound | ⟨hne, hBody⟩
    · exact ofBound (ihBound y hBound)
    · obtain ⟨z, hz, hyz⟩ := ihBody y hBody
      by_cases hzx : z = x
      · subst hzx
        exact absurd (by simpa [inner, Subst.image, Monotype.freeVars] using hyz) hne
      · rw [Subst.image_erase_of_ne hzx] at hyz
        exact ⟨z, by simp [freeVars, hz, hzx], hyz⟩
  | case4 s taken t hNotAll => exact fun y hy => mem_freeVars_subst.1 hy

/-- The free names of a type are among the names at its top. -/
theorem freeVars_subset_topNames (h : x ∈ t.freeVars) : x ∈ t.topNames := by
  induction t with
  | mono m => exact h
  | bottom => exact h
  | all y k b t _ iht =>
    simp only [freeVars, NameSet.mem_union, NameSet.mem_erase] at h
    simp only [topNames, NameSet.mem_insert, NameSet.mem_union]
    rcases h with hBound | ⟨-, hBody⟩
    · exact Or.inr (Or.inl hBound)
    · exact Or.inr (Or.inr (iht hBody))

/-- A normalization is set up right when the names to avoid hold all names at the top of the type
and in the replacements. -/
structure Avoids (taken : NameSet) (t : Polytype) (s : Subst) : Prop where
  names : ∀ x ∈ t.topNames, x ∈ taken
  replacements : ∀ x m, s.find? x = some m → ∀ y ∈ m.freeVars, y ∈ taken

/-- No replacement brings in a name that is not to be avoided. -/
theorem Avoids.image (h : Avoids taken t s) {y : String} (hx : x ∈ t.topNames)
    (hy : y ∈ (s.image x).freeVars) : y ∈ taken := by
  by_cases hyx : y = x
  · exact h.names y (hyx ▸ hx)
  · obtain ⟨m, hm, hym⟩ := Subst.find?_isSome_of_mem_image hy hyx
    exact h.replacements x m hm y hym

theorem Avoids.bound {k : BoundKind} {b : Polytype} (h : Avoids taken (all x k b t) s) :
    ∀ y ∈ (b.subst s).freeVars, y ∈ taken := by
  intro y hy
  obtain ⟨z, hz, hyz⟩ := mem_freeVars_subst.1 hy
  exact h.image (by simp [topNames, hz]) hyz

theorem Avoids.body {taken' : NameSet} {k : BoundKind} {b : Polytype} {s' : Subst}
    (h : Avoids taken (all x k b t) s) (hMore : ∀ y ∈ taken, y ∈ taken')
    (hSubst : ∀ z m, s'.find? z = some m → s.find? z = some m ∨ ∀ y ∈ m.freeVars, y ∈ taken') :
    Avoids taken' t s' where
  names y hy := hMore y (h.names y (by simp [topNames, hy]))
  replacements z m hm y hy := by
    rcases hSubst z m hm with hOld | hNew
    · exact hMore y (h.replacements z m hOld y hy)
    · exact hNew y hy

theorem Avoids.self (t : Polytype) : Avoids t.topNames t ∅ where
  names _ hx := hx
  replacements _ _ hm := by simp at hm

/-! The set-up of the three ways to go on with the body of a quantifier: with a monotype for its
variable, with a new name for it, and with the name as it is. -/

section Body

variable {taken : NameSet} {x : String} {k : BoundKind} {b t : Polytype} {s : Subst}

theorem Avoids.inlined (h : Avoids taken (all x k b t) s) {m : Monotype}
    (hMono : (b.subst s).normalizeWith ∅ (b.subst s).topNames = mono m) :
    Avoids taken t (s.insert x m) := by
  -- normalizing brings in no names, so those of the monotype are free in the bound
  have hNames : ∀ y ∈ m.freeVars, y ∈ taken := by
    intro y hy
    have hMem : y ∈ ((b.subst s).normalizeWith ∅ (b.subst s).topNames).freeVars := by
      rw [hMono]
      exact hy
    obtain ⟨w, hw, hyw⟩ := exists_of_mem_freeVars_normalizeWith _ _ _ y hMem
    obtain rfl : y = w := by simpa [Monotype.freeVars] using hyw
    exact h.bound y hw
  refine h.body (fun _ hy => hy) fun z n hn => ?_
  rw [NameMap.find?_insert] at hn
  split_ifs at hn with hzx
  · exact Or.inr (Option.some.inj hn ▸ hNames)
  · exact Or.inl hn

theorem Avoids.renamed (h : Avoids taken (all x k b t) s) (y : String) :
    Avoids (taken.insert y) t (NameMap.insert (s.erase x) x (.var y)) := by
  refine h.body (fun z hz => by simp [hz]) fun z n hn => ?_
  rw [NameMap.find?_insert, NameMap.find?_erase] at hn
  -- the new name itself, or a replacement from before
  split_ifs at hn with hzx
  · right
    intro w hw
    simp [← Option.some.inj hn, Monotype.freeVars] at hw
    simp [hw]
  · exact Or.inl hn

theorem Avoids.kept (h : Avoids taken (all x k b t) s) : Avoids taken t (s.erase x) := by
  refine h.body (fun _ hy => hy) fun z n hn => ?_
  rw [NameMap.find?_erase] at hn
  split_ifs at hn
  exact Or.inl hn

theorem Avoids.apart_of_not_mem (h : Avoids taken (all x k b t) s) {y : String} (hy : y ∉ taken) :
    ∀ z ∈ t.freeVars, z ≠ x → y ∉ (s.image z).freeVars := fun _ hz _ hMem =>
  hy (h.image (by simp [topNames, freeVars_subset_topNames hz]) hMem)

/-- A replacement that mentions the name would have had the quantifier renamed. -/
theorem Avoids.apart_of_kept (h : Avoids taken (all x k b t) s)
    (hKept : ¬ ((Subst.mentioning (s.erase x) x).any fun z => decide (z ∈ taken)) = true) :
    ∀ z ∈ t.freeVars, z ≠ x → x ∉ (s.image z).freeVars := by
  intro z hz hzx hx
  apply hKept
  rw [← Subst.image_erase_of_ne hzx] at hx
  obtain ⟨m, hm, hxm⟩ := Subst.find?_isSome_of_mem_image hx (Ne.symm hzx)
  have hTaken : z ∈ taken := h.names z (by simp [topNames, freeVars_subset_topNames hz])
  exact List.any_eq_true.2 ⟨z, Subst.mem_mentioning hm hxm, by simpa using hTaken⟩

end Body

/-- A quantifier that stays, under the name `y`, keeps its instances when its bound and its body do,
where the body is normalized with `y` in the place of `x`. -/
theorem Inst_close_normalizeWith {y : String} {k : BoundKind} {b : Polytype} {s' : Subst}
    (hBound : ∀ r, ((b.subst s).normalizeWith ∅ (b.subst s).topNames).Inst r = (b.subst s).Inst r)
    (hBody : ∀ r, (t.normalizeWith s' taken).Inst r = t.Inst (s'.eval r))
    (hImage : s'.image x = .var y) (hSame : ∀ z ∈ t.freeVars, z ≠ x → s'.image z = s.image z)
    (hApart : ∀ z ∈ t.freeVars, z ≠ x → y ∉ (s.image z).freeVars) (r : Valuation) :
    (close ⟨y, ⟨k, (b.subst s).normalizeWith ∅ (b.subst s).topNames⟩⟩
      (t.normalizeWith s' taken)).Inst r = (all x k b t).Inst (s.eval r) := by
  rw [Inst_close]
  ext g
  simp only [mem_Inst_all, hBound, Inst_subst, hBody, Inst_eval_update hImage hSame hApart]

/-- The recursion keeps instances: what it gives has the instances of the type where the replaced
names have the values of their replacements. -/
theorem Inst_normalizeWith (h : Avoids taken t s) (r : Valuation) :
    (t.normalizeWith s taken).Inst r = t.Inst (s.eval r) := by
  fun_induction normalizeWith t s taken generalizing r with
  | case1 s taken x k b t m hMono ihBound ihBody =>
    -- the bound has one instance, which is the value of `x`
    have hBound : b.Inst (s.eval r) = {m.eval r} := by
      rw [← Inst_subst, ← Subst.eval_empty r, ← ihBound (.self _), hMono, Inst_mono]
      rfl
    rw [ihBody (h.inlined hMono), Subst.eval_insert]
    ext g
    simp [mem_Inst_all, hBound]
  | case2 s taken x k b t inner hCapture y hNotMono ihBound ihBody =>
    -- renamed: the new name is in no replacement
    have hFresh : y ∉ taken := freshName_not_mem x taken.toList
    refine Inst_close_normalizeWith (ihBound (.self _)) (ihBody (h.renamed y)) (by simp) ?_
      (h.apart_of_not_mem hFresh) r
    intro z _ hzx
    rw [Subst.image_insert, if_neg hzx, Subst.image_erase_of_ne hzx]
  | case3 s taken x k b t inner hCapture hNotMono ihBound ihBody =>
    exact Inst_close_normalizeWith (ihBound (.self _)) (ihBody h.kept)
      (by simp [inner, Subst.image]) (fun z _ hzx => Subst.image_erase_of_ne hzx)
      (h.apart_of_kept hCapture) r
  | case4 s taken t hNotAll => exact Inst_subst t s r

theorem isNormal_normal (t : Polytype) : t.normal.IsNormal := by
  rw [normal_eq_normalizeWith]
  exact isNormal_normalizeWith t _ _

/-- The types in normal form are those that are their own normal form. -/
theorem normal_eq_self : t.normal = t ↔ t.IsNormal :=
  ⟨fun h => h ▸ isNormal_normal t, fun h => by rw [normal_eq_normalizeWith, h.normalizeWith_eq]⟩

theorem flexible_normal (h : t.Flexible) : t.normal.Flexible := by
  rw [normal_eq_normalizeWith]
  exact flexible_normalizeWith h _ _

theorem freeVars_normal (h : x ∈ t.normal.freeVars) : x ∈ t.freeVars := by
  rw [normal_eq_normalizeWith] at h
  obtain ⟨y, hy, hxy⟩ := exists_of_mem_freeVars_normalizeWith _ _ _ x h
  obtain rfl : x = y := by simpa [Monotype.freeVars] using hxy
  exact hy

/-- A type and its normal form have the same instances. -/
theorem Inst_normal (t : Polytype) (r : Valuation) : t.normal.Inst r = t.Inst r := by
  rw [normal_eq_normalizeWith]
  exact Inst_normalizeWith (.self t) r

end Polytype

/-! ## Places of names in instances -/

namespace Ground

/-- The part of a ground type at a place, which says at each function whether to go on with the
parameter or with the body. -/
def part? : List Bool → Ground → Option Ground
  | [], g => some g
  | inBody :: path, fn p b => part? path (if inBody then b else p)
  | _ :: _, const _ => none

/-- How deep functions nest in a ground type. -/
def height : Ground → Nat
  | const _ => 0
  | fn p b => max p.height b.height + 1

theorem part?_append {path path' : List Bool} {h : Ground} (hg : g.part? path = some h) :
    g.part? (path ++ path') = h.part? path' := by
  induction path generalizing g with
  | nil =>
    obtain rfl : g = h := by simpa [part?] using hg
    rfl
  | cons inBody path ih =>
    cases g with
    | const c => simp [part?] at hg
    | fn p b => exact ih hg

theorem height_le_of_part? {path : List Bool} {h : Ground} (hg : g.part? path = some h) :
    h.height + path.length ≤ g.height := by
  induction path generalizing g with
  | nil =>
    obtain rfl : g = h := by simpa [part?] using hg
    simp
  | cons inBody path ih =>
    cases g with
    | const c => simp [part?] at hg
    | fn p b =>
      have hPart := ih hg
      have hInside : (if inBody then b else p).height ≤ max p.height b.height := by
        cases inBody
        · exact Nat.le_max_left ..
        · exact Nat.le_max_right ..
      simp only [height, List.length_cons]
      omega

end Ground

theorem Monotype.exists_place {t : Monotype} (hx : x ∈ t.freeVars) :
    ∃ path, (t ≠ .var x → path ≠ []) ∧ ∀ r, (t.eval r).part? path = some (r x) := by
  induction t with
  | var y =>
    obtain rfl : x = y := by simpa [freeVars] using hx
    exact ⟨[], fun h => absurd rfl h, fun r => rfl⟩
  | const c => simp [freeVars] at hx
  | fn p b ihp ihb =>
    rcases NameSet.mem_union.1 hx with hp | hb
    · obtain ⟨path, -, hPath⟩ := ihp hp
      exact ⟨false :: path, fun _ => by simp, hPath⟩
    · obtain ⟨path, -, hPath⟩ := ihb hb
      exact ⟨true :: path, fun _ => by simp, hPath⟩

namespace Polytype

/-- A free name of a normal form has its value at a fixed place of every instance, and inside of the
instance unless the type is the name. -/
theorem IsNormal.exists_place (h : t.IsNormal) (hx : x ∈ t.freeVars) :
    ∃ path, (t ≠ mono (.var x) → path ≠ []) ∧ ∀ r, ∀ g ∈ t.Inst r, g.part? path = some (r x) := by
  induction t generalizing x with
  | mono m =>
    obtain ⟨path, hPath, hPart⟩ := Monotype.exists_place hx
    refine ⟨path, fun hne => hPath fun hm => hne (by rw [hm]), ?_⟩
    rintro r g rfl
    exact hPart r
  | bottom => simp [freeVars] at hx
  | all y k b t ihb iht =>
    have hNoVar := h.body_ne_var
    obtain ⟨hBound, -, hUsed, -, hBody⟩ := h
    simp only [freeVars, NameSet.mem_union, NameSet.mem_erase] at hx
    rcases hx with hx | ⟨hxy, hx⟩
    · -- the variable of the quantifier has a place in the body, and `x` has one in its value
      obtain ⟨outer, hOuter, hPartOuter⟩ := iht hBody hUsed
      obtain ⟨inner, -, hPartInner⟩ := ihb hBound hx
      refine ⟨outer ++ inner, fun _ hNil => hOuter (hNoVar y) (List.append_eq_nil_iff.1 hNil).1, ?_⟩
      rintro r g ⟨i, hi, hg⟩
      rw [Ground.part?_append (hPartOuter _ g hg), Function.update_self]
      exact hPartInner r i hi
    · -- a name of the body has its place there
      obtain ⟨path, hPath, hPart⟩ := iht hBody hx
      refine ⟨path, fun _ => hPath (hNoVar x), ?_⟩
      rintro r g ⟨i, hi, hg⟩
      rw [hPart _ g hg, Function.update_of_ne hxy]

/-- A free name is worth no more than an instance. -/
theorem IsNormal.height_le (h : t.IsNormal) (hx : x ∈ t.freeVars) {r : Valuation}
    (hg : g ∈ t.Inst r) : (r x).height ≤ g.height := by
  obtain ⟨path, -, hPart⟩ := h.exists_place hx
  have := Ground.height_le_of_part? (hPart r g hg)
  omega

/-- A free name is worth less than an instance, unless the type is the name. -/
theorem IsNormal.height_lt (h : t.IsNormal) (hx : x ∈ t.freeVars) (hne : t ≠ mono (.var x))
    {r : Valuation} (hg : g ∈ t.Inst r) : (r x).height < g.height := by
  obtain ⟨path, hPath, hPart⟩ := h.exists_place hx
  have hLength := List.length_pos_iff.2 (hPath hne)
  have := Ground.height_le_of_part? (hPart r g hg)
  omega

/-- An instance determines the values of the free names. -/
theorem IsNormal.eq_of_mem_Inst (h : t.IsNormal) (hx : x ∈ t.freeVars) {r r' : Valuation}
    (hg : g ∈ t.Inst r) (hg' : g ∈ t.Inst r') : r x = r' x := by
  obtain ⟨path, -, hPart⟩ := h.exists_place hx
  exact Option.some.inj ((hPart r g hg).symm.trans (hPart r' g hg'))

/-- The quantifiers of a normal form range over a function. -/
theorem IsNormal.split_body (h : t.IsNormal) (hNotMono : t.mono? = none) (hNotBottom : t ≠ bottom) :
    ∃ p b, t.split.2 = mono (.fn p b) := by
  induction t with
  | mono m => simp [mono?] at hNotMono
  | bottom => exact absurd rfl hNotBottom
  | all x k b t _ iht =>
    have hNoVar := h.body_ne_var
    obtain ⟨-, -, hUsed, -, hBody⟩ := h
    cases t with
    | mono m =>
      cases m with
      | var y => exact absurd rfl (hNoVar y)
      -- the innermost quantifier has to be used
      | const c => simp [freeVars, Monotype.freeVars] at hUsed
      | fn p q => exact ⟨p, q, rfl⟩
    | bottom => simp [freeVars] at hUsed
    | all y l c u => exact iht hBody rfl (by simp)

end Polytype

end Mlf
