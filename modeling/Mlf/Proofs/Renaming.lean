import Mathlib.Data.List.Forall2
import Mlf.Proofs.Equivalence

/-!
# Types under other names

A type and a copy of it: the free names are changed by a function that keeps different names apart,
and the names of quantified variables may be any others. Nothing that is done to types tells a type
from its copies. Free names come in the same order, normal forms and substitutions of copies are
copies, and copies are equivalent exactly if the types are.

The nameless reading makes this short. A copy has the reading of the type over the new names, so
that the names of quantified variables play no part, and what is known about readings of normal
forms and of substitutions applies as it stands.

Main results:

* `Copies` — what a copy is, with a lemma for each form of a type;
* `Copies.occurrences`, `Copies.freeVars` — the free names of a copy, in their order;
* `Copies.normal`, `Copies.subst`, `Copies.equivalent` — what is done to types;
* `Copies.chain` — quantifiers that are put in front of a type.
-/

namespace Mlf

variable {m : Monotype} {t u : Polytype} {x y : String}
variable {V : Type}

/-! ## Free names in their order -/

/-- The names that are still free under a quantifier. -/
theorem filterMap_varUnder (F : String → V) (x : String) (xs : List String) :
    (xs.map (Reading.varUnder F x)).filterMap id = (xs.filter (· ≠ x)).map F := by
  induction xs with
  | nil => rfl
  | cons y xs ih =>
    by_cases hyx : y = x
    · simpa [Reading.varUnder, hyx] using ih
    · simpa [Reading.varUnder, hyx] using ih

theorem map_filter_ne_of_varUnder {F G : String → V} {xs ys : List String}
    (h : xs.map (Reading.varUnder F x) = ys.map (Reading.varUnder G y)) :
    (xs.filter (· ≠ x)).map F = (ys.filter (· ≠ y)).map G := by
  rw [← filterMap_varUnder, ← filterMap_varUnder, h]

theorem Monotype.occurrencesOutside_eq (scope : List String) (m : Monotype) :
    m.occurrencesOutside scope = (m.occurrencesOutside []).filter (· ∉ scope) := by
  induction m with
  | var x => by_cases hx : x ∈ scope <;> simp [occurrencesOutside, hx]
  | const c => rfl
  | fn p b ihp ihb => simp [occurrencesOutside, ihp, ihb]

theorem Polytype.occurrencesOutside_eq (scope : List String) (t : Polytype) :
    t.occurrencesOutside scope = t.occurrences.filter (· ∉ scope) := by
  unfold occurrences
  induction t generalizing scope with
  | mono m => exact m.occurrencesOutside_eq scope
  | bottom => rfl
  | all x k b t ihb iht =>
    simp only [occurrencesOutside, List.filter_append]
    rw [ihb scope, iht (x :: scope), iht [x], List.filter_filter]
    congr 1
    -- the quantified variable is filtered out in any case, so its place in the scope does not
    -- matter
    refine List.filter_congr fun y _ => ?_
    simp only [List.mem_cons, not_or, List.not_mem_nil, not_false_eq_true, and_true]
    by_cases hy : y = x <;> simp [hy]

theorem Polytype.occurrences_all (x : String) (k : BoundKind) (b t : Polytype) :
    (all x k b t).occurrences = b.occurrences ++ t.occurrences.filter (· ≠ x) := by
  show b.occurrencesOutside [] ++ t.occurrencesOutside [x] = _
  rw [t.occurrencesOutside_eq [x]]
  congr 1
  exact List.filter_congr fun y _ => by simp

theorem Monotype.map_occurrences {F G : String → V} {n : Monotype}
    (h : m.nameless (fun x => .var (F x)) = n.nameless (fun x => .var (G x))) :
    (m.occurrencesOutside []).map F = (n.occurrencesOutside []).map G := by
  replace h := sameReading_of_nameless_eq h
  induction h with
  | var hxy => simpa [occurrencesOutside] using hxy
  | const c => rfl
  | fn _ _ ihp ihb => simp only [occurrencesOutside, List.map_append, ihp, ihb]

/-- Types with one reading have the same names in the same order. -/
theorem Polytype.map_occurrences {F G : String → V}
    (h : t.nameless (fun x => .var (F x)) = u.nameless (fun x => .var (G x))) :
    t.occurrences.map F = u.occurrences.map G := by
  replace h := sameReading_of_nameless_eq h
  induction h with
  | mono h => exact Monotype.map_occurrences h
  | bottom => rfl
  | all _ _ ihb iht =>
    rw [occurrences_all, occurrences_all, List.map_append, List.map_append, ihb,
      map_filter_ne_of_varUnder iht]

/-! ## Sets of names -/

namespace NameSet

variable {F G : String → V} {s s' : NameSet}

theorem map_insert (hF : Function.Injective F) (hG : Function.Injective G) (hxy : F x = G y)
    (h : s.toList.map F = s'.toList.map G) :
    (insert x s).toList.map F = (insert y s').toList.map G := by
  have hMem : x ∈ s.toList ↔ y ∈ s'.toList := by
    rw [← List.mem_map_of_injective hF, ← List.mem_map_of_injective hG, h, hxy]
  unfold insert
  by_cases hx : x ∈ s.toList
  · rw [dif_pos hx, dif_pos (hMem.1 hx), h]
  · rw [dif_neg hx, dif_neg (mt hMem.2 hx), List.map_cons, List.map_cons, hxy, h]

theorem map_union (hF : Function.Injective F) (hG : Function.Injective G) {t t' : NameSet}
    (h : s.toList.map F = s'.toList.map G) (h' : t.toList.map F = t'.toList.map G) :
    (s.union t).toList.map F = (s'.union t').toList.map G := by
  -- by induction on the names that come in
  unfold union
  generalize s.toList = xs at h
  generalize s'.toList = ys at h
  induction xs generalizing ys with
  | nil =>
    cases ys with
    | nil => exact h'
    | cons y ys => simp at h
  | cons x xs ih =>
    cases ys with
    | nil => simp at h
    | cons y ys =>
      obtain ⟨hxy, hRest⟩ := List.cons.inj h
      exact map_insert hF hG hxy (ih ys hRest)

theorem map_erase (h : s.toList.map (Reading.varUnder F x) = s'.toList.map (Reading.varUnder G y)) :
    (s.erase x).toList.map F = (s'.erase y).toList.map G := by
  show (s.toList.erase x).map F = (s'.toList.erase y).map G
  have hFilter (s : NameSet) (x : String) : s.toList.erase x = s.toList.filter (· ≠ x) := by
    rw [s.nodup.erase_eq_filter]
    exact List.filter_congr fun y _ => by by_cases hy : y = x <;> simp [hy]
  rw [hFilter, hFilter, map_filter_ne_of_varUnder h]

end NameSet

theorem Monotype.map_freeVars {F G : String → V} (hF : Function.Injective F)
    (hG : Function.Injective G) {n : Monotype}
    (h : m.nameless (fun x => .var (F x)) = n.nameless (fun x => .var (G x))) :
    m.freeVars.toList.map F = n.freeVars.toList.map G := by
  replace h := sameReading_of_nameless_eq h
  induction h with
  | var hxy => simpa [freeVars, NameSet.singleton] using hxy
  | const c => rfl
  -- those of the body that the parameter has already are the same ones on both sides
  | fn _ _ ihp ihb => exact NameSet.map_union hF hG ihp ihb

/-- Types with one reading have the same free names. -/
theorem Polytype.map_freeVars {F G : String → V} (hF : Function.Injective F)
    (hG : Function.Injective G)
    (h : t.nameless (fun x => .var (F x)) = u.nameless (fun x => .var (G x))) :
    t.freeVars.toList.map F = u.freeVars.toList.map G := by
  replace h := sameReading_of_nameless_eq h
  induction h with
  | mono h => exact Monotype.map_freeVars hF hG h
  | bottom => rfl
  | all _ _ ihb iht =>
    have hBodies := iht (Reading.varUnder_injective hF _) (Reading.varUnder_injective hG _)
    exact NameSet.map_union hF hG (ihb hF hG) (NameSet.map_erase hBodies)

/-! ## Copies -/

/-- Changes the names of a monotype. -/
def Monotype.rename (f : String → String) : Monotype → Monotype
  | var x => var (f x)
  | const c => const c
  | fn p b => fn (p.rename f) (b.rename f)

/-- The second type is the first one with its free names changed, up to the names of quantified
variables. -/
def Polytype.Copies (f : String → String) (t u : Polytype) : Prop :=
  t.nameless (fun x => .var (f x)) = u.shape

/-- Bounds of one kind whose types are copies. -/
structure Bound.Copies (f : String → String) (b c : Bound) : Prop where
  kind : c.kind = b.kind
  type : b.type.Copies f c.type

/-- Bindings whose names and bounds are copies. -/
structure Binding.Copies (f : String → String) (b c : Binding) : Prop where
  name : c.name = f b.name
  bound : b.bound.Copies f c.bound

/-- Substitutions that put copies in the places of copies. -/
def Subst.Copies (f : String → String) (s s' : Subst) : Prop :=
  ∀ x, s'.image (f x) = (s.image x).rename f

variable {f : String → String}

namespace Monotype

theorem nameless_rename (m : Monotype) (r : Reading V) :
    (m.rename f).nameless r = m.nameless fun x => r (f x) := by
  induction m with
  | var x => rfl
  | const c => rfl
  | fn p b ihp ihb => rw [rename, nameless, ihp, ihb, nameless]

theorem rename_injective (hf : Function.Injective f) : Function.Injective (rename f) := by
  intro m
  induction m with
  | var x =>
    intro n h
    cases n <;> simp_all [rename, hf.eq_iff]
  | const c =>
    intro n h
    cases n <;> simp_all [rename]
  | fn p b ihp ihb =>
    intro n h
    cases n with
    | var y => simp [rename] at h
    | const d => simp [rename] at h
    | fn q c =>
      simp only [rename, fn.injEq] at h
      rw [ihp h.1, ihb h.2]

theorem subst_rename {s s' : Subst} (h : s.Copies f s') (m : Monotype) :
    (m.rename f).subst s' = (m.subst s).rename f := by
  induction m with
  | var x => exact h x
  | const c => rfl
  | fn p b ihp ihb => rw [rename, subst, ihp, ihb, subst, rename]

theorem freeVars_rename (hf : Function.Injective f) (m : Monotype) :
    (m.rename f).freeVars.toList = m.freeVars.toList.map f := by
  have hMap := map_freeVars (F := f) (G := id) hf Function.injective_id (m := m) (n := m.rename f)
    (nameless_rename m .var).symm
  rw [hMap, List.map_id]

theorem exists_of_mem_freeVars_rename (hx : x ∈ (m.rename f).freeVars) :
    ∃ y ∈ m.freeVars, f y = x := by
  induction m with
  | var y => exact ⟨y, by simp [freeVars], by simpa [rename, freeVars, eq_comm] using hx⟩
  | const c => simp [rename, freeVars] at hx
  | fn p b ihp ihb =>
    simp only [rename, freeVars, NameSet.mem_union] at hx ⊢
    rcases hx with hx | hx
    · obtain ⟨y, hy, hEq⟩ := ihp hx
      exact ⟨y, Or.inl hy, hEq⟩
    · obtain ⟨y, hy, hEq⟩ := ihb hx
      exact ⟨y, Or.inr hy, hEq⟩

end Monotype

theorem Subst.Copies.insert (hf : Function.Injective f) {s s' : Subst} (h : s.Copies f s')
    (x : String) (m : Monotype) : Subst.Copies f (s.insert x m) (s'.insert (f x) (m.rename f)) := by
  intro y
  by_cases hyx : y = x
  · simp [hyx]
  · rw [image_insert, image_insert, if_neg hyx, if_neg (hf.ne hyx), h y]

theorem Subst.copies_empty : Subst.Copies f ∅ ∅ := fun _ => rfl

namespace Polytype

theorem copies_mono : (mono m).Copies f u ↔ u = mono (m.rename f) := by
  constructor
  · intro h
    cases sameReading_of_nameless_eq (G := id) h with
    | mono hSame =>
      -- a copy is read over names that are kept apart, and so is told by its reading
      rw [← Monotype.nameless_rename m .var] at hSame
      rw [Monotype.eq_of_nameless_eq Function.injective_id hSame]
  · rintro rfl
    exact congrArg Nameless.mono (Monotype.nameless_rename m .var).symm

theorem copies_bottom : bottom.Copies f u ↔ u = bottom := by
  constructor
  · intro h
    cases sameReading_of_nameless_eq (G := id) h with
    | bottom => rfl
  · rintro rfl
    rfl

theorem copies_all {k : BoundKind} {b : Polytype} (h : (all x k b t).Copies f u) :
    ∃ y c v, u = all y k c v ∧ b.Copies f c ∧
      t.nameless (Reading.under (fun z => .var (f z)) x) = v.nameless (Reading.under .var y) := by
  cases sameReading_of_nameless_eq (G := id) h with
  | @all _ _ _ _ y _ _ c _ u hBound hBody =>
    refine ⟨y, c, u, rfl, hBound.nameless_eq, ?_⟩
    rw [Reading.under_var, hBody.nameless_eq]
    exact congrArg u.nameless (Reading.under_var id y).symm

namespace Copies

variable {t u : Polytype}

/-- The reading of a copy in any other way. -/
theorem nameless (h : t.Copies f u) (r : Reading V) : u.nameless r = t.nameless fun x => r (f x) := by
  have hBind : u.nameless r = u.shape.bind r := by
    rw [shape, nameless_bind]
    rfl
  rw [hBind, ← h, nameless_bind]
  rfl

/-- A quantifier over a name and one over its new name. -/
theorem all (hf : Function.Injective f) {b c : Polytype} (hBound : b.Copies f c) (h : t.Copies f u)
    (x : String) (k : BoundKind) : (all x k b t).Copies f (all (f x) k c u) := by
  -- the new name is read under the new quantifier as the name is under the old one
  have hUnder : Reading.under (fun y => .var (f y)) x =
      fun y => Reading.under (Nameless.Mono.var : String → _) (f x) (f y) := by
    funext y
    by_cases hyx : y = x
    · simp [hyx]
    · rw [Reading.under_of_ne _ hyx, Reading.under_of_ne _ (hf.ne hyx)]
  rw [Copies, shape, Polytype.nameless, Polytype.nameless, hUnder, ← h.nameless]
  exact congrArg (Nameless.all k · _) hBound

theorem occurrences (h : t.Copies f u) : u.occurrences = t.occurrences.map f := by
  have hMap := map_occurrences (F := f) (G := id) h
  rw [hMap, List.map_id]

theorem freeVars (hf : Function.Injective f) (h : t.Copies f u) :
    u.freeVars.toList = t.freeVars.toList.map f := by
  have hMap := map_freeVars (F := f) (G := id) hf Function.injective_id h
  rw [hMap, List.map_id]

theorem mem_freeVars (hf : Function.Injective f) (h : t.Copies f u) :
    y ∈ u.freeVars ↔ ∃ x ∈ t.freeVars, f x = y := by
  rw [← NameSet.mem_toList, h.freeVars hf, List.mem_map]
  rfl

theorem mono? (h : t.Copies f u) : u.mono? = t.mono?.map (·.rename f) := by
  cases t with
  | mono m => rw [copies_mono.1 h]; rfl
  | bottom => rw [copies_bottom.1 h]; rfl
  | all x k b t =>
    obtain ⟨y, c, v, rfl, -⟩ := copies_all h
    rfl

theorem normal (h : t.Copies f u) : t.normal.Copies f u.normal := by
  rw [Copies, nameless_normal, h, shape, shape, nameless_normal]

theorem subst {s s' : Subst} (h : t.Copies f u) (hs : s.Copies f s') :
    (t.subst s).Copies f (u.subst s') := by
  rw [Copies, shape, nameless_subst, nameless_subst, h.nameless]
  congr 1
  funext x
  rw [Subst.nameless, Subst.nameless, hs x, Monotype.nameless_rename]

/-- Copies are equivalent if and only if the types are. -/
theorem equivalent (hf : Function.Injective f) (h : t.Copies f u) {v w : Polytype}
    (h' : v.Copies f w) : u.equivalent w = t.equivalent v := by
  have hNorm {t u : Polytype} (h : t.Copies f u) :
      u.shape.norm = t.shape.norm.bind fun x => .var (f x) := by
    rw [← h, ← Nameless.norm_bind, shape, nameless_bind]
    rfl
  rw [Bool.eq_iff_iff, equivalent_iff_norm_eq, equivalent_iff_norm_eq, hNorm h, hNorm h']
  refine ⟨fun hEq => ?_, fun hEq => by rw [hEq]⟩
  -- names that are kept apart can be changed back
  obtain ⟨g, hg⟩ := hf.hasLeftInverse
  have hBack := congrArg (Nameless.bind fun y => .var (g y)) hEq
  simpa [Nameless.bind_bind, Nameless.Mono.bind, hg _] using hBack

/-- Quantifiers that are put in front of a type. -/
theorem chain (hf : Function.Injective f) (h : t.Copies f u) {bs cs : List Binding}
    (hBindings : List.Forall₂ (Binding.Copies f) bs cs) :
    (chain bs t).Copies f (chain cs u) := by
  induction hBindings with
  | nil => exact h
  | @cons b c bs cs hb _ ih =>
    rw [chain_cons, chain_cons, hb.name, hb.bound.kind]
    exact .all hf hb.bound.type ih _ _

theorem quantifyAll (hf : Function.Injective f) (h : t.Copies f u) {bs cs : List Binding}
    (hBindings : List.Forall₂ (Binding.Copies f) bs cs) :
    (quantifyAll bs t).Copies f (quantifyAll cs u) := by
  cases hBindings with
  | nil => exact h
  | cons hb hBindings =>
    rw [quantifyAll_cons, quantifyAll_cons]
    exact (h.chain hf (.cons hb hBindings)).normal

end Copies

/-- A type without free names is a copy of itself, whatever names are changed. -/
theorem Copies.refl_of_fixed (h : ∀ x ∈ t.freeVars, f x = x) : t.Copies f t :=
  nameless_congr fun x hx => congrArg Nameless.Mono.var (h x hx)

end Polytype

end Mlf
