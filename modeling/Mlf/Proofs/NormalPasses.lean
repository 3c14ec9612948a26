import Mathlib
import Mlf.Polytype.Normal
import Mlf.Proofs.Ground

/-!
# Normalization as one recursion

The passes go over a chain of quantifiers inwards and back out, and once more where the chain turns
out to be a bound. Laws of normal forms are about one quantifier and what it ranges over, and so is
the recursion `normalizeWith`: on the way in it does to one binding what the first pass does to it,
and on the way out it closes the result over the binding, by the second pass's test and the law for
a quantifier over its own variable at once.

The two compute the same types. The passes keep the quantifier over a variable that is the whole
body until the end, and the recursion puts the bound there at once; but from then on both go on with
the bound, which is no monotype, so that the law does not apply a second time. The chain that the
passes start over with is therefore a normal form already.

Main results:

* `isNormal_normalizeWith`, `IsNormal.normalizeWith_eq` — the recursion gives normal forms and leaves
  them alone;
* `normalizeChain_type`, `normalizeChain_changed` — what the passes give for a chain, and that they
  note a change exactly if the chain is no normal form;
* `normal_eq_normalizeWith`, `quantifyAll_cons` — normal forms and quantification by the recursion.
-/

namespace Mlf

variable {body t : Polytype} {b : Binding} {bs : List Binding} {n : Nat}
namespace Polytype

/-! ## The recursion -/

/-- The names at the top of a type: of its leading quantifiers, free in their bounds, and free in
the body. -/
def topNames : Polytype → NameSet
  | all x _ b t => (b.freeVars.union t.topNames).insert x
  | t => t.freeVars

/-- Quantifies a type in normal form over a variable with a bound in normal form that is no
monotype. -/
def close (b : Binding) (t : Polytype) : Polytype :=
  if b.name ∉ t.freeVars then t
  else if t = mono (.var b.name) then b.bound.type
  else all b.name b.bound.kind b.bound.type t

/-- The normal form of a type after the replacements `s`, where renamed quantifiers avoid the names
`taken`. -/
def normalizeWith (t : Polytype) (s : Subst) (taken : NameSet) : Polytype :=
  match t with
  | all x k b body =>
    match (b.subst s).normalizeWith ∅ (b.subst s).topNames with
    -- A monotype takes the place of its variable.
    | mono m => body.normalizeWith (s.insert x m) taken
    | σ =>
      let inner : Subst := s.erase x
      -- The quantifier stays, under a new name if a replacement mentions its own.
      if (inner.mentioning x).any fun z => decide (z ∈ taken) then
        let y := freshName x taken.toList
        close ⟨y, ⟨k, σ⟩⟩ (body.normalizeWith (inner.insert x (.var y)) (taken.insert y))
      else
        close ⟨x, ⟨k, σ⟩⟩ (body.normalizeWith inner taken)
  | t => t.subst s
termination_by t.quantifiers
decreasing_by all_goals simp only [quantifiers, quantifiers_subst]; omega

/-- Whether a type is in normal form: each quantifier has a bound in normal form that is no
monotype, a variable that is used, and a body that is more than this variable. -/
def IsNormal : Polytype → Prop
  | all x _ b t => b.IsNormal ∧ b.mono? = none ∧ x ∈ t.freeVars ∧ t ≠ mono (.var x) ∧ t.IsNormal
  | _ => True

instance decidableIsNormal : DecidablePred IsNormal
  | all x _ b t =>
    have := decidableIsNormal b
    have := decidableIsNormal t
    inferInstanceAs (Decidable
      (b.IsNormal ∧ b.mono? = none ∧ x ∈ t.freeVars ∧ t ≠ mono (.var x) ∧ t.IsNormal))
  | mono _ => .isTrue trivial
  | bottom => .isTrue trivial

@[simp] theorem isNormal_mono (m : Monotype) : (mono m).IsNormal := trivial

@[simp] theorem isNormal_bottom : bottom.IsNormal := trivial

theorem mono?_eq_none : t.mono? = none ↔ ∀ m, t ≠ mono m := by
  cases t <;> simp [mono?]

/-- What closing a type can do: drop a quantifier that is not used, put the bound in the place of a
body that is the variable, or keep the quantifier. -/
theorem close_cases (b : Binding) (t : Polytype) :
    (b.name ∉ t.freeVars ∧ close b t = t) ∨
    (t = mono (.var b.name) ∧ close b t = b.bound.type) ∨
    (b.name ∈ t.freeVars ∧ t ≠ mono (.var b.name) ∧
      close b t = all b.name b.bound.kind b.bound.type t) := by
  unfold close
  by_cases hUsed : b.name ∈ t.freeVars
  · by_cases hVar : t = mono (.var b.name)
    · exact Or.inr (Or.inl ⟨hVar, by rw [if_neg (not_not.2 hUsed), if_pos hVar]⟩)
    · exact Or.inr (Or.inr ⟨hUsed, hVar, by rw [if_neg (not_not.2 hUsed), if_neg hVar]⟩)
  · exact Or.inl ⟨hUsed, if_pos hUsed⟩

theorem isNormal_close (hBound : b.bound.type.IsNormal) (hNotMono : b.bound.type.mono? = none)
    (h : t.IsNormal) : (close b t).IsNormal := by
  rcases close_cases b t with ⟨-, hEq⟩ | ⟨-, hEq⟩ | ⟨hUsed, hVar, hEq⟩
  · rwa [hEq]
  · rwa [hEq]
  · rw [hEq]
    exact ⟨hBound, hNotMono, hUsed, hVar, h⟩

theorem quantifiers_close_le (b : Binding) (t : Polytype) :
    (close b t).quantifiers ≤ b.bound.type.quantifiers + t.quantifiers + 1 := by
  rcases close_cases b t with ⟨-, hEq⟩ | ⟨-, hEq⟩ | ⟨-, -, hEq⟩ <;> rw [hEq]
  · omega
  · omega
  · exact le_rfl

/-- A normal form has no more quantifiers than the type. -/
theorem quantifiers_normalizeWith_le (t : Polytype) (s : Subst) (taken : NameSet) :
    (t.normalizeWith s taken).quantifiers ≤ t.quantifiers := by
  fun_induction normalizeWith t s taken with
  -- a quantifier that is filled in is gone
  | case1 s taken x k b t m hMono ihBound ihBody =>
    rw [quantifiers]
    omega
  | case2 s taken x k b t inner hCapture y hNotMono ihBound ihBody =>
    rw [quantifiers_subst] at ihBound
    refine (quantifiers_close_le _ _).trans ?_
    rw [quantifiers]
    dsimp only
    omega
  | case3 s taken x k b t inner hCapture hNotMono ihBound ihBody =>
    rw [quantifiers_subst] at ihBound
    refine (quantifiers_close_le _ _).trans ?_
    rw [quantifiers]
    dsimp only
    omega
  | case4 s taken t hNotAll => rw [quantifiers_subst]

/-- How one quantifier is normalized: by the recursion for its bound, then for its body. -/
theorem normalizeWith_all {x : String} {k : BoundKind} {b : Polytype} {s : Subst}
    {taken : NameSet} (hNotMono : ∀ m, (b.subst s).normalizeWith ∅ (b.subst s).topNames ≠ mono m) :
    (all x k b t).normalizeWith s taken =
      if ((Subst.mentioning (s.erase x) x).any fun z => decide (z ∈ taken)) = true then
        close ⟨freshName x taken.toList, ⟨k, (b.subst s).normalizeWith ∅ (b.subst s).topNames⟩⟩
          (t.normalizeWith (NameMap.insert (s.erase x) x (.var (freshName x taken.toList)))
            (taken.insert (freshName x taken.toList)))
      else
        close ⟨x, ⟨k, (b.subst s).normalizeWith ∅ (b.subst s).topNames⟩⟩
          (t.normalizeWith (s.erase x) taken) := by
  rw [normalizeWith]
  split
  · exact absurd ‹_› (hNotMono _)
  · rfl

theorem isNormal_normalizeWith (t : Polytype) (s : Subst) (taken : NameSet) :
    (t.normalizeWith s taken).IsNormal := by
  fun_induction normalizeWith t s taken with
  | case1 s taken x k b t m hMono ihBound ihBody => exact ihBody
  | case2 s taken x k b t inner hCapture y hNotMono ihBound ihBody =>
    exact isNormal_close ihBound (mono?_eq_none.2 hNotMono) ihBody
  | case3 s taken x k b t inner hCapture hNotMono ihBound ihBody =>
    exact isNormal_close ihBound (mono?_eq_none.2 hNotMono) ihBody
  | case4 s taken t hNotAll =>
    cases t with
    | mono m => trivial
    | bottom => trivial
    | all x k b t => exact absurd rfl (hNotAll x k b t)

@[simp] theorem subst_empty (t : Polytype) : t.subst ∅ = t := by
  have hEmpty (x : String) : (∅ : Subst).erase x = ∅ := rfl
  induction t with
  | mono m => rw [subst, Monotype.subst_empty]
  | bottom => rfl
  | all x k b t ihb iht =>
    have hNone : (∅ : Subst).mentioning x = [] := rfl
    simp [subst, hEmpty, hNone, ihb, iht]

theorem IsNormal.normalizeWith_eq (h : t.IsNormal) (taken : NameSet) :
    t.normalizeWith ∅ taken = t := by
  have hEmpty (x : String) : (∅ : Subst).erase x = ∅ := rfl
  induction t generalizing taken with
  | mono m => rw [normalizeWith, subst_empty]; simp
  | bottom => rw [normalizeWith, subst_empty]; simp
  | all x k b t ihb iht =>
    obtain ⟨hBound, hNotMono, hUsed, hNotVar, hBody⟩ := h
    have hNone : (∅ : Subst).mentioning x = [] := rfl
    rw [normalizeWith, subst_empty, ihb hBound]
    split
    · simp [mono?] at hNotMono
    · simp only [hEmpty, hNone, iht hBody]
      -- the quantifier is used and its body is not its variable, so it is kept
      rcases close_cases ⟨x, ⟨k, b⟩⟩ t with ⟨hUnused, -⟩ | ⟨hVar, -⟩ | ⟨-, -, hEq⟩
      · exact absurd hUsed hUnused
      · exact absurd hVar hNotVar
      · simpa using hEq

/-! ## Chains -/

/-- No quantifier is at the top of the type: it is a monotype or bottom. That is what a chain of
quantifiers ends with. -/
def Unquantified (t : Polytype) : Prop := ∀ x k b u, t ≠ all x k b u

theorem Unquantified.isNormal (h : t.Unquantified) : t.IsNormal := by
  cases t with
  | mono m => trivial
  | bottom => trivial
  | all x k b t => exact absurd rfl (h x k b t)

theorem unquantified_split (t : Polytype) : t.split.2.Unquantified := by
  induction t with
  | mono m => intro x k b u h; cases h
  | bottom => intro x k b u h; cases h
  | all x k b t _ ih => exact ih

theorem chain_append (bs cs : List Binding) (t : Polytype) :
    chain (bs ++ cs) t = chain bs (chain cs t) :=
  List.foldr_append

/-- The number of quantifiers that a list of bindings puts in front of a type, those in bounds
included. -/
def weight (bs : List Binding) : Nat := (bs.map fun b => b.bound.type.quantifiers + 1).sum

@[simp] theorem weight_nil : weight [] = 0 := rfl

@[simp] theorem weight_cons (b : Binding) (bs : List Binding) :
    weight (b :: bs) = b.bound.type.quantifiers + 1 + weight bs := by
  simp [weight]

@[simp] theorem weight_append (bs cs : List Binding) :
    weight (bs ++ cs) = weight bs + weight cs := by
  simp [weight]

theorem quantifiers_chain (bs : List Binding) (t : Polytype) :
    (chain bs t).quantifiers = weight bs + t.quantifiers := by
  induction bs with
  | nil => simp
  | cons b bs ih =>
    rw [chain_cons, quantifiers, ih, weight_cons]
    omega

/-- Bounds in a chain have fewer quantifiers than the chain. -/
theorem quantifiers_lt_weight (h : b ∈ bs) : b.bound.type.quantifiers < weight bs := by
  induction bs with
  | nil => cases h
  | cons c bs ih =>
    rw [weight_cons]
    rcases List.mem_cons.1 h with rfl | h
    · omega
    · have := ih h
      omega

theorem Unquantified.normalizeWith_eq (h : t.Unquantified) (s : Subst) (taken : NameSet) :
    t.normalizeWith s taken = t.subst s := by
  cases t with
  | mono m => rw [normalizeWith]; simp
  | bottom => rw [normalizeWith]; simp
  | all x k b t => exact absurd rfl (h x k b t)

theorem chainNames_eq (h : body.Unquantified) : chainNames bs body = (chain bs body).topNames := by
  induction bs with
  | nil =>
    cases body with
    | mono m => rfl
    | bottom => rfl
    | all x k b t => exact absurd rfl (h x k b t)
  | cons b bs ih =>
    rw [chain_cons, topNames, ← ih]
    rfl

/-- What stands at the end of a chain in normal form is a normal form. -/
theorem IsNormal.of_chain (h : (chain bs t).IsNormal) : t.IsNormal := by
  induction bs with
  | nil => exact h
  | cons b bs ih =>
    obtain ⟨-, -, -, -, hRest⟩ := h
    exact ih hRest

theorem IsNormal.of_mem (h : (chain bs t).IsNormal) (hb : b ∈ bs) :
    b.bound.type.IsNormal ∧ b.bound.type.mono? = none := by
  obtain ⟨outer, inner, rfl⟩ := List.append_of_mem hb
  rw [chain_append] at h
  obtain ⟨hBound, hNotMono, -⟩ := h.of_chain
  exact ⟨hBound, hNotMono⟩

/-! ## The second pass -/

theorem ownVariable?_eq_some {outer : List Binding} :
    ownVariable? bs t = some (outer, b) ↔ bs = outer ++ [b] ∧ t = mono (.var b.name) := by
  rw [ownVariable?, Option.bind_eq_some_iff]
  constructor
  · rintro ⟨c, hLast, hOwn⟩
    obtain ⟨cs, rfl⟩ := List.getLast?_eq_some_iff.1 hLast
    split_ifs at hOwn with hVar
    simp only [List.dropLast_concat, Option.some.injEq, Prod.mk.injEq] at hOwn
    obtain ⟨rfl, rfl⟩ := hOwn
    exact ⟨rfl, hVar⟩
  · rintro ⟨rfl, rfl⟩
    exact ⟨b, by simp, by simp⟩

theorem ownVariable?_eq_none :
    ownVariable? bs t = none ↔ ∀ outer b, bs = outer ++ [b] → t ≠ mono (.var b.name) := by
  rw [Option.eq_none_iff_forall_ne_some]
  constructor
  · intro h outer b hLast hVar
    exact h (outer, b) (ownVariable?_eq_some.2 ⟨hLast, hVar⟩)
  · rintro h ⟨outer, b⟩ hOwn
    obtain ⟨hLast, hVar⟩ := ownVariable?_eq_some.1 hOwn
    exact h outer b hLast hVar

theorem dropUnused_sublist (needed : NameSet) (bs : List Binding) :
    List.Sublist (dropUnused needed bs).1 bs := by
  induction bs with
  | nil => exact .slnil
  | cons b bs ih =>
    simp only [dropUnused]
    split
    · exact ih.cons_cons b
    · exact ih.cons b

theorem weight_le_of_sublist {cs : List Binding} (h : List.Sublist bs cs) :
    weight bs ≤ weight cs := by
  induction h with
  | slnil => exact le_rfl
  | cons b _ ih => rw [weight_cons]; omega
  | cons_cons b _ ih => rw [weight_cons, weight_cons]; omega

theorem chain_eq_mono {m : Monotype} (h : chain bs t = mono m) : bs = [] ∧ t = mono m := by
  cases bs with
  | nil => exact ⟨rfl, h⟩
  | cons b bs => cases h

/-- The second pass closes the type over the bindings, from the innermost one outwards. Where the
type is the variable of the innermost binding that is used, closing puts its bound there, and the
pass leaves that to be done. -/
theorem foldr_close {next : Polytype} {kept : List Binding}
    (hNotMono : ∀ b ∈ kept, b.bound.type.mono? = none) :
    (∀ x, x ∈ (dropUnused next.freeVars kept).2 ↔ x ∈ (kept.foldr close next).freeVars) ∧
    ((ownVariable? (dropUnused next.freeVars kept).1 next = none ∧
        kept.foldr close next = chain (dropUnused next.freeVars kept).1 next) ∨
      ∃ outer last, ownVariable? (dropUnused next.freeVars kept).1 next = some (outer, last) ∧
        last.bound.type.mono? = none ∧ kept.foldr close next = chain outer last.bound.type) := by
  induction kept with
  | nil => exact ⟨fun x => Iff.rfl, Or.inl ⟨rfl, rfl⟩⟩
  | cons b kept ih =>
    rw [List.forall_mem_cons] at hNotMono
    obtain ⟨hNeeded, hRest⟩ := ih hNotMono.2
    simp only [dropUnused, List.foldr_cons]
    generalize hDrop : dropUnused next.freeVars kept = dropped at hNeeded hRest ⊢
    obtain ⟨used, needed⟩ := dropped
    generalize kept.foldr close next = t at hNeeded hRest ⊢
    dsimp only at hNeeded hRest ⊢
    rcases close_cases b t with ⟨hUnused, hEq⟩ | ⟨hVar, hEq⟩ | ⟨hUsed, hNotVar, hEq⟩
    · -- not used: both leave the binding out
      rw [if_neg (mt (hNeeded b.name).1 hUnused), hEq]
      exact ⟨hNeeded, hRest⟩
    · -- nothing is left of the type but the variable, so there is nothing else to quantify
      have hMem : b.name ∈ needed := (hNeeded _).2 (by simp [hVar, freeVars, Monotype.freeVars])
      rw [if_pos hMem, hEq]
      refine ⟨fun x => ?_, Or.inr ⟨[], b, ?_, hNotMono.1, rfl⟩⟩
      · have hOnly : x ∈ needed → x = b.name := fun hx => by
          simpa [hVar, freeVars, Monotype.freeVars] using (hNeeded x).1 hx
        simp only [NameSet.mem_union, NameSet.mem_erase]
        exact ⟨fun h => h.elim (fun hx => absurd (hOnly hx.2) hx.1) id, Or.inr⟩
      · rw [hVar] at hRest
        rcases hRest with ⟨-, hChain⟩ | ⟨outer, last, -, hLast, hChain⟩
        · obtain ⟨rfl, rfl⟩ := chain_eq_mono hChain.symm
          simp [ownVariable?]
        · obtain ⟨-, hMono⟩ := chain_eq_mono hChain.symm
          simp [hMono, mono?] at hLast
    · -- used by more than a variable: both keep the binding, and the test concerns the others
      rw [if_pos ((hNeeded _).2 hUsed), hEq]
      refine ⟨fun x => ?_, ?_⟩
      · simp only [NameSet.mem_union, NameSet.mem_erase, freeVars, hNeeded]
        exact or_comm
      · rcases hRest with ⟨hOwn, rfl⟩ | ⟨outer, last, hOwn, hLast, rfl⟩
        · refine Or.inl ⟨ownVariable?_eq_none.2 fun outer c hSplit hVar => ?_, rfl⟩
          rcases List.cons_eq_append_iff.1 hSplit with ⟨rfl, hHead⟩ | ⟨outer', rfl, hTail⟩
          · obtain ⟨rfl, rfl⟩ := List.cons.inj hHead
            exact hNotVar hVar
          · exact ownVariable?_eq_none.1 hOwn outer' c hTail hVar
        · obtain ⟨rfl, hVar⟩ := ownVariable?_eq_some.1 hOwn
          exact Or.inr ⟨b :: outer, last, ownVariable?_eq_some.2 ⟨rfl, hVar⟩, hLast, rfl⟩

/-- The bindings of a normal form are all used. -/
theorem IsNormal.dropUnused_eq (h : (chain bs body).IsNormal) :
    (dropUnused body.freeVars bs).1 = bs ∧
      ∀ x, x ∈ (dropUnused body.freeVars bs).2 ↔ x ∈ (chain bs body).freeVars := by
  induction bs with
  | nil => exact ⟨rfl, fun x => Iff.rfl⟩
  | cons b bs ih =>
    obtain ⟨-, -, hUsed, -, hRest⟩ := h
    obtain ⟨hEq, hNeeded⟩ := ih hRest
    simp only [dropUnused]
    rw [if_pos ((hNeeded _).2 hUsed)]
    refine ⟨congrArg _ hEq, fun x => ?_⟩
    simp only [chain_cons, freeVars, NameSet.mem_union, NameSet.mem_erase, hNeeded]
    exact or_comm

theorem IsNormal.ownVariable?_eq_none (h : (chain bs body).IsNormal) :
    ownVariable? bs body = none := by
  refine Polytype.ownVariable?_eq_none.2 fun outer b hLast hVar => ?_
  rw [hLast, chain_append] at h
  obtain ⟨-, -, -, hNotVar, -⟩ := h.of_chain
  exact hNotVar hVar

/-! ## The first pass -/

section Inline

variable {normalize : Polytype → Polytype} {s : Subst} {taken : NameSet}

/-- The first pass replaces a variable whose bound is a monotype. -/
theorem inlineBounds_of_mono {m : Monotype} (h : normalize (b.bound.type.subst s) = mono m)
    (bs : List Binding) :
    inlineBounds normalize s taken (b :: bs) =
      { inlineBounds normalize (s.insert b.name m) taken bs with changed := true } := by
  rw [inlineBounds, h]

/-- The first pass keeps a binding whose bound is no monotype, under a new name if a replacement
mentions its own. -/
theorem inlineBounds_of_ne (h : ∀ m, normalize (b.bound.type.subst s) ≠ mono m)
    (bs : List Binding) :
    inlineBounds normalize s taken (b :: bs) =
      if ((Subst.mentioning (s.erase b.name) b.name).any fun z => decide (z ∈ taken)) = true then
        (inlineBounds normalize
            (NameMap.insert (s.erase b.name) b.name (.var (freshName b.name taken.toList)))
            (taken.insert (freshName b.name taken.toList)) bs).keep
          ⟨freshName b.name taken.toList, ⟨b.bound.kind, normalize (b.bound.type.subst s)⟩⟩ true
      else
        (inlineBounds normalize (s.erase b.name) taken bs).keep
          ⟨b.name, ⟨b.bound.kind, normalize (b.bound.type.subst s)⟩⟩
          (decide (normalize (b.bound.type.subst s) ≠ b.bound.type)) := by
  rw [inlineBounds]
  split
  · exact absurd ‹_› (h _)
  · rfl

/-- Without replacements nothing is renamed. -/
theorem inlineBounds_empty_of_ne (h : ∀ m, normalize b.bound.type ≠ mono m) (bs : List Binding) :
    inlineBounds normalize ∅ taken (b :: bs) =
      (inlineBounds normalize ∅ taken bs).keep ⟨b.name, ⟨b.bound.kind, normalize b.bound.type⟩⟩
        (decide (normalize b.bound.type ≠ b.bound.type)) := by
  have hErase : (∅ : Subst).erase b.name = ∅ := rfl
  have hNone : (∅ : Subst).mentioning b.name = [] := rfl
  rw [inlineBounds_of_ne (by rwa [subst_empty]), subst_empty, hErase, hNone]
  rfl

/-- A first pass that notes no change has made none. -/
theorem inlineBounds_of_unchanged (h : (inlineBounds normalize ∅ taken bs).changed = false) :
    inlineBounds normalize ∅ taken bs = ⟨bs, ∅, false⟩ := by
  induction bs with
  | nil => rfl
  | cons b bs ih =>
    by_cases hMono : ∃ m, normalize b.bound.type = mono m
    · obtain ⟨m, hm⟩ := hMono
      -- a replacement would have been noted
      rw [inlineBounds_of_mono (by rwa [subst_empty])] at h
      cases h
    · rw [inlineBounds_empty_of_ne (not_exists.1 hMono)] at h ⊢
      simp only [Inlined.keep, Bool.or_eq_false_iff, decide_eq_false_iff_not, not_not] at h
      obtain ⟨hSame, hRest⟩ := h
      rw [ih hRest, hSame]
      simp [Inlined.keep]

/-- The first pass has nothing to do where the bounds are normal forms and no monotypes. -/
theorem inlineBounds_of_fixed
    (h : ∀ b ∈ bs, normalize b.bound.type = b.bound.type ∧ b.bound.type.mono? = none) :
    inlineBounds normalize ∅ taken bs = ⟨bs, ∅, false⟩ := by
  induction bs with
  | nil => rfl
  | cons b bs ih =>
    rw [List.forall_mem_cons] at h
    obtain ⟨⟨hFixed, hNotMono⟩, hRest⟩ := h
    rw [inlineBounds_empty_of_ne (by rw [hFixed]; exact mono?_eq_none.1 hNotMono), ih hRest, hFixed]
    simp [Inlined.keep]

/-- The way inwards is the same for the passes and the recursion: what the recursion closes over on
its way back are the bindings that the first pass keeps, and what it has then is the body after the
replacements. -/
theorem normalizeWith_chain
    (hNormalize : ∀ u : Polytype, u.quantifiers ≤ n → normalize u = u.normalizeWith ∅ u.topNames)
    (hBody : body.Unquantified) (hn : (chain bs body).quantifiers ≤ n + 1) :
    (chain bs body).normalizeWith s taken =
      (inlineBounds normalize s taken bs).kept.foldr close
        (body.subst (inlineBounds normalize s taken bs).subst) ∧
    (∀ b ∈ (inlineBounds normalize s taken bs).kept, b.bound.type.mono? = none) ∧
    weight (inlineBounds normalize s taken bs).kept ≤ weight bs := by
  induction bs generalizing s taken with
  | nil => exact ⟨hBody.normalizeWith_eq s taken, by simp [inlineBounds], le_rfl⟩
  | cons b bs ih =>
    rw [chain_cons, quantifiers] at hn
    have hBound := hNormalize (b.bound.type.subst s) (by rw [quantifiers_subst]; omega)
    have hLess : (normalize (b.bound.type.subst s)).quantifiers ≤ b.bound.type.quantifiers := by
      rw [hBound, ← quantifiers_subst b.bound.type s]
      exact quantifiers_normalizeWith_le _ _ _
    by_cases hMono : ∃ m, normalize (b.bound.type.subst s) = mono m
    · -- the variable is replaced, and both go on with the same replacements
      obtain ⟨m, hm⟩ := hMono
      rw [chain_cons, inlineBounds_of_mono hm, normalizeWith, ← hBound, hm]
      obtain ⟨hEq, hNotMono, hWeight⟩ := @ih (s.insert b.name m) taken (by omega)
      refine ⟨hEq, hNotMono, hWeight.trans ?_⟩
      rw [weight_cons]
      omega
    · have hNot := not_exists.1 hMono
      -- with the old name or with a new one, the binding goes in front of the rest
      have hFront (y : String) (s' : Subst) (taken' : NameSet) (changed : Bool) (r : Inlined)
          (hr : r = (inlineBounds normalize s' taken' bs).keep
            ⟨y, ⟨b.bound.kind, normalize (b.bound.type.subst s)⟩⟩ changed) :
          close ⟨y, ⟨b.bound.kind, normalize (b.bound.type.subst s)⟩⟩
              ((chain bs body).normalizeWith s' taken') =
            r.kept.foldr close (body.subst r.subst) ∧
          (∀ c ∈ r.kept, c.bound.type.mono? = none) ∧ weight r.kept ≤ weight (b :: bs) := by
        obtain ⟨hEq, hNotMono, hWeight⟩ := @ih s' taken' (by omega)
        simp only [hr, Inlined.keep, List.foldr_cons, List.forall_mem_cons, weight_cons, ← hEq]
        exact ⟨trivial, ⟨mono?_eq_none.2 hNot, hNotMono⟩, by omega⟩
      rw [chain_cons, inlineBounds_of_ne hNot, normalizeWith_all (by rwa [← hBound]), ← hBound]
      split
      · exact hFront _ _ _ _ _ rfl
      · exact hFront _ _ _ _ _ rfl

end Inline

/-! ## Both passes -/

/-- What the passes make of a chain, in terms of what they keep, replace and use. -/
theorem normalizeChain_succ (n : Nat) (bs : List Binding) (body : Polytype) :
    ∃ inlined next used,
      inlined = inlineBounds (normalizeBy (normalizeChain n)) ∅ (chainNames bs body) bs ∧
      next = body.subst inlined.subst ∧ used = (dropUnused next.freeVars inlined.kept).1 ∧
      ((∃ outer last, ownVariable? used next = some (outer, last) ∧
          (normalizeChain (n + 1) bs body).changed = true ∧
          (normalizeChain (n + 1) bs body).type =
            (normalizeChain n (outer ++ last.bound.type.split.1) last.bound.type.split.2).type) ∨
        (ownVariable? used next = none ∧
          (normalizeChain (n + 1) bs body).type = chain used next ∧
          ((normalizeChain (n + 1) bs body).changed = false ↔
            inlined.changed = false ∧ next = body ∧ used = inlined.kept))) := by
  refine ⟨_, _, _, rfl, rfl, rfl, ?_⟩
  rw [normalizeChain]
  generalize hInlined : inlineBounds (normalizeBy (normalizeChain n)) ∅ (chainNames bs body) bs =
    inlined
  dsimp only
  generalize hNext : body.subst inlined.subst = next
  generalize hUsed : (dropUnused next.freeVars inlined.kept).1 = used
  have hSublist : List.Sublist used inlined.kept := hUsed ▸ dropUnused_sublist _ _
  rw [finish]
  cases hOwn : ownVariable? used next with
  | some own =>
    obtain ⟨outer, last⟩ := own
    exact Or.inl ⟨outer, last, rfl, rfl, rfl⟩
  | none =>
    right
    dsimp only
    split
    · rename_i hChanged
      refine ⟨rfl, rfl, fun h => (Bool.noConfusion h), ?_⟩
      -- nothing was noted, so one of the three would have to differ
      rintro ⟨hKept, rfl, rfl⟩
      simp [hKept] at hChanged
    · rename_i hChanged
      simp only [Bool.or_eq_true, decide_eq_true_eq, not_or, not_not, Bool.not_eq_true,
        not_lt] at hChanged
      obtain ⟨⟨hKept, hSame⟩, hLength⟩ := hChanged
      have hAll : used = inlined.kept := hSublist.eq_of_length_le hLength
      -- the first pass has changed nothing either, so these are the bindings of the chain
      rw [← hInlined] at hKept
      have hBindings : inlined.kept = bs := by rw [← hInlined, inlineBounds_of_unchanged hKept]
      rw [hInlined] at hKept
      exact ⟨rfl, by rw [hAll, hBindings, hSame], fun _ => ⟨hKept, hSame, hAll⟩, fun _ => rfl⟩

/-- Where no change is noted, the chain is handed back as it is. -/
theorem type_of_unchanged (h : (normalizeChain n bs body).changed = false) :
    (normalizeChain n bs body).type = chain bs body := by
  cases n with
  | zero => rfl
  | succ n =>
    obtain ⟨inlined, next, used, hInlined, -, -, hCases⟩ := normalizeChain_succ n bs body
    -- starting over is a change, so no pass has done anything
    rcases hCases with ⟨-, -, -, hChanged, -⟩ | ⟨-, hType, hChanged⟩
    · simp [h] at hChanged
    · obtain ⟨hKept, hNext, hUsed⟩ := hChanged.1 h
      rw [hInlined] at hKept
      rw [hType, hUsed, hNext, hInlined, inlineBounds_of_unchanged hKept]

/-- Normal forms of types by way of chains, where the passes find them. -/
theorem normalizeBy_normalizeChain {u : Polytype}
    (h : (normalizeChain n u.split.1 u.split.2).type = u.normalizeWith ∅ u.topNames) :
    normalizeBy (normalizeChain n) u = u.normalizeWith ∅ u.topNames := by
  have hSelf (hBody : u.Unquantified) : u = u.normalizeWith ∅ u.topNames := by
    rw [hBody.normalizeWith_eq, subst_empty]
  cases u with
  | mono m => exact hSelf (unquantified_split (mono m))
  | bottom => exact hSelf (unquantified_split bottom)
  | all x k b t =>
    simp only [normalizeBy]
    split
    · exact h
    · -- no pass has changed anything, so the chain is the type
      rename_i hChanged
      rw [← h, type_of_unchanged (Bool.not_eq_true _ ▸ hChanged), chain_split]

/-- The passes find the normal form of a chain, if they may go as deep as it has quantifiers. -/
theorem normalizeChain_type (hBody : body.Unquantified) (hn : (chain bs body).quantifiers ≤ n) :
    (normalizeChain n bs body).type = (chain bs body).normalizeWith ∅ (chain bs body).topNames := by
  induction n generalizing bs body with
  | zero =>
    -- without quantifiers there is only the body
    obtain rfl : bs = [] := by
      cases bs with
      | nil => rfl
      | cons b bs => simp [quantifiers] at hn
    rw [chain_nil, hBody.normalizeWith_eq, subst_empty]
    rfl
  | succ n ih =>
    -- the passes may go into bounds with what is left of the depth
    have hNormalize (u : Polytype) (hu : u.quantifiers ≤ n) :
        normalizeBy (normalizeChain n) u = u.normalizeWith ∅ u.topNames := by
      refine normalizeBy_normalizeChain ?_
      rw [ih u.unquantified_split (by rwa [chain_split]), chain_split]
    obtain ⟨inlined, next, used, hInlined, hNext, hUsed, hCases⟩ := normalizeChain_succ n bs body
    obtain ⟨hEq, hNotMono, hWeight⟩ := normalizeWith_chain (s := ∅) hNormalize hBody hn
    rw [← chainNames_eq hBody, hEq, ← hInlined, ← hNext]
    rw [← hInlined] at hNotMono hWeight
    obtain ⟨-, hClose⟩ := foldr_close hNotMono
    rw [← hUsed] at hClose
    rcases hClose with ⟨hOwn, hClosed⟩ | ⟨outer, last, hOwn, -, hClosed⟩
    · -- the body is no variable of the chain, and the passes are done
      rcases hCases with ⟨outer, last, hOwn', -⟩ | ⟨-, hType, -⟩
      · simp [hOwn] at hOwn'
      · rw [hType, hClosed]
    · rcases hCases with ⟨outer', last', hOwn', -, hType⟩ | ⟨hOwn', -⟩
      · obtain ⟨rfl, rfl⟩ : outer = outer' ∧ last = last' := by simpa [hOwn] using hOwn'
        -- what the passes start over with is a normal form with fewer quantifiers
        have hAgain : chain (outer ++ last.bound.type.split.1) last.bound.type.split.2 =
            inlined.kept.foldr close next := by rw [chain_append, chain_split, hClosed]
        have hFewer : (inlined.kept.foldr close next).quantifiers ≤ n := by
          have hDropped := weight_le_of_sublist (hUsed ▸ dropUnused_sublist next.freeVars _)
          rw [(ownVariable?_eq_some.1 hOwn).1, weight_append, weight_cons, weight_nil] at hDropped
          rw [quantifiers_chain] at hn
          rw [hClosed, quantifiers_chain]
          omega
        have hNormal : (inlined.kept.foldr close next).IsNormal := by
          rw [hInlined, hNext, hInlined, ← hEq]
          exact isNormal_normalizeWith _ _ _
        rw [hType, ih (unquantified_split _) (by rwa [hAgain]), hAgain, hNormal.normalizeWith_eq]
      · simp [hOwn] at hOwn'

/-- The passes note a change exactly if the chain is no normal form. -/
theorem normalizeChain_changed (hBody : body.Unquantified) (hn : (chain bs body).quantifiers ≤ n) :
    (normalizeChain n bs body).changed = false ↔ (chain bs body).IsNormal := by
  constructor
  · intro h
    rw [← type_of_unchanged h, normalizeChain_type hBody hn]
    exact isNormal_normalizeWith _ _ _
  · intro h
    cases n with
    | zero => rfl
    | succ n =>
      obtain ⟨inlined, next, used, hInlined, hNext, hUsed, hCases⟩ := normalizeChain_succ n bs body
      -- the bounds are their own normal forms, so the first pass has nothing to do
      have hBounds (b : Binding) (hb : b ∈ bs) :
          normalizeBy (normalizeChain n) b.bound.type = b.bound.type ∧
            b.bound.type.mono? = none := by
        obtain ⟨hBound, hNotMono⟩ := h.of_mem hb
        have hLess : b.bound.type.quantifiers ≤ n := by
          have := quantifiers_lt_weight hb
          rw [quantifiers_chain] at hn
          omega
        refine ⟨?_, hNotMono⟩
        rw [normalizeBy_normalizeChain, hBound.normalizeWith_eq]
        rw [normalizeChain_type (unquantified_split _) (by rwa [chain_split]), chain_split]
      rw [inlineBounds_of_fixed hBounds] at hInlined
      obtain rfl : next = body := by rw [hNext, hInlined, subst_empty]
      obtain rfl : used = bs := by rw [hUsed, hInlined, h.dropUnused_eq.1]
      rcases hCases with ⟨outer, last, hOwn, -⟩ | ⟨-, -, hChanged⟩
      · simp [h.ownVariable?_eq_none] at hOwn
      · exact hChanged.2 ⟨by rw [hInlined], rfl, by rw [hInlined]⟩

/-! ## Types -/

/-- The normal form of a type is what the recursion gives. -/
theorem normal_eq_normalizeWith (t : Polytype) : t.normal = t.normalizeWith ∅ t.topNames := by
  refine normalizeBy_normalizeChain ?_
  rw [normalizeChain_type t.unquantified_split (by rw [chain_split]), chain_split]

/-- The passes need no more than the quantifiers of the chain to go by. -/
theorem normalizeChain_of_le (hBody : body.Unquantified) (hn : (chain bs body).quantifiers ≤ n) :
    normalizeChain n bs body = normalizeChain (chain bs body).quantifiers bs body := by
  have hChanged : (normalizeChain n bs body).changed =
      (normalizeChain (chain bs body).quantifiers bs body).changed := by
    rw [Bool.eq_iff_iff, ← not_iff_not, Bool.not_eq_true, Bool.not_eq_true,
      normalizeChain_changed hBody hn, normalizeChain_changed hBody le_rfl]
  have hType := normalizeChain_type hBody hn
  rw [← normalizeChain_type hBody le_rfl] at hType
  cases h : normalizeChain n bs body
  cases h' : normalizeChain (chain bs body).quantifiers bs body
  simp_all

/-- Quantification over bindings is the normal form of their chain. -/
theorem quantifyAll_cons (b : Binding) (bs : List Binding) (t : Polytype) :
    quantifyAll (b :: bs) t = normal (chain (b :: bs) t) := by
  have hChain : chain (b :: bs) t = chain (b :: bs ++ t.split.1) t.split.2 := by
    rw [chain_append, chain_split]
  show (normalizeChain (chain (b :: bs) t).quantifiers (b :: bs ++ t.split.1) t.split.2).type = _
  rw [normalizeChain_type t.unquantified_split (by rw [hChain]), ← hChain, normal_eq_normalizeWith]

end Polytype

end Mlf
