import Mlf.Proofs.Equivalence
import Mlf.Proofs.Instances
import Mlf.Proofs.Renaming

/-!
# The variables of an instance

An instance of a type has a new variable for each quantifier, with the bound of the quantifier over
the new variables before it. So the new variables with their bounds, put back in front of the
instance as quantifiers, make up the type again. Two instances of types that are copies of each other
have new variables that come in pairs, and renaming one of each pair to the other renames the one
instance to the other.

Main results:

* `Adds` — new variables of the current level for a chain of bindings;
* `opened_adds` — what an instance of a type adds;
* `pair_chain` — chains of quantifiers that are copies of each other, binding by binding.
-/

namespace Mlf

variable {p : Prefix} {t : Polytype} {x : String} {bs cs : List Binding}
variable {V : Type}

namespace Prefix

open Polytype

/-- The prefix `q` is `p` with the bindings as new variables of the current level. -/
structure Adds (p q : Prefix) (cs : List Binding) : Prop where
  ordered : Ordered cs
  fresh : ∀ c ∈ cs, ¬ p.Binds c.name
  level : q.level = p.level
  old : ∀ z, (∀ c ∈ cs, c.name ≠ z) → q.find? z = p.find? z
  new : ∀ c ∈ cs, q.find? c.name = some ⟨p.level, c.bound⟩

theorem Adds.refl (p : Prefix) : p.Adds p [] :=
  ⟨⟨by simp, .nil⟩, by simp, rfl, fun _ _ => rfl, by simp⟩

/-- What was in play before is not changed. -/
theorem Adds.find?_of_binds {q : Prefix} (h : p.Adds q cs) (hx : p.Binds x) :
    q.find? x = p.find? x := by
  refine h.old x fun c hc hcx => ?_
  exact h.fresh c hc (hcx ▸ hx)

theorem Adds.binds {q : Prefix} (h : p.Adds q cs) (hx : p.Binds x) : q.Binds x := by
  rwa [Binds, h.find?_of_binds hx]

/-- One new variable, and then those of the other bindings. -/
theorem Grows.adds {q s : Prefix} {b : Bound} (h : p.Grows q x b) (hCovers : p.Covers b.type)
    (hRest : q.Adds s cs) : p.Adds s (⟨x, b⟩ :: cs) := by
  have hx : q.Binds x := ⟨_, by rw [h.find?, if_pos rfl]⟩
  have hBinds {y : String} (hy : p.Binds y) : q.Binds y := by
    have hne : y ≠ x := fun hyx => h.fresh (hyx ▸ hy)
    rwa [Binds, h.find?, if_neg hne]
  have hne {c : Binding} (hc : c ∈ cs) : c.name ≠ x := fun hcx => hRest.fresh c hc (hcx ▸ hx)
  refine ⟨⟨fun c hc => ?_, List.pairwise_cons.2 ⟨fun c hc => ?_, hRest.ordered.pairwise⟩⟩,
    fun c hc => ?_, hRest.level.trans h.level, fun z hz => ?_, fun c hc => ?_⟩
  · rcases List.mem_cons.1 hc with rfl | hc
    · exact fun hSelf => h.fresh (hCovers x hSelf)
    · exact hRest.ordered.apart c hc
  · -- the bound is over what was in play before
    exact ⟨(hne hc).symm, fun hMem => hRest.fresh c hc (hBinds (hCovers _ hMem))⟩
  · rcases List.mem_cons.1 hc with rfl | hc
    · exact h.fresh
    · exact fun hb => hRest.fresh c hc (hBinds hb)
  · have hzx : z ≠ x := (hz ⟨x, b⟩ List.mem_cons_self).symm
    rw [hRest.old z fun c hc => hz c (List.mem_cons_of_mem _ hc), h.find?, if_neg hzx]
  · rcases List.mem_cons.1 hc with rfl | hc
    · rw [hRest.find?_of_binds hx, h.find?, if_pos rfl]
    · rw [hRest.new c hc, h.level]

/-- New variables for the bindings of a chain: they are those bindings with the new names, and make
up the chain again. -/
theorem instantiateWith_adds (hLevel : 1 ≤ p.level) {m : Monotype} {s : Subst}
    (hImages : ∀ x ∈ (chain bs (mono m)).freeVars, ∀ y ∈ (s.image x).freeVars, p.Binds y) :
    ∃ cs, p.Adds (p.instantiateWith s bs).2 cs ∧
      (∀ {V : Type} (r : Reading V), (chain cs (mono (m.subst (p.instantiateWith s bs).1))).nameless r =
        (chain bs (mono m)).nameless (s.nameless r)) ∧
      ∀ c ∈ cs, ∃ b ∈ bs, ∃ s', c.bound = ⟨b.bound.kind, b.bound.type.subst s'⟩ := by
  induction bs generalizing p s with
  | nil =>
    refine ⟨[], .refl p, fun r => ?_, by simp⟩
    exact congrArg Nameless.mono (Monotype.nameless_subst m s r)
  | cons b bs ih =>
    -- the bound is over variables in play, the new ones before it included
    have hCovers : p.Covers (b.bound.type.subst s) := by
      intro y hy
      obtain ⟨x, hx, hyx⟩ := mem_freeVars_subst.1 hy
      exact hImages x (by simp [freeVars, hx]) y hyx
    have hBody (z : String) (hz : z ∈ (chain bs (mono m)).freeVars) (hne : z ≠ b.name) :
        ∀ y ∈ (s.image z).freeVars, p.Binds y := hImages z (by simp [freeVars, hz, hne])
    have hGrows := newType_grows hLevel ⟨b.bound.kind, b.bound.type.subst s⟩
    simp only [instantiateWith_cons]
    generalize p.newType ⟨b.bound.kind, b.bound.type.subst s⟩ = made at hGrows
    obtain ⟨x, q⟩ := made
    obtain ⟨cs, hAdds, hReading, hBounds⟩ := ih (by rw [hGrows.level]; exact hLevel)
      (show ∀ z ∈ (chain bs (mono m)).freeVars,
        ∀ y ∈ (Subst.image (s.insert b.name (.var x)) z).freeVars, q.Binds y by
          -- the new variable is in play, and so is all that was
          intro z hz y hy
          rw [Subst.image_insert] at hy
          rw [Binds, hGrows.find?]
          split_ifs at hy with hzb
          · obtain rfl : y = x := by simpa [Monotype.freeVars] using hy
            exact ⟨_, if_pos rfl⟩
          · split_ifs with hyx
            · exact ⟨_, rfl⟩
            · exact hBody z hz hzb y hy)
    refine ⟨⟨x, ⟨b.bound.kind, b.bound.type.subst s⟩⟩ :: cs, hGrows.adds hCovers hAdds, fun r => ?_,
      fun c hc => ?_⟩
    · -- under the new variable, the rest reads as it did under the quantifier
      have hUnder :
          (chain bs (mono m)).nameless (Subst.nameless (s.insert b.name (.var x)) (r.under x)) =
          (chain bs (mono m)).nameless (Reading.under (s.nameless r) b.name) :=
        nameless_under (by simp) (fun z _ hzb => by rw [Subst.image_insert, if_neg hzb])
          (fun z hz hzb hMem => hGrows.fresh (hBody z hz hzb x hMem)) r
      rw [chain_cons, chain_cons, nameless, nameless, hReading, hUnder, nameless_subst]
    · rcases List.mem_cons.1 hc with rfl | hc
      · exact ⟨b, List.mem_cons_self, s, rfl⟩
      · obtain ⟨b', hb', hEq⟩ := hBounds c hc
        exact ⟨b', List.mem_cons_of_mem b hb', hEq⟩

/-- The new variables of an instance, put in front of it as quantifiers, make up the type again. -/
theorem instantiate_adds (hLevel : 1 ≤ p.level) {m : Monotype}
    (hCovers : p.Covers (chain bs (mono m))) :
    ∃ cs, p.Adds (p.instantiate bs m).2 cs ∧
      (chain cs (mono (p.instantiate bs m).1)).shape = (chain bs (mono m)).shape ∧
      ∀ c ∈ cs, ∃ b ∈ bs, ∃ s', c.bound = ⟨b.bound.kind, b.bound.type.subst s'⟩ := by
  obtain ⟨cs, hAdds, hReading, hBounds⟩ := instantiateWith_adds hLevel (m := m) (s := ∅)
    fun x hx y hy => by
      obtain rfl : y = x := by simpa [Monotype.freeVars] using hy
      exact hCovers y hx
  exact ⟨cs, hAdds, hReading .var, hBounds⟩

end Prefix

namespace Polytype

/-- Types that agree up to the names of quantified variables have the same readings. -/
theorem nameless_eq_of_shape_eq {u : Polytype} (h : t.shape = u.shape) (r : Reading V) :
    t.nameless r = u.nameless r := by
  have hCopies : t.Copies id u := h
  exact (hCopies.nameless r).symm

theorem mem_freeVars_of_shape_eq {u : Polytype} (h : t.shape = u.shape) :
    x ∈ t.freeVars ↔ x ∈ u.freeVars :=
  mem_freeVars_of_nameless_eq fun _ => nameless_eq_of_shape_eq h

/-- Bindings with other bounds of the same kinds and shapes. -/
theorem nameless_chain_map {f : Binding → Binding}
    (h : ∀ b ∈ bs, (f b).name = b.name ∧ (f b).bound.kind = b.bound.kind ∧
      (f b).bound.type.shape = b.bound.type.shape) (t : Polytype) (r : Reading V) :
    (chain (bs.map f) t).nameless r = (chain bs t).nameless r := by
  induction bs generalizing V with
  | nil => rfl
  | cons b bs ih =>
    obtain ⟨hName, hKind, hType⟩ := h b List.mem_cons_self
    have hRest := ih (fun c hc => h c (List.mem_cons_of_mem b hc)) (r.under b.name)
    rw [List.map_cons, chain_cons, chain_cons, nameless, nameless, hName, hKind, hRest,
      nameless_eq_of_shape_eq hType]

theorem ordered_map {f : Binding → Binding} (hOrdered : Ordered bs)
    (h : ∀ b ∈ bs, (f b).name = b.name ∧ (f b).bound.type.shape = b.bound.type.shape) :
    Ordered (bs.map f) where
  apart b' hb' := by
    obtain ⟨b, hb, rfl⟩ := List.mem_map.1 hb'
    obtain ⟨hName, hType⟩ := h b hb
    rw [hName, mem_freeVars_of_shape_eq hType]
    exact hOrdered.apart b hb
  pairwise := by
    refine List.pairwise_map.2 (hOrdered.pairwise.imp_of_mem fun {b c} hb hc hApart => ?_)
    obtain ⟨hName, hType⟩ := h b hb
    rw [hName, (h c hc).1, mem_freeVars_of_shape_eq hType]
    exact hApart

/-- The bounds of a normal form are no monotypes. -/
theorem IsNormal.mono?_of_chain (h : (chain bs t).IsNormal) :
    ∀ b ∈ bs, b.bound.type.mono? = none := by
  induction bs with
  | nil => simp
  | cons c bs ih =>
    obtain ⟨-, hNotMono, -, -, hRest⟩ := h
    simpa [hNotMono] using ih hRest

theorem quantifyAll_of_isNormal (h : (chain bs t).IsNormal) : quantifyAll bs t = chain bs t := by
  cases bs with
  | nil => rfl
  | cons b bs => rw [quantifyAll_cons, normal_eq_self.2 h]

/-- The innermost quantifier of a normal form is used in the body. -/
theorem IsNormal.exists_used {m : Monotype} (h : (chain bs (mono m)).IsNormal) (hne : bs ≠ []) :
    ∃ b ∈ bs, b.name ∈ m.freeVars := by
  induction bs with
  | nil => exact absurd rfl hne
  | cons b bs ih =>
    obtain ⟨-, -, hUsed, -, hRest⟩ := h
    cases bs with
    | nil => exact ⟨b, List.mem_cons_self, hUsed⟩
    | cons c bs =>
      obtain ⟨b', hb', hMem⟩ := ih hRest (by simp)
      exact ⟨b', List.mem_cons_of_mem b hb', hMem⟩

/-- Types with one reading are in normal form together. -/
theorem isNormal_iff_of_nameless_eq {F G : String → V} {u : Polytype}
    (h : t.nameless (fun x => .var (F x)) = u.nameless (fun x => .var (G x))) :
    t.IsNormal ↔ u.IsNormal := by
  replace h := sameReading_of_nameless_eq h
  induction h with
  | mono _ => exact Iff.rfl
  | bottom => exact Iff.rfl
  | @all V F G x y k b c t u hBound hBody ihb iht =>
    -- all that a normal form asks for can be told from the reading
    have hBody := hBody.nameless_eq
    rw [← Reading.under_var, ← Reading.under_var] at hBody
    have hMono : b.mono? = none ↔ c.mono? = none := by
      rw [← not_iff_not, ← ne_eq, ← ne_eq, ← isMono_nameless, hBound.nameless_eq, isMono_nameless]
    have hUsed : x ∈ t.freeVars ↔ y ∈ u.freeVars := by
      rw [← uses_none_nameless, hBody, uses_none_nameless]
    have hVar : t = mono (.var x) ↔ u = mono (.var y) := by
      rw [← nameless_eq_var_none, hBody, nameless_eq_var_none]
    simp only [IsNormal, ihb, hMono, hUsed, ne_eq, hVar, iht]

/-- A name that a binding mentions and that no binding is for is free in the chain. -/
theorem mem_freeVars_chain_of_bound {b : Binding} (hb : b ∈ bs) (hx : x ∈ b.bound.type.freeVars)
    (hNames : ∀ c ∈ bs, c.name ≠ x) : x ∈ (chain bs t).freeVars := by
  induction bs with
  | nil => cases hb
  | cons c bs ih =>
    have hne : x ≠ c.name := (hNames c List.mem_cons_self).symm
    rcases List.mem_cons.1 hb with rfl | hb
    · simp [freeVars, hx]
    · simp [freeVars, ih hb fun d hd => hNames d (List.mem_cons_of_mem c hd), hne]

theorem mem_freeVars_chain_of_body (hx : x ∈ t.freeVars) (hNames : ∀ c ∈ bs, c.name ≠ x) :
    x ∈ (chain bs t).freeVars := by
  induction bs with
  | nil => exact hx
  | cons c bs ih =>
    have hne : x ≠ c.name := (hNames c List.mem_cons_self).symm
    simp [freeVars, ih fun d hd => hNames d (List.mem_cons_of_mem c hd), hne]

/-- Chains of quantifiers that are copies of each other are so binding by binding, once the names of
one are taken to those of the other. -/
theorem pair_chain {σ : String → String} {ds : List Binding} {a e : Monotype}
    (hOrdered : Ordered cs) (h : (chain cs (mono e)).Copies σ (chain ds (mono a))) :
    ∃ τ : String → String, (∀ z, (∀ c ∈ cs, c.name ≠ z) → τ z = σ z) ∧
      ds.map (·.name) = cs.map (fun c => τ c.name) ∧ (∀ c ∈ cs, ∃ d ∈ ds, c.Copies τ d) ∧
      e.rename τ = a := by
  induction cs generalizing ds σ with
  | nil =>
    have hEq := copies_mono.1 h
    cases ds with
    | nil => exact ⟨σ, fun _ _ => rfl, rfl, by simp, by injection hEq.symm⟩
    | cons d ds => cases hEq
  | cons c cs ih =>
    rw [chain_cons] at h
    obtain ⟨y, b, v, hEq, hBound, hBody⟩ := copies_all h
    cases ds with
    | nil => cases hEq
    | cons d ds =>
      rw [chain_cons] at hEq
      injection hEq with hName hKind hType hRest
      subst hName hType hRest
      -- take the name of the first binding to its partner, and go on with the rest
      have hCopies : (chain cs (mono e)).Copies (Function.update σ c.name d.name)
          (chain ds (mono a)) := by
        have hFill := congrArg (Nameless.fill (.var d.name)) hBody
        rw [fill_nameless, fill_nameless, Function.update_eq_self] at hFill
        rw [Copies, shape, ← hFill]
        congr 1
        funext z
        by_cases hz : z = c.name
        · simp [hz]
        · simp [hz]
      obtain ⟨τ, hOff, hNames, hPairs, hRename⟩ := ih hOrdered.tail hCopies
      have hSelf : τ c.name = d.name := by
        rw [hOff c.name fun c' hc' => (hOrdered.head hc').1.symm, Function.update_self]
      -- the bound mentions neither its own name nor those that come later
      have hBoundCopies : c.bound.type.Copies τ d.bound.type := by
        refine (nameless_congr fun z hz => ?_).trans hBound
        have hLater : ∀ c' ∈ cs, c'.name ≠ z := by
          rintro c' hc' rfl
          exact (hOrdered.head hc').2 hz
        have hne : z ≠ c.name := by
          rintro rfl
          exact hOrdered.apart c List.mem_cons_self hz
        rw [hOff z hLater, Function.update_of_ne hne]
      refine ⟨τ, fun z hz => ?_, by simp [hNames, hSelf], fun c' hc' => ?_, hRename⟩
      · rw [hOff z fun c' hc' => hz c' (List.mem_cons_of_mem c hc'),
          Function.update_of_ne (hz c List.mem_cons_self).symm]
      · rcases List.mem_cons.1 hc' with rfl | hc'
        · exact ⟨d, List.mem_cons_self, hSelf.symm, hKind, hBoundCopies⟩
        · obtain ⟨d', hd', hCopy⟩ := hPairs c' hc'
          exact ⟨d', List.mem_cons_of_mem d hd', hCopy⟩

end Polytype

namespace Prefix

open Polytype

/-- An instance of a type, with the new variables in front as quantifiers, is the type again. -/
theorem opened_adds (hLevel : 1 ≤ p.level) (ht : t.IsNormal) (hNotBottom : t ≠ .bottom)
    (hFlexible : t.Flexible) (hCovers : p.Covers t) :
    ∃ cs, p.Adds (p.opened t).2 cs ∧ (chain cs (mono (p.opened t).1)).shape = t.shape ∧
      ∀ c ∈ cs, c.bound.kind = .flexible ∧ c.bound.type.Flexible ∧ c.bound.type.mono? = none := by
  -- a normal form other than bottom is a chain of bindings with a monotype at its end
  obtain ⟨bs, m, hSplit, hChain⟩ : ∃ bs m, t.split = (bs, mono m) ∧ t = chain bs (mono m) := by
    rcases ht.split_cases with hBottom | ⟨bs, m, hSplit, hChain, -⟩
    · exact absurd hBottom hNotBottom
    · exact ⟨bs, m, hSplit, hChain⟩
  rw [opened_of_split (by rwa [normal_eq_self.2 ht])]
  subst hChain
  obtain ⟨cs, hAdds, hShape, hBounds⟩ := instantiate_adds hLevel hCovers
  refine ⟨cs, hAdds, hShape, fun c hc => ?_⟩
  obtain ⟨b, hb, s', hEq⟩ := hBounds c hc
  obtain ⟨hKind, hType⟩ := flexible_of_chain hFlexible b hb
  rw [hEq]
  exact ⟨hKind, hType.subst s', mono?_subst_eq_none.2 (ht.mono?_of_chain b hb)⟩

end Prefix

end Mlf
