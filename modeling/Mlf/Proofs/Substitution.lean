import Mathlib
import Mlf.Proofs.Nameless

/-!
# Substitution and the names of quantified variables

Substitution hides a name under a quantifier that rebinds it, and renames a quantifier that would
capture a name of a replacement. Both are needed because quantified variables have names. Without
bound names there is nothing to hide and nothing to capture, and a simultaneous substitution is the
replacement of all free variables at once. The reading without bound names takes the one to the other,
so a substitution cannot tell types apart that differ in bound names only, nor substitutions that
replace the free names of the type alike.

Normal forms are made of the same kind of replacements, where new names are chosen by other rules. In
the reading the two do not get in each other's way: the normal form of a substituted type is the
substituted normal form.

Main results:

* `shape_subst` — substitution is the replacement of the free variables;
* `alphaEq_subst` — it respects agreement up to bound names;
* `subst_avoids_capture` — both, with the free names of the result;
* `alphaEq_normal_subst` — normal forms commute with substitution;
* `equivalent_stable` — so equivalent types stay so.
-/

namespace Mlf

/-- The reading of a replacement: names that are not replaced stay as they are. -/
theorem Subst.nameless_var (s : Subst) (x : String) :
    s.nameless .var x = (s.find? x).elim (.var x) (Monotype.nameless .var) := by
  unfold nameless image
  cases s.find? x with
  | none => rfl
  | some m => rfl

theorem Subst.mem_freeVars_image {s : Subst} {x y : String} :
    y ∈ (s.image x).freeVars ↔
      (y = x ∧ s.find? x = none) ∨ ∃ m, s.find? x = some m ∧ y ∈ m.freeVars := by
  unfold image
  cases s.find? x with
  | none => simp [Monotype.freeVars]
  | some m => simp

namespace Polytype

/-- The variables of a type read over its own names are its free names. -/
theorem uses_shape {t : Polytype} {x : String} : t.shape.Uses x ↔ x ∈ t.freeVars := by
  rw [uses_nameless]
  simp [Nameless.Mono.Uses]

/-- Without bound names, substitution replaces the free variables and does nothing else. -/
theorem shape_subst (t : Polytype) (s : Subst) :
    (t.subst s).shape = t.shape.bind (s.nameless .var) := by
  rw [shape, shape, nameless_subst, nameless_bind]
  rfl

/-- Substitutions that replace the free names of a type alike have the same effect on types that
agree with it up to bound names. -/
theorem alphaEq_subst {t u : Polytype} (h : t.alphaEq [] u = true) {s s' : Subst}
    (hSame : ∀ x ∈ t.freeVars, s'.find? x = s.find? x) :
    (t.subst s).alphaEq [] (u.subst s') = true := by
  rw [alphaEq_iff] at h ⊢
  rw [shape_subst, shape_subst, ← h]
  refine Nameless.bind_congr fun x hx => ?_
  rw [Subst.nameless_var, Subst.nameless_var, hSame x (uses_shape.1 hx)]

/-- The free names of a substituted type: those that are not replaced, and those of the replacements
of free names. -/
theorem mem_freeVars_subst_iff {t : Polytype} {s : Subst} {y : String} :
    y ∈ (t.subst s).freeVars ↔ (y ∈ t.freeVars ∧ s.find? y = none) ∨
      ∃ x m, x ∈ t.freeVars ∧ s.find? x = some m ∧ y ∈ m.freeVars := by
  simp only [mem_freeVars_subst, Subst.mem_freeVars_image]
  constructor
  · rintro ⟨x, hx, ⟨rfl, hNone⟩ | ⟨m, hm, hy⟩⟩
    · exact Or.inl ⟨hx, hNone⟩
    · exact Or.inr ⟨x, m, hx, hm, hy⟩
  · rintro (⟨hy, hNone⟩ | ⟨x, m, hx, hm, hy⟩)
    · exact ⟨y, hy, Or.inl ⟨rfl, hNone⟩⟩
    · exact ⟨x, hx, Or.inr ⟨m, hm, hy⟩⟩

/-- Substitution is simultaneous and avoids capture. Read without bound names, the substituted type
is the type with all free occurrences of replaced names filled at once. Its free names are those of
the type that are not replaced and those of the replacements that come in. Arguments that agree up
to bound names give results that do. -/
theorem subst_avoids_capture (t : Polytype) (s : Subst) :
    (t.subst s).shape =
      t.shape.bind (fun x => (s.find? x).elim (.var x) (Monotype.nameless .var)) ∧
    (∀ y, y ∈ (t.subst s).freeVars ↔ (y ∈ t.freeVars ∧ s.find? y = none) ∨
      ∃ x m, x ∈ t.freeVars ∧ s.find? x = some m ∧ y ∈ m.freeVars) ∧
    ∀ u s', t.alphaEq [] u = true → (∀ x, s'.find? x = s.find? x) →
      (t.subst s).alphaEq [] (u.subst s') = true := by
  refine ⟨?_, fun y => mem_freeVars_subst_iff, fun u s' hAlpha hSame => ?_⟩
  · rw [shape_subst, funext s.nameless_var]
  · exact alphaEq_subst hAlpha fun x _ => hSame x

/-- In `∀ (a ≥ a → b). ∀ b. (a → b) → c` the names `a`, `b`, `c` are replaced by `c`, `a` and `b →
b'1`. The bound is outside the scope of `a`, which is hidden in the body, and the quantifier over
`b` gets a name that none of the replacements has. A type with other bound names, under the same
replacements in another order, comes out the same. -/
theorem subst_avoids_capture_twice : ∃ (t u : Polytype) (s s' : Subst),
    t = .all "a" .flexible (.mono (.fn (.var "a") (.var "b")))
      (.all "b" .flexible .bottom (.mono (.fn (.fn (.var "a") (.var "b")) (.var "c")))) ∧
    u = .all "b" .flexible (.mono (.fn (.var "a") (.var "b")))
      (.all "a" .flexible .bottom (.mono (.fn (.fn (.var "b") (.var "a")) (.var "c")))) ∧
    s.toList = [("a", .var "c"), ("b", .var "a"), ("c", .fn (.var "b") (.var "b'1"))] ∧
    s'.toList = [("c", .fn (.var "b") (.var "b'1")), ("b", .var "a"), ("a", .var "c")] ∧
    t.subst s = .all "a" .flexible (.mono (.fn (.var "c") (.var "a"))) (.all "b'2" .flexible .bottom
      (.mono (.fn (.fn (.var "a") (.var "b'2")) (.fn (.var "b") (.var "b'1"))))) ∧
    u.subst s' = .all "b'2" .flexible (.mono (.fn (.var "c") (.var "a"))) (.all "a" .flexible .bottom
      (.mono (.fn (.fn (.var "b'2") (.var "a")) (.fn (.var "b") (.var "b'1"))))) ∧
    (t.subst s).alphaEq [] (u.subst s') = true := by
  obtain ⟨t, u, s, s', ht, hu, hs, hs', hSubst, hSubst', hAlpha, hSame⟩ :
      ∃ (t u : Polytype) (s s' : Subst),
      t = .all "a" .flexible (.mono (.fn (.var "a") (.var "b")))
        (.all "b" .flexible .bottom (.mono (.fn (.fn (.var "a") (.var "b")) (.var "c")))) ∧
      u = .all "b" .flexible (.mono (.fn (.var "a") (.var "b")))
        (.all "a" .flexible .bottom (.mono (.fn (.fn (.var "b") (.var "a")) (.var "c")))) ∧
      s.toList = [("a", .var "c"), ("b", .var "a"), ("c", .fn (.var "b") (.var "b'1"))] ∧
      s'.toList = [("c", .fn (.var "b") (.var "b'1")), ("b", .var "a"), ("a", .var "c")] ∧
      t.subst s = .all "a" .flexible (.mono (.fn (.var "c") (.var "a"))) (.all "b'2" .flexible .bottom
        (.mono (.fn (.fn (.var "a") (.var "b'2")) (.fn (.var "b") (.var "b'1"))))) ∧
      u.subst s' = .all "b'2" .flexible (.mono (.fn (.var "c") (.var "a"))) (.all "a" .flexible .bottom
        (.mono (.fn (.fn (.var "b'2") (.var "a")) (.fn (.var "b") (.var "b'1"))))) ∧
      t.alphaEq [] u = true ∧ ∀ x, s'.find? x = s.find? x := by
    refine ⟨_, _, ⟨[("a", .var "c"), ("b", .var "a"), ("c", .fn (.var "b") (.var "b'1"))], by decide⟩,
      ⟨[("c", .fn (.var "b") (.var "b'1")), ("b", .var "a"), ("a", .var "c")], by decide⟩,
      rfl, rfl, rfl, rfl, by cbv, by cbv, by decide, fun x => ?_⟩
    -- each name is replaced once, so the order does not matter
    simp only [NameMap.find?, NameMap.lookup_pair_cons, List.lookup_nil]
    grind
  have hLaws := subst_avoids_capture t s
  exact ⟨t, u, s, s', ht, hu, hs, hs', hSubst, hSubst', hLaws.2.2 u s' hAlpha hSame⟩

/-! ## Normal forms -/

/-- The normal form of a substituted type is the substituted normal form. -/
theorem alphaEq_normal_subst (t : Polytype) (s : Subst) :
    (t.subst s).normal.alphaEq [] (t.normal.subst s) = true := by
  rw [alphaEq_iff]
  calc (t.subst s).normal.shape = (t.subst s).shape.norm := nameless_normal _ _
    _ = (t.shape.bind (s.nameless .var)).norm := by rw [shape_subst]
    _ = t.shape.norm.bind (s.nameless .var) := Nameless.norm_bind _ _
    _ = t.normal.shape.bind (s.nameless .var) := by rw [shape, shape, nameless_normal]
    _ = (t.normal.subst s).shape := (shape_subst _ _).symm

/-- Equivalence is stable under substitution, and normal forms commute with it. What is substituted
into a normal form is in normal form already. -/
theorem equivalent_stable :
    (∀ (a b : Polytype) (s : Subst), a.equivalent b = true →
      (a.subst s).equivalent (b.subst s) = true) ∧
    ∀ (t : Polytype) (s : Subst), (t.subst s).normal.alphaEq [] (t.normal.subst s).normal = true ∧
      (t.normal.subst s).normal = t.normal.subst s := by
  refine ⟨fun a b s h => equivalent_subst h s, fun t s => ?_⟩
  have hNormal : (t.normal.subst s).normal = t.normal.subst s :=
    normal_eq_self.2 ((isNormal_normal t).subst s)
  rw [hNormal]
  exact ⟨alphaEq_normal_subst t s, rfl⟩

/-- The bound `y → y` takes the place of `x` in `∀ (x ≥ y → y). ∀ z. x → y`, which is equivalent to
`(y → y) → y`. It stays so when `x` is put in for `y` and the quantifier over `x` has to be renamed.
-/
theorem equivalent_stable_renamed : ∃ (a b : Polytype) (s : Subst),
    a = .all "x" .flexible (.mono (.fn (.var "y") (.var "y")))
      (.all "z" .flexible .bottom (.mono (.fn (.var "x") (.var "y")))) ∧
    b = .mono (.fn (.fn (.var "y") (.var "y")) (.var "y")) ∧ s.toList = [("y", .var "x")] ∧
    a.subst s = .all "x'1" .flexible (.mono (.fn (.var "x") (.var "x")))
      (.all "z" .flexible .bottom (.mono (.fn (.var "x'1") (.var "x")))) ∧
    a.equivalent b = true ∧ (a.subst s).equivalent (b.subst s) = true := by
  obtain ⟨a, b, s, ha, hb, hs, hSubst, hEquivalent⟩ : ∃ (a b : Polytype) (s : Subst),
      a = .all "x" .flexible (.mono (.fn (.var "y") (.var "y")))
        (.all "z" .flexible .bottom (.mono (.fn (.var "x") (.var "y")))) ∧
      b = .mono (.fn (.fn (.var "y") (.var "y")) (.var "y")) ∧ s.toList = [("y", .var "x")] ∧
      a.subst s = .all "x'1" .flexible (.mono (.fn (.var "x") (.var "x")))
        (.all "z" .flexible .bottom (.mono (.fn (.var "x'1") (.var "x")))) ∧
      a.equivalent b = true :=
    -- that the two are equivalent before is computed, and afterwards it follows
    ⟨_, _, ⟨[("y", .var "x")], by decide⟩, rfl, rfl, rfl, by cbv, by cbv⟩
  exact ⟨a, b, s, ha, hb, hs, hSubst, hEquivalent, equivalent_stable.1 a b s hEquivalent⟩

end Polytype

end Mlf
