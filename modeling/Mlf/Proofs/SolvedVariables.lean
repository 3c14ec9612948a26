import Mathlib
import Mlf.Proofs.Resolution

/-!
# Replacing solved variables one at a time

Resolving a type substitutes once, for all its solved variables at the same time, what they stand for
in the end. The plain way is to take one variable at a time: as long as a solved variable is free in
the type, its solution is put in its place. A solution may bring in solved variables, or again one that
was replaced before.

Where solutions do not lead in a circle this comes to an end, whatever variable is taken first. Each
step trades a name for names further down the solutions, so the free names go down in the multiset
order. All ends are the resolved type, up to the names of its quantifiers: a reading that sees through
solutions does not notice a step.

Main results:

* `Untangled.wellFounded_replaces` — replacing one variable at a time comes to an end;
* `Expands.shape_resolved` — every end is the resolved type, up to the names of its quantifiers;
* `resolve_replaces_solved` — what resolving a type does, on every prefix.
-/

namespace Mlf

open Relation

/-- The free names when one name is replaced. -/
theorem Polytype.mem_freeVars_subst_single {t : Polytype} {x y : String} {m : Monotype}
    (hx : x ∈ t.freeVars) :
    y ∈ (t.subst (NameMap.insert ∅ x m)).freeVars ↔ y ∈ t.freeVars ∧ y ≠ x ∨ y ∈ m.freeVars := by
  rw [mem_freeVars_subst]
  constructor
  · intro h
    obtain ⟨z, hz, hy⟩ := h
    rw [Subst.image_insert] at hy
    split_ifs at hy with hzx
    · exact Or.inr hy
    · obtain rfl : y = z := by simpa [Subst.image, Monotype.freeVars] using hy
      exact Or.inl ⟨hz, hzx⟩
  · rintro (⟨hy, hyx⟩ | hy)
    · exact ⟨y, hy, by simp [hyx, Subst.image, Monotype.freeVars]⟩
    · exact ⟨x, hx, by simpa [Subst.image_insert] using hy⟩

namespace Prefix

variable {V : Type} {p : Prefix} {t u : Polytype}

/-- No free name of a type is a solved variable. -/
def IsResolved (p : Prefix) (t : Polytype) : Prop := ∀ x ∈ t.freeVars, p.solution? x = none

/-- One solved variable that is free in a type is replaced by its solution. -/
inductive Replaces (p : Prefix) (t : Polytype) : Polytype → Prop
  | solved (x : String) (m : Monotype) (hFree : x ∈ t.freeVars)
      (hSolution : p.solution? x = some m) : p.Replaces t (t.subst (NameMap.insert ∅ x m))

theorem resolution_of_unsolved {path names : List String}
    (h : ∀ x ∈ names, p.solution? x = none) : p.resolution path names = (∅, []) := by
  induction names with
  | nil => rw [Prefix.resolution]
  | cons x rest ih =>
    obtain ⟨hx, hRest⟩ := List.forall_mem_cons.1 h
    rw [Prefix.resolution]
    split
    · exact ih hRest
    · -- no name of the list is solved
      simp_all

/-- There is nothing to do for a type without solved variables. -/
theorem IsResolved.resolve_eq (h : p.IsResolved t) : p.resolve t = (t, p) := by
  rw [resolve, resolved, resolution_of_unsolved h, Polytype.subst_empty, failAll_nil]

theorem Untangled.isResolved_resolved (h : p.Untangled) (t : Polytype) :
    p.IsResolved (p.resolved t) := by
  intro x hx
  exact (mem_freeVars_resolved h hx).1

/-! ## Steps come to an end -/

/-- A step takes a name out of the free names, and adds only names of its solution. -/
theorem Replaces.cutExpand (hp : p.Untangled) (h : p.Replaces t u) :
    CutExpand (fun y x => p.SolvedOver x y) (u.freeVars.toList : Multiset String)
      (t.freeVars.toList : Multiset String) := by
  obtain ⟨x, m, hx, hm⟩ := h
  -- what the solution brings in that was not free before
  let new := m.freeVars.toList.filter fun y => decide (y ∉ t.freeVars)
  have hApart : x ∉ m.freeVars := fun hMem => hp x (.single ⟨m, hm, hMem⟩)
  refine ⟨new, x, fun y hy => ⟨m, hm, (List.mem_filter.1 hy).1⟩, ?_⟩
  -- no name is in either list twice, so that it is enough to compare members
  have hPerm : ((t.subst (NameMap.insert ∅ x m)).freeVars.toList ++ [x]).Perm
      (t.freeVars.toList ++ new) := by
    refine (List.perm_ext_iff_of_nodup ?_ ?_).2 fun y => ?_
    · refine List.nodup_append.2 ⟨NameSet.nodup _, List.nodup_singleton x, ?_⟩
      intro y hy z hz
      obtain rfl := List.mem_singleton.1 hz
      rintro rfl
      rcases (Polytype.mem_freeVars_subst_single hx).1 hy with ⟨-, hne⟩ | hMem
      · exact hne rfl
      · exact hApart hMem
    · refine List.nodup_append.2 ⟨NameSet.nodup _, (NameSet.nodup _).filter _, ?_⟩
      intro y hy z hz
      rintro rfl
      have hNew := (List.mem_filter.1 hz).2
      simp only [decide_eq_true_eq] at hNew
      exact hNew hy
    · simp only [List.mem_append, List.mem_singleton, NameSet.mem_toList,
        Polytype.mem_freeVars_subst_single hx, new, List.mem_filter, decide_eq_true_eq]
      by_cases hyx : y = x
      · subst hyx
        simp [hx]
      · by_cases hy : y ∈ t.freeVars <;> simp [hyx, hy]
  exact Multiset.coe_eq_coe.2 hPerm

/-- Where solutions do not lead in a circle, no sequence of steps goes on forever. -/
theorem Untangled.wellFounded_replaces (hp : p.Untangled) : WellFounded fun u t => p.Replaces t u :=
  Subrelation.wf (fun h => h.cutExpand hp)
    (InvImage.wf (fun t : Polytype => (t.freeVars.toList : Multiset String))
      hp.wellFounded.cutExpand)

theorem Untangled.exists_replaced (hp : p.Untangled) (t : Polytype) :
    ∃ u, ReflTransGen p.Replaces t u ∧ p.IsResolved u := by
  induction t using hp.wellFounded_replaces.induction with
  | _ t ih =>
    by_cases hDone : p.IsResolved t
    · exact ⟨t, .refl, hDone⟩
    · -- a solved variable is left, and it is replaced next
      unfold IsResolved at hDone
      push Not at hDone
      obtain ⟨x, hx, hSolved⟩ := hDone
      obtain ⟨m, hm⟩ := Option.ne_none_iff_exists'.1 hSolved
      have hStep : p.Replaces t (t.subst (NameMap.insert ∅ x m)) := .solved x m hx hm
      obtain ⟨u, hu, hResolved⟩ := ih _ hStep
      exact ⟨u, .head hStep hu, hResolved⟩

/-! ## Where steps end -/

theorem Sees.nameless_replaces {ρ : Reading V} (hρ : p.Sees ρ) (h : p.Replaces t u) :
    u.nameless ρ = t.nameless ρ := by
  obtain ⟨x, m, -, hm⟩ := h
  rw [Polytype.nameless_subst, Subst.nameless_insert, Subst.nameless_empty, ← hρ x m hm,
    Function.update_eq_self]

theorem Sees.nameless_steps {ρ : Reading V} (hρ : p.Sees ρ) (h : ReflTransGen p.Replaces t u) :
    u.nameless ρ = t.nameless ρ := by
  induction h with
  | refl => rfl
  | tail _ hStep ih => rw [hρ.nameless_replaces hStep, ih]

/-- Steps that end at a type without solved variables end at the resolved type, up to the names of
quantifiers. -/
theorem Expands.shape_resolved {ρ : Reading String} (hρ : p.Expands .var ρ) (hp : p.Untangled)
    (hSteps : ReflTransGen p.Replaces t u) (hu : p.IsResolved u) :
    (p.resolved t).shape = u.shape := by
  have hSees : p.Sees ρ := hρ.solved
  calc (p.resolved t).shape = t.nameless ρ := hρ.nameless_resolved hp t
    _ = u.nameless ρ := (hSees.nameless_steps hSteps).symm
    _ = u.shape := Polytype.nameless_congr fun x hx => hρ.unsolved x (hu x hx)

/-- Resolving a type is the exhaustive replacement of solved variables. It never changes a variable
or a level, and it records a misuse exactly if solutions lead from a free name of the type into a
circle of solved variables. Where solutions do not lead in a circle, nothing is recorded, no solved
variable is left and resolving again changes nothing. There, replacing one solved variable at a time
comes to an end, and it ends at the resolved type up to the names of quantifiers. -/
theorem resolve_replaces_solved (p : Prefix) (t : Polytype) :
    (p.resolve t).2.entries = p.entries ∧ (p.resolve t).2.levels = p.levels ∧
    ((∃ f fs, (p.resolve t).2.failures = p.failures ++ f :: fs) ↔
      ∃ x ∈ t.freeVars, ∃ y, ReflTransGen p.SolvedOver x y ∧ TransGen p.SolvedOver y y) ∧
    (p.Untangled →
      (p.resolve t).2 = p ∧ p.IsResolved (p.resolve t).1 ∧
      p.resolve (p.resolve t).1 = p.resolve t ∧
      WellFounded (fun u t => p.Replaces t u) ∧
      (∃ u, ReflTransGen p.Replaces t u ∧ p.IsResolved u) ∧
      ∀ u, ReflTransGen p.Replaces t u → p.IsResolved u →
        (p.resolve t).1.alphaEq [] u = true) := by
  refine ⟨entries_failAll p _, levels_failAll p _, ?_, fun hp => ?_⟩
  · -- a misuse is recorded if the search for solutions has one
    have hNil : (∃ f fs, (p.resolve t).2.failures = p.failures ++ f :: fs) ↔
        (p.resolution [] t.freeVars.toList).2 ≠ [] := by
      rw [resolve, failures_failAll, List.ne_nil_iff_exists_cons]
      simp only [List.append_cancel_left_eq]
    rw [hNil, ne_eq, resolution_failures_eq_nil]
    push Not
    simp only [tangles_nil, NameSet.mem_toList]
  · have hQuiet : p.resolve t = (p.resolved t, p) := by
      have hNone := resolution_failures_eq_nil.2
        fun x (_ : x ∈ t.freeVars.toList) => hp.not_tangles x
      rw [resolve, hNone, failAll_nil]
    -- a reading that sees through solutions: replacing one does not change it
    obtain ⟨ρ, hρ⟩ := hp.exists_expands .var
    have hResolved := hp.isResolved_resolved t
    rw [hQuiet]
    refine ⟨rfl, hResolved, hResolved.resolve_eq, hp.wellFounded_replaces, hp.exists_replaced t, ?_⟩
    intro u hSteps hu
    exact Polytype.alphaEq_iff.2 (hρ.shape_resolved hp hSteps hu)

/-- Bounds lead in a circle here, but solutions do not. The name that the solution of `a` brings in
is also the name of a quantifier of the type. -/
theorem resolve_replaces_solved_captured : ∃ (p : Prefix) (t : Polytype),
    p = (empty.enter.add "b" ⟨.flexible, .all "c" .flexible .bottom
      (.mono (.fn (.var "c") (.var "a")))⟩).add "a" ⟨.flexible, .mono (.fn (.var "b") (.var "b"))⟩ ∧
    t = .all "b" .flexible .bottom (.mono (.fn (.var "a") (.var "b"))) ∧
    ¬ p.Acyclic ∧ p.Untangled ∧ (p.resolve t).2 = p ∧ p.resolve (p.resolve t).1 = p.resolve t ∧
    (p.resolve t).1.alphaEq [] (.all "d" .flexible .bottom
      (.mono (.fn (.fn (.var "b") (.var "b")) (.var "d")))) = true := by
  let bound : Polytype := .all "c" .flexible .bottom (.mono (.fn (.var "c") (.var "a")))
  let t : Polytype := .all "b" .flexible .bottom (.mono (.fn (.var "a") (.var "b")))
  let p₁ := empty.enter.add "b" ⟨.flexible, bound⟩
  have h₁ : empty.enter.Grows p₁ "b" ⟨.flexible, bound⟩ :=
    add_grows (by decide) (by rintro ⟨e, he⟩; cases he) _
  have h₂ := add_grows (p := p₁) (by decide) (x := "a") (by rintro ⟨e, he⟩; cases he)
    ⟨.flexible, .mono (.fn (.var "b") (.var "b"))⟩
  generalize p₁.add "a" ⟨.flexible, .mono (.fn (.var "b") (.var "b"))⟩ = p at h₂
  -- what is in play: the bounds of `a` and `b`, and nothing else
  have hFind (x : String) : p.find? x =
      if x = "a" then some ⟨1, .flexible, .mono (.fn (.var "b") (.var "b"))⟩
      else if x = "b" then some ⟨1, .flexible, bound⟩ else none := by
    rw [h₂.find?, h₁.find?]
    rfl
  have hSolution (x : String) :
      p.solution? x = if x = "a" then some (.fn (.var "b") (.var "b")) else none := by
    rw [solution?, hFind]
    split_ifs <;> rfl
  -- solutions lead from `a` to `b` and end there
  have hSolvedOver {x y : String} (h : p.SolvedOver x y) : x = "a" ∧ y = "b" := by
    obtain ⟨m, hm, hy⟩ := h
    rw [hSolution] at hm
    split_ifs at hm with hx
    obtain rfl := Option.some.inj hm
    exact ⟨hx, by simpa [Monotype.freeVars] using hy⟩
  have hUntangled : p.Untangled := by
    intro x hCircle
    obtain ⟨y, hxy, -⟩ := TransGen.head'_iff.1 hCircle
    obtain ⟨z, -, hzx⟩ := TransGen.tail'_iff.1 hCircle
    have hEq := (hSolvedOver hxy).1.symm.trans (hSolvedOver hzx).2
    simp at hEq
  -- bounds lead from `b` back to `a`
  have hCircle : ¬ p.Acyclic := by
    intro hAcyclic
    have hab : p.Mentions "a" "b" := ⟨_, hFind "a", by decide⟩
    have hba : p.Mentions "b" "a" := ⟨_, hFind "b", by decide⟩
    exact hAcyclic.not_reaches hab (.single hba)
  obtain ⟨-, -, -, hResolve⟩ := resolve_replaces_solved p t
  obtain ⟨hQuiet, -, hAgain, -, -, hEnd⟩ := hResolve hUntangled
  -- one replacement is enough
  have hStep : p.Replaces t (t.subst (NameMap.insert ∅ "a" (.fn (.var "b") (.var "b")))) :=
    .solved "a" _ (by decide) (hSolution "a")
  refine ⟨p, t, rfl, rfl, hCircle, hUntangled, hQuiet, hAgain, ?_⟩
  have hResolved : p.IsResolved (t.subst (NameMap.insert ∅ "a" (.fn (.var "b") (.var "b")))) := by
    intro x hx
    rw [Polytype.mem_freeVars_subst_single (by decide)] at hx
    have hxa : x ≠ "a" := by
      rintro rfl
      simp [Monotype.freeVars] at hx
    rw [hSolution, if_neg hxa]
  have hAlpha := hEnd _ (.single hStep) hResolved
  rw [Polytype.alphaEq_iff] at hAlpha ⊢
  rw [hAlpha, Polytype.shape, Polytype.nameless_subst]
  rfl

end Prefix

end Mlf
