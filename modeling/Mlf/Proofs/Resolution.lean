import Mlf.Proofs.Nameless
import Mlf.Proofs.Solutions

/-!
# Resolved types

Resolving a type puts in what its solved variables stand for. In the nameless reading this is a
change of the environment: a reading expands another one when it reads each solved variable as its
solution, in turn read that way, and all others as before. There is such a reading where solutions do
not lead in a circle.

The point of it is that solutions are only ever added. A reading that expands the later prefix reads
the solutions of the earlier one as they are, so what is equivalent once resolved stays equivalent.

Main results:

* `Sees.nameless_top` — where solutions are seen through, a type is read like its top;
* `Expands.nameless_resolved` — the reading of a resolved type;
* `equivalent_resolved_of_keeps` — equivalence of resolved types is kept where solutions are;
* `shape_resolved_congr` — a resolved type depends on the solutions that it leads to;
* `IsSolution.Inst_resolved` — resolving a type keeps its instances.
-/

namespace Mlf

open Relation

variable {p : Prefix} {t : Polytype}

namespace Prefix

variable {V : Type}

/-- A reading that sees through solved variables, and reads the others as `r` does. -/
structure Expands (p : Prefix) (r ρ : Reading V) : Prop where
  solved : ∀ x m, p.solution? x = some m → ρ x = m.nameless ρ
  unsolved : ∀ x, p.solution? x = none → ρ x = r x

/-- A reading of solved variables as what they stand for. -/
def Sees (p : Prefix) (ρ : Reading V) : Prop := ∀ x m, p.solution? x = some m → ρ x = m.nameless ρ

/-- Such a reading does not tell a type from what it is followed to. -/
theorem Sees.nameless_follow {ρ : Reading V} (h : p.Sees ρ) (n : Nat) (t : Monotype) :
    (p.follow n t).1.nameless ρ = t.nameless ρ := by
  fun_induction Prefix.follow p n t with
  | case1 t => rfl
  | case2 n x hNone => rfl
  | case3 n x m hSome ih =>
    rw [ih]
    exact (h x m hSome).symm
  | case4 n t hNotVar => rfl

theorem Sees.nameless_top {ρ : Reading V} (h : p.Sees ρ) (t : Monotype) :
    (p.top t).nameless ρ = t.nameless ρ :=
  h.nameless_follow _ t

/-- Where solutions do not lead in a circle, they can be seen through. -/
theorem Untangled.exists_expands (h : p.Untangled) (r : Reading V) : ∃ ρ, p.Expands r ρ := by
  classical
  -- one name, given the readings of the names that its solution mentions
  have next (x : String) (before : ∀ y, p.SolvedOver x y → Nameless.Mono V) :
      ∃ v, (∀ m, p.solution? x = some m → ∀ ρ : Reading V,
          (∀ y (hy : p.SolvedOver x y), ρ y = before y hy) → v = m.nameless ρ) ∧
        (p.solution? x = none → v = r x) := by
    cases hx : p.solution? x with
    | none => exact ⟨r x, nofun, fun _ => rfl⟩
    | some m =>
      let seen : Reading V := fun y => if hy : p.SolvedOver x y then before y hy else r y
      refine ⟨m.nameless seen, fun m' hm ρ hρ => ?_, nofun⟩
      obtain rfl := Option.some.inj hm
      refine Monotype.nameless_congr fun y hy => ?_
      have hSolved : p.SolvedOver x y := ⟨m, hx, hy⟩
      rw [hρ y hSolved]
      exact dif_pos hSolved
  choose value hSolved hUnsolved using next
  -- by recursion along the solutions
  let ρ := h.wellFounded.fix value
  have hValue (x : String) : ρ x = value x fun y _ => ρ y := h.wellFounded.fix_eq value x
  refine ⟨ρ, fun x m hm => ?_, fun x hx => ?_⟩
  · rw [hValue]
    exact hSolved x _ m hm ρ fun _ _ => rfl
  · rw [hValue]
    exact hUnsolved x _ hx

theorem Acyclic.exists_expands (h : p.Acyclic) (r : Reading V) : ∃ ρ, p.Expands r ρ :=
  h.untangled.exists_expands r

/-! ## The reading of a resolved type -/

/-- A substitution replaces the solved variables among `names`, and only solved ones, by what they
are expanded to. -/
structure ExpandsOn (p : Prefix) (r ρ : Reading V) (s : Subst) (names : List String) : Prop where
  right : ∀ x m, s.find? x = some m → p.solution? x ≠ none ∧ m.nameless r = ρ x
  found : ∀ x ∈ names, p.solution? x ≠ none → s.find? x ≠ none

theorem ExpandsOn.nameless_image {r ρ : Reading V} {s : Subst} {names : List String}
    (h : p.ExpandsOn r ρ s names) (hρ : p.Expands r ρ) {x : String} (hx : x ∈ names) :
    (s.image x).nameless r = ρ x := by
  unfold Subst.image
  cases hs : s.find? x with
  | some m => exact (h.right x m hs).2
  | none =>
    have hUnsolved : p.solution? x = none := by
      by_contra hSolved
      exact h.found x hx hSolved hs
    exact (hρ.unsolved x hUnsolved).symm

/-- The variables that are being replaced lead to the ones at hand, so no circle is met. -/
theorem Expands.resolution (hp : p.Untangled) {r ρ : Reading V} (hρ : p.Expands r ρ)
    {path names : List String} (hPath : ∀ x ∈ path, ∀ y ∈ names, TransGen p.SolvedOver x y) :
    p.ExpandsOn r ρ (p.resolution path names).1 names := by
  fun_induction Prefix.resolution p path names with
  | case1 path => exact ⟨by simp, by simp⟩
  | case2 path x rest hNone ih =>
    obtain ⟨hRight, hFound⟩ := ih fun y hy z hz => hPath y hy z (by simp [hz])
    refine ⟨hRight, fun y hy hSolved => ?_⟩
    rcases List.mem_cons.1 hy with rfl | hy
    · exact absurd hNone hSolved
    · exact hFound y hy hSolved
  | case3 path x rest m hSome hSeen s fs hRest ih =>
    exact absurd (hPath x hSeen x (by simp)) (hp x)
  | case4 path x rest m hSome hSeen inner fs hInner s gs hRest ihInner ihRest =>
    rw [hInner] at ihInner
    rw [hRest] at ihRest
    obtain ⟨hRight, hFound⟩ := ihRest fun y hy z hz => hPath y hy z (by simp [hz])
    -- the solution is resolved with the variable on the path
    have hSolution := ihInner fun y hy z hz => by
      rcases List.mem_cons.1 hy with rfl | hy
      · exact .single ⟨m, hSome, hz⟩
      · exact (hPath y hy x (by simp)).tail ⟨m, hSome, hz⟩
    -- the resolved solution is read like the variable
    have hValue : (m.subst inner).nameless r = ρ x := by
      rw [Monotype.nameless_subst, hρ.solved x m hSome]
      exact Monotype.nameless_congr fun y hy => hSolution.nameless_image hρ hy
    refine ⟨fun y n hn => ?_, fun y hy hSolved => ?_⟩
    · rw [NameMap.find?_insert] at hn
      split_ifs at hn with hyx
      · subst hyx
        rw [← Option.some.inj hn, hSome]
        exact ⟨by simp, hValue⟩
      · exact hRight y n hn
    · rw [NameMap.find?_insert]
      split_ifs with hyx
      · simp
      · exact hFound y (by simpa [hyx] using hy) hSolved

/-- The reading of a resolved type is that of the type where solved variables are seen through. -/
theorem Expands.nameless_resolved (hp : p.Untangled) {r ρ : Reading V} (hρ : p.Expands r ρ)
    (t : Polytype) : (p.resolved t).nameless r = t.nameless ρ := by
  have hOn : p.ExpandsOn r ρ (p.resolution [] t.freeVars.toList).1 t.freeVars.toList :=
    hρ.resolution hp (by simp)
  rw [Prefix.resolved, Polytype.nameless_subst]
  exact Polytype.nameless_congr fun x hx => hOn.nameless_image hρ hx

/-- What is left where solved variables are seen through is not solved, and it is reached. -/
theorem Expands.uses (hp : p.Untangled) {ρ : Reading String} (hρ : p.Expands .var ρ)
    {x y : String} (h : (ρ x).Uses y) : p.solution? y = none ∧ p.Reaches x y := by
  induction x using hp.wellFounded.induction with
  | _ x ih =>
    cases hx : p.solution? x with
    | none =>
      rw [hρ.unsolved x hx] at h
      obtain rfl : y = x := h
      exact ⟨hx, .refl⟩
    | some m =>
      rw [hρ.solved x m hx, Monotype.uses_nameless] at h
      obtain ⟨z, hz, hUses⟩ := h
      obtain ⟨hNone, hReach⟩ := ih z ⟨m, hx, hz⟩ hUses
      exact ⟨hNone, .head (mentions_of_solution? hx hz) hReach⟩

theorem mem_freeVars_resolved (hp : p.Untangled) {x : String} (h : x ∈ (p.resolved t).freeVars) :
    p.solution? x = none ∧ ∃ y ∈ t.freeVars, p.Reaches y x := by
  obtain ⟨ρ, hρ⟩ := hp.exists_expands .var
  have hUses : ((p.resolved t).nameless .var).Uses x :=
    Polytype.uses_nameless.2 ⟨x, h, rfl⟩
  rw [hρ.nameless_resolved hp, Polytype.uses_nameless] at hUses
  obtain ⟨y, hy, hUses⟩ := hUses
  obtain ⟨hNone, hReach⟩ := hρ.uses hp hUses
  exact ⟨hNone, y, hy, hReach⟩

/-! ## Equivalence of resolved types -/

/-- What is equivalent once resolved stays so where no solution is lost. -/
theorem equivalent_resolved_of_keeps {q : Prefix} (hp : p.Acyclic) (hq : q.Acyclic)
    (hKeeps : ∀ x m, p.solution? x = some m → q.solution? x = some m) {u : Polytype}
    (h : (p.resolved t).equivalent (p.resolved u) = true) :
    (q.resolved t).equivalent (q.resolved u) = true := by
  obtain ⟨ρ, hρ⟩ := hq.exists_expands .var
  -- the reading of the later prefix sees through the solutions of the earlier one
  have hEarlier : p.Expands ρ ρ := ⟨fun x m hx => hρ.solved x m (hKeeps x m hx), fun _ _ => rfl⟩
  have hRead := Polytype.norm_nameless_of_equivalent h ρ
  rw [hEarlier.nameless_resolved hp.untangled, hEarlier.nameless_resolved hp.untangled] at hRead
  rw [Polytype.equivalent_iff_norm_eq, Polytype.shape, Polytype.shape,
    hρ.nameless_resolved hq.untangled, hρ.nameless_resolved hq.untangled, hRead]

/-- Two prefixes resolve a type alike if they have the same solutions on names that lead only to
each other, among them those of the type. -/
theorem shape_resolved_congr {q : Prefix} (hp : p.Acyclic) (hq : q.Acyclic) {Z : Set String}
    (hSame : ∀ x ∈ Z, q.solution? x = p.solution? x)
    (hClosed : ∀ x ∈ Z, ∀ m, p.solution? x = some m → ∀ y ∈ m.freeVars, y ∈ Z)
    (ht : ∀ x ∈ t.freeVars, x ∈ Z) : (q.resolved t).shape = (p.resolved t).shape := by
  obtain ⟨ρ, hρ⟩ := hp.exists_expands .var
  obtain ⟨ρ', hρ'⟩ := hq.exists_expands .var
  -- the readings that see through solutions agree on the names, by induction along the solutions
  have hAgree (x : String) : x ∈ Z → ρ' x = ρ x := by
    induction x using hp.wellFounded.induction with
    | _ x ih =>
      intro hx
      cases hSolution : p.solution? x with
      | none => rw [hρ.unsolved x hSolution, hρ'.unsolved x (by rw [hSame x hx, hSolution])]
      | some m =>
        rw [hρ.solved x m hSolution, hρ'.solved x m (by rw [hSame x hx, hSolution])]
        exact Monotype.nameless_congr fun y hy =>
          ih y (mentions_of_solution? hSolution hy) (hClosed x hx m hSolution y hy)
  rw [Polytype.shape, Polytype.shape, hρ.nameless_resolved hp.untangled,
    hρ'.nameless_resolved hq.untangled]
  exact Polytype.nameless_congr fun x hx => hAgree x (ht x hx)

/-- Of two types in normal form that are equivalent once resolved, both are monotypes or none. -/
theorem mono?_eq_none_iff_of_equivalent {u : Polytype} (ht : t.IsNormal) (hu : u.IsNormal)
    (h : (p.resolved t).equivalent (p.resolved u) = true) : t.mono? = none ↔ u.mono? = none := by
  have hNormal {t : Polytype} (ht : t.IsNormal) : (p.resolved t).normal = p.resolved t :=
    Polytype.normal_eq_self.2 (ht.subst _)
  have hMono (t : Polytype) : (p.resolved t).shape.IsMono ↔ t.mono? ≠ none := by
    rw [Polytype.isMono_nameless, Prefix.resolved, ne_eq, Polytype.mono?_subst_eq_none]
  rw [Polytype.equivalent, hNormal ht, hNormal hu, Polytype.alphaEq_iff] at h
  rw [← not_iff_not, ← ne_eq, ← ne_eq, ← hMono t, ← hMono u, h]

end Prefix

/-! ## Instances of resolved types -/

/-- A ground type, read over any variables. -/
def Ground.nameless {V : Type} : Ground → Nameless.Mono V
  | const c => .const c
  | fn p b => .fn p.nameless b.nameless

theorem Ground.eval_nameless {V : Type} (g : Ground) (v : V → Ground) : g.nameless.eval v = g := by
  induction g with
  | const c => rfl
  | fn p b ihp ihb => rw [nameless, Nameless.Mono.eval, ihp, ihb]

theorem Monotype.nameless_eval {V : Type} (t : Monotype) (r : Valuation) :
    t.nameless (fun x => (r x).nameless (V := V)) = (t.eval r).nameless := by
  induction t with
  | var x => rfl
  | const c => rfl
  | fn p b ihp ihb => rw [nameless, ihp, ihb, eval, Ground.nameless]

/-- A solution gives solved variables the values of what they stand for, so it does not tell a type
from the resolved one. -/
theorem Prefix.IsSolution.Inst_resolved (hp : p.Acyclic) {r : Valuation} (hr : p.IsSolution r)
    (t : Polytype) : (p.resolved t).Inst r = t.Inst r := by
  let ρ : Reading Empty := fun x => (r x).nameless
  -- the values are expanded already
  have hρ : p.Expands ρ ρ := by
    refine ⟨fun x m hx => ?_, fun x _ => rfl⟩
    obtain ⟨e, he, ht⟩ := solution?_eq_some.1 hx
    have hValue := hr x e he
    rw [ht] at hValue
    rw [Monotype.nameless_eval, ← show r x = m.eval r from hValue]
  have hInst (t : Polytype) : (t.nameless ρ).Inst Empty.elim = t.Inst r := by
    simp only [Polytype.Inst_nameless, ρ, Ground.eval_nameless]
  rw [← hInst, hρ.nameless_resolved hp.untangled, hInst]

end Mlf
