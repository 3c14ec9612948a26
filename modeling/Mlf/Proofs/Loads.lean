import Mathlib
import Mlf.Proofs.UnifyCompleteness

/-!
# The load of the variables in play

Bounds with quantifiers are what makes unification go on beyond the types that it was given: a bound
is opened, which puts new variables in play, and what comes of them is a new bound. A run that ends
without a report pays for that. The load of a set of names counts the variables among them that are
not solved, and the quantifiers of their bounds. Opening the bounds of two variables takes no more
than the load of these two, since the types that are opened do not lead to them; closing the outcome
gives back at most the load of the variables of the level that is left; and in the end there is one
open variable less. So a run without reports lowers the load, or else it has done nothing at all.

The names that a run is about are those that its types lead to. Names that are not in play yet count
among them, so that the set stays the same when variables come into play.

Main results:

* `Polytype.quantifiers_quantifyAll_le` — the quantifiers of a type that is closed over bindings;
* `Prefix.load` with `Grows.load_eq`, `Updates.load_eq`, `load_opened_le`, `load_generalize_le` — how
  the operations on a prefix change its load;
* `run_lightens` — a run without reports lowers the load or keeps the solutions.
-/

namespace Mlf

open Relation

variable {p q : Prefix} {x : String} {Z : Set String}

namespace Polytype

/-- What a variable with this bound adds to the load: nothing if it is solved, and otherwise itself
and the quantifiers that opening it puts in play. -/
def cost : Polytype → Nat
  | mono _ => 0
  | t => t.quantifiers + 1

theorem cost_of_ne {t : Polytype} (h : ∀ m, t ≠ mono m) : t.cost = t.quantifiers + 1 := by
  cases t with
  | mono m => exact absurd rfl (h m)
  | bottom => rfl
  | all x k b t => rfl

theorem cost_le (t : Polytype) : t.cost ≤ t.quantifiers + 1 := by
  cases t with
  | mono m => exact Nat.zero_le _
  | bottom => exact le_rfl
  | all x k b t => exact le_rfl

@[simp] theorem cost_subst (t : Polytype) (s : Subst) : (t.subst s).cost = t.cost := by
  cases t with
  | mono m => rfl
  | bottom => rfl
  | all x k b t =>
    rw [cost_of_ne (mono?_eq_none.1 (mono?_subst_eq_none.2 rfl)), quantifiers_subst]
    rfl

/-- The costs of the leading quantifiers of a type. -/
def chainCost : Polytype → Nat
  | all _ _ b t => b.cost + t.chainCost
  | _ => 0

theorem chainCost_chain (bs : List Binding) (m : Monotype) :
    (chain bs (mono m)).chainCost = (bs.map fun b => b.bound.type.cost).sum := by
  induction bs with
  | nil => rfl
  | cons b bs ih => rw [chain_cons, chainCost, ih, List.map_cons, List.sum_cons]

/-- A quantifier whose bound is a monotype is gone from the normal form. -/
theorem quantifiers_normalizeWith_le_chainCost (t : Polytype) (s : Subst) (taken : NameSet) :
    (t.normalizeWith s taken).quantifiers ≤ t.chainCost := by
  -- a quantifier that is kept, whatever name it gets: its bound is no monotype, so it was paid for
  have hKept {x y : String} {k : BoundKind} {b t u : Polytype} {s : Subst}
      (hNotMono : ∀ m, (b.subst s).normalizeWith ∅ (b.subst s).topNames ≠ mono m)
      (hBody : u.quantifiers ≤ t.chainCost) :
      (close ⟨y, ⟨k, (b.subst s).normalizeWith ∅ (b.subst s).topNames⟩⟩ u).quantifiers ≤
        (all x k b t).chainCost := by
    have hb (m : Monotype) : b ≠ mono m := by
      rintro rfl
      exact hNotMono (m.subst s) ((isNormal_mono _).normalizeWith_eq _)
    have hClose := quantifiers_close_le
      ⟨y, ⟨k, (b.subst s).normalizeWith ∅ (b.subst s).topNames⟩⟩ u
    have hBound := quantifiers_normalizeWith_le (b.subst s) ∅ (b.subst s).topNames
    rw [quantifiers_subst] at hBound
    rw [chainCost, cost_of_ne hb]
    dsimp only at hClose
    omega
  -- along the recursion of the normal form
  fun_induction normalizeWith t s taken with
  | case1 s taken x k b t m hMono ihBound ihBody => exact ihBody.trans (Nat.le_add_left _ _)
  | case2 s taken x k b t inner hCapture y hNotMono ihBound ihBody => exact hKept hNotMono ihBody
  | case3 s taken x k b t inner hCapture hNotMono ihBound ihBody => exact hKept hNotMono ihBody
  | case4 s taken t hNotAll =>
    rw [quantifiers_subst]
    cases t with
    | mono m => exact Nat.zero_le _
    | bottom => exact Nat.zero_le _
    | all x k b t => exact absurd rfl (hNotAll x k b t)

/-- Closing a monotype over bindings takes no more quantifiers than the bindings cost. -/
theorem quantifiers_quantifyAll_le (bs : List Binding) (m : Monotype) :
    (quantifyAll bs (mono m)).quantifiers ≤ (bs.map fun b => b.bound.type.cost).sum := by
  cases bs with
  | nil => exact Nat.zero_le _
  | cons b bs =>
    rw [quantifyAll_cons, normal_eq_normalizeWith, ← chainCost_chain]
    exact quantifiers_normalizeWith_le_chainCost _ _ _

end Polytype

namespace Prefix

/-! ## The load of a set of names -/

/-- What a name adds to the load. -/
def cost (p : Prefix) (x : String) : Nat := (p.find? x).elim 0 fun e => e.bound.type.cost

theorem cost_eq {e : Entry} (h : p.find? x = some e) : p.cost x = e.bound.type.cost := by
  rw [cost, h]
  rfl

/-- What an open variable costs. -/
theorem open_cost {e : Entry} (h : p.find? x = some e) (hOpen : e.bound.type.mono? = none) :
    p.cost x = e.bound.type.quantifiers + 1 := by
  rw [cost_eq h, Polytype.cost_of_ne (Polytype.mono?_eq_none.1 hOpen)]

theorem cost_eq_zero (h : ¬ p.Binds x) : p.cost x = 0 := by
  cases hx : p.find? x with
  | none => rw [cost, hx]; rfl
  | some e => exact absurd ⟨e, hx⟩ h

/-- The variables among the names `Z` that are not solved, and the quantifiers of their bounds. -/
noncomputable def load (p : Prefix) (Z : Set String) : Nat := ∑ᶠ x, Z.indicator p.cost x

theorem finite_support_indicator (p : Prefix) (Z : Set String) :
    (Z.indicator p.cost).HasFiniteSupport := by
  refine (List.finite_toSet p.entries.keys).subset fun x hx => mem_keys_iff.2 ?_
  by_contra hUnbound
  exact hx (by simp [cost_eq_zero hUnbound])

/-- The load grows with the names and with what each of them costs. -/
theorem load_mono {Z' : Set String} (h : ∀ x ∈ Z, p.cost x = 0 ∨ (x ∈ Z' ∧ p.cost x ≤ q.cost x)) :
    p.load Z ≤ q.load Z' := by
  refine finsum_le_finsum' (finite_support_indicator p Z) (finite_support_indicator q Z') fun x => ?_
  by_cases hx : x ∈ Z
  · rw [Set.indicator_of_mem hx]
    rcases h x hx with hZero | ⟨hx', hLe⟩
    · rw [hZero]
      exact Nat.zero_le _
    · rwa [Set.indicator_of_mem hx']
  · rw [Set.indicator_of_notMem hx]
    exact Nat.zero_le _

theorem load_congr (h : ∀ x ∈ Z, p.cost x = q.cost x) : p.load Z = q.load Z :=
  le_antisymm (load_mono fun x hx => Or.inr ⟨hx, (h x hx).le⟩)
    (load_mono fun x hx => Or.inr ⟨hx, (h x hx).ge⟩)

/-- The load of some of the names and of the others. -/
theorem load_add_diff (p : Prefix) {Z' : Set String} (h : Z' ⊆ Z) :
    p.load Z' + p.load (Z \ Z') = p.load Z := by
  rw [load, load, load, ← finsum_add_distrib (finite_support_indicator p _)
    (finite_support_indicator p _)]
  refine finsum_congr fun x => ?_
  by_cases hx : x ∈ Z' <;> by_cases hx' : x ∈ Z <;> simp [hx, hx']
  exact absurd (h hx) hx'

theorem load_singleton (p : Prefix) (x : String) : p.load {x} = p.cost x := by
  have hOther (y : String) (hy : y ≠ x) : Set.indicator {x} p.cost y = 0 :=
    Set.indicator_of_notMem (by simpa using hy) _
  rw [load, finsum_eq_single _ x hOther, Set.indicator_of_mem (Set.mem_singleton x)]

theorem load_eq_add (hx : x ∈ Z) : p.load Z = p.cost x + p.load (Z \ {x}) := by
  rw [← load_add_diff p (Set.singleton_subset_iff.2 hx), load_singleton]

/-- The load of variables that are listed, each once, and of the others. -/
theorem load_eq_sum_add (p : Prefix) {xs : List String} (hNodup : xs.Nodup) (hZ : ∀ x ∈ xs, x ∈ Z) :
    p.load Z = (xs.map p.cost).sum + p.load (Z \ {x | x ∈ xs}) := by
  induction xs generalizing Z with
  | nil => simp
  | cons x xs ih =>
    obtain ⟨hx, hNodup⟩ := List.nodup_cons.1 hNodup
    rw [List.forall_mem_cons] at hZ
    have hRest := ih hNodup (Z := Z \ {x}) fun y hy =>
      ⟨hZ.2 y hy, fun hyx => hx (Set.mem_singleton_iff.1 hyx ▸ hy)⟩
    -- one name is split off at a time
    have hDiff : (Z \ {x}) \ {y | y ∈ xs} = Z \ {y | y ∈ x :: xs} := by
      ext y
      simp only [Set.mem_sdiff, Set.mem_singleton_iff, Set.mem_ofPred_eq, List.mem_cons]
      tauto
    rw [load_eq_add hZ.1, hRest, hDiff, List.map_cons, List.sum_cons, Nat.add_assoc]

/-! ## What the operations on a prefix do to its load -/

variable {p q : Prefix} {Z : Set String} {x : String} {b : Bound}

theorem Quiet.load_eq (h : p.Quiet q) (Z : Set String) : q.load Z = p.load Z :=
  load_congr fun x _ => by rw [cost, cost, h.find?]

theorem load_enter (p : Prefix) (Z : Set String) : p.enter.load Z = p.load Z :=
  load_congr fun x _ => by rw [cost, cost, find?_enter]

theorem Grows.binds (h : p.Grows q x b) {y : String} (hy : p.Binds y) : q.Binds y := by
  obtain ⟨e, he⟩ := hy
  rw [Binds, h.find?]
  split
  · exact ⟨_, rfl⟩
  · exact ⟨e, he⟩

theorem Grows.load_eq (h : p.Grows q x b) (hx : x ∈ Z) : q.load Z = p.load Z + b.type.cost := by
  have hNew : q.cost x = b.type.cost := cost_eq (by rw [h.find?, if_pos rfl])
  have hOld : q.load (Z \ {x}) = p.load (Z \ {x}) := load_congr fun y hy => by
    have hyx : y ≠ x := hy.2
    rw [cost, cost, h.find?, if_neg hyx]
  rw [load_eq_add hx, load_eq_add hx, hNew, hOld, cost_eq_zero h.fresh]
  omega

theorem Updates.cost_eq (h : p.Updates q x b) {y : String} (hy : y ≠ x) : q.cost y = p.cost y := by
  by_cases hBinds : p.Binds y
  · obtain ⟨e, he⟩ := hBinds
    obtain ⟨l, he', -⟩ := h.bound y e he
    rw [if_neg hy] at he'
    rw [Prefix.cost_eq he, Prefix.cost_eq he']
  · rw [cost_eq_zero hBinds, cost_eq_zero (mt (h.binds y).1 hBinds)]

theorem Updates.load_eq (h : p.Updates q x b) (hx : p.Binds x) (hxZ : x ∈ Z) :
    q.load Z + p.cost x = p.load Z + b.type.cost := by
  obtain ⟨e, he⟩ := hx
  obtain ⟨l, he', -⟩ := h.bound x e he
  rw [if_pos rfl] at he'
  -- only the cost of the one variable changes
  have hOld : q.load (Z \ {x}) = p.load (Z \ {x}) := load_congr fun y hy => h.cost_eq hy.2
  rw [load_eq_add hxZ, load_eq_add hxZ, hOld, Prefix.cost_eq he']
  dsimp only
  omega

/-- New variables for bindings cost what the bindings do. -/
theorem load_instantiateWith (hLevel : 1 ≤ p.level) (hNew : ∀ x, ¬ p.Binds x → x ∈ Z) (s : Subst)
    (bs : List Binding) :
    (p.instantiateWith s bs).2.load Z = p.load Z + (bs.map fun b => b.bound.type.cost).sum := by
  induction bs generalizing p s with
  | nil => rfl
  | cons b bs ih =>
    have hGrows := newType_grows hLevel ⟨b.bound.kind, b.bound.type.subst s⟩
    rw [instantiateWith_cons, ih (by rw [hGrows.level]; exact hLevel)
      fun y hy => hNew y fun hBinds => hy (hGrows.binds hBinds),
      hGrows.load_eq (hNew _ hGrows.fresh), Polytype.cost_subst, List.map_cons, List.sum_cons]
    omega

/-- Opening a type costs no more than its quantifiers. -/
theorem load_opened_le (hLevel : 1 ≤ p.level) (hNew : ∀ x, ¬ p.Binds x → x ∈ Z) {t : Polytype}
    (ht : t.IsNormal) (hNotBottom : t ≠ .bottom) :
    (p.opened t).2.load Z ≤ p.load Z + t.quantifiers := by
  have hSelf := Polytype.normal_eq_self.2 ht
  rcases (Polytype.isNormal_normal t).split_cases with hBottom | ⟨bs, m, hSplit, hChain, -⟩
  · exact absurd (hSelf.symm.trans hBottom) hNotBottom
  · have hCosts : (bs.map fun b => b.bound.type.cost).sum ≤ Polytype.weight bs :=
      List.sum_le_sum fun b _ => b.bound.type.cost_le
    rw [opened_of_split hSplit, load_instantiateWith hLevel hNew, ← hSelf, hChain,
      Polytype.quantifiers_chain]
    omega

/-- Closing a type over the variables of a level and leaving it takes no more quantifiers than these
variables cost. -/
theorem load_generalize_le (hp : p.WellFormed) (hLevel : 1 ≤ p.level) (hZ : p.Closed Z)
    {m : Monotype} (hm : p.Covers m) (hmZ : ∀ x ∈ m.freeVars, x ∈ Z) :
    p.leave.load Z + (p.generalize m).1.quantifiers ≤ p.load Z := by
  have hListed {b : Binding} (hb : b ∈ (p.generalizable m).1) :=
    (mem_generalizable hp.scoping hm).1 hb
  have hNodup : ((p.generalizable m).1.map Binding.name).Nodup :=
    List.pairwise_map.2 ((generalizable_ordered hp.acyclic m).pairwise.imp fun h => h.1)
  have hMem : ∀ x ∈ (p.generalizable m).1.map Binding.name, x ∈ Z := by
    intro x hx
    obtain ⟨b, hb, rfl⟩ := List.mem_map.1 hx
    obtain ⟨-, y, hy, hReach⟩ := hListed hb
    exact hZ.reaches (hmZ y hy) hReach
  -- the quantifiers have the bounds that the variables have in play
  have hCosts : ((p.generalizable m).1.map Binding.name).map p.cost =
      (p.generalizable m).1.map fun b => b.bound.type.cost := by
    rw [List.map_map]
    refine List.map_congr_left fun b hb => ?_
    obtain ⟨⟨e, he, hBound, -⟩, -⟩ := hListed hb
    rw [Function.comp_apply, cost_eq he, hBound]
  -- the variables of the level are gone when it is left
  have hLeave : p.leave.load Z ≤ p.load (Z \ {x | x ∈ (p.generalizable m).1.map Binding.name}) := by
    refine load_mono fun x hx => ?_
    by_cases hBinds : p.leave.Binds x
    · obtain ⟨e, he⟩ := hBinds
      obtain ⟨hFind, hOuter⟩ := (hp.owned.find?_leave hLevel x e).1 he
      refine Or.inr ⟨⟨hx, fun hName => ?_⟩, by rw [cost_eq he, cost_eq hFind]⟩
      obtain ⟨b, hb, rfl⟩ := List.mem_map.1 hName
      obtain ⟨⟨e', he', -, hInner⟩, -⟩ := hListed hb
      obtain rfl := Option.some.inj (hFind.symm.trans he')
      omega
    · exact Or.inl (cost_eq_zero hBinds)
  have hType := Polytype.quantifiers_quantifyAll_le (p.generalizable m).1 m
  have hSplit := p.load_eq_sum_add hNodup hMem
  rw [hCosts] at hSplit
  rw [generalize_eq hp.scoping hm]
  dsimp only
  omega

end Prefix

namespace Unify

open Prefix

/-! ## Runs without reports -/

/-- The load of the names `Z` is lowered, or every solution is kept. -/
structure Lightens (p q : Prefix) (Z : Set String) : Prop where
  le : q.load Z ≤ p.load Z
  same : q.load Z = p.load Z → ∀ r, p.IsSolution r → q.IsSolution r

theorem Lightens.trans {s : Prefix} (h : Lightens p q Z) (h' : Lightens q s Z) :
    Lightens p s Z where
  le := h'.le.trans h.le
  same hEq r hr := by
    have hFirst := h.le
    have hSecond := h'.le
    exact h'.same (by omega) r (h.same (by omega) r hr)

theorem Lightens.of_lt (h : q.load Z < p.load Z) : Lightens p q Z :=
  ⟨h.le, fun hEq => absurd hEq h.ne⟩

theorem Lightens.of_quiet (h : p.Quiet q) (Z : Set String) : Lightens p q Z :=
  ⟨(h.load_eq Z).le, fun _ _ hr => h.isSolution_iff.2 hr⟩

/-- Names that a run may be about: all that they lead to, and all that is not in play yet. -/
structure Arena (p : Prefix) (Z : Set String) : Prop where
  closed : p.Closed Z
  fresh : ∀ x, ¬ p.Binds x → x ∈ Z

theorem Arena.allowed_eq (h : Arena p Z) : p.Allowed Z = Z :=
  Set.Subset.antisymm
    (fun x hx => by_cases (fun hBinds : p.Binds x => hx hBinds) (h.fresh x)) fun _ hx _ => hx

theorem Arena.mono {k : Nat} (h : Arena p Z) (hNarrows : Narrows k p q Z) : Arena q Z where
  closed := h.allowed_eq ▸ hNarrows.closed
  fresh x hx := h.fresh x fun hBinds => hx (hNarrows.binds hBinds)

theorem Arena.enter (h : Arena p Z) : Arena p.enter Z where
  closed := by
    rw [Closed, mentions_congr (find?_enter p)]
    exact h.closed
  fresh x hx := h.fresh x fun hBinds => hx (binds_enter.2 hBinds)

/-- Runs without reports lower the load. -/
def Lightening (R : Behavior) : Prop :=
  ∀ {p q : Prefix} {a e : Monotype} {Z : Set String},
    R p a e (some (q, [])) → p.WellFormed → p.Covers a → p.Covers e → Arena p Z →
    (∀ x ∈ a.freeVars, x ∈ Z) → (∀ x ∈ e.freeVars, x ∈ Z) → Lightens p q Z

/-- New variables for the quantifiers of two types cost no more than the types have of them. -/
theorem OpensPair.load_le {a e : Polytype} (h : OpensPair p a e Z) (hZ : Arena p Z)
    (ha : a.IsNormal) (haBottom : a ≠ .bottom) (he : e.IsNormal) (heBottom : e ≠ .bottom) :
    ((p.enter.opened a).2.opened e).2.load Z ≤ p.load Z + a.quantifiers + e.quantifiers := by
  have hFirst := load_opened_le (one_le_level_enter p) hZ.enter.fresh ha haBottom
  have hSecond := load_opened_le (h.first.narrows.one_le_level (one_le_level_enter p))
    (hZ.enter.mono h.first.narrows).fresh he heBottom
  rw [load_enter] at hFirst
  omega

/-- The names that lead to none of the variables of a tie. -/
def Tie.aside (T : Tie) (p : Prefix) (Z : Set String) : Set String :=
  {z | z ∈ Z ∧ ∀ x ∈ T.vars, ¬ p.Reaches z x}

section

variable {T : Tie} {p : Prefix} {Z : Set String} (hT : T.Fits p Z)
include hT

theorem Tie.Fits.arena_aside (hZ : Arena p Z) : Arena p (T.aside p Z) := by
  refine ⟨fun z hz w hzw => ⟨hZ.closed z hz.1 w hzw, fun x hx hwx => ?_⟩,
    fun z hz => ⟨hZ.fresh z hz, fun x hx hzx => ?_⟩⟩
  · exact hz.2 x hx (.head hzw hwx)
  · rcases hzx.cases_head with rfl | ⟨w, hzw, -⟩
    · exact hz (hT.binds z hx)
    · exact hz hzw.binds

/-- The two types of a tie do not lead to its variables. -/
theorem Tie.Fits.mem_aside (hp : p.Acyclic) (hBegins : T.Begins p) :
    (∀ z ∈ T.actual.freeVars, z ∈ T.aside p Z) ∧ ∀ z ∈ T.expected.freeVars, z ∈ T.aside p Z :=
  have hApart := hBegins.apart hp
  ⟨fun z hz => ⟨hT.actual.2.2 z hz, fun x hx => not_reaches_of_occurs (hApart x hx).1 z hz⟩,
    fun z hz => ⟨hT.expected.2.2 z hz, fun x hx => not_reaches_of_occurs (hApart x hx).2 z hz⟩⟩

/-- The load of the names aside does not have that of the variables in it. -/
theorem Tie.Fits.load_aside_le (hNodup : T.vars.Nodup) :
    p.load (T.aside p Z) + (T.vars.map p.cost).sum ≤ p.load Z := by
  have hSplit := p.load_eq_sum_add hNodup hT.vars
  have hAside : p.load (T.aside p Z) ≤ p.load (Z \ {x | x ∈ T.vars}) :=
    load_mono fun x hx => Or.inr ⟨⟨hx.1, fun hxT => hx.2 x hxT .refl⟩, le_rfl⟩
  omega

end

section

variable {R : Behavior} (hSafe : Safe R) (hR : Lightening R)
include hSafe hR

/-- The common instances of two types are paid for by the quantifiers of the two. -/
theorem PolyRun.load_le {a e t : Polytype} (h : PolyRun R p a e (some (q, [], t)))
    (hp : p.WellFormed) (ha : p.Covers a) (he : p.Covers e) (haNormal : a.IsNormal)
    (heNormal : e.IsNormal) (hZ : Arena p Z) (haZ : ∀ x ∈ a.freeVars, x ∈ Z)
    (heZ : ∀ x ∈ e.freeVars, x ∈ Z) :
    q.load Z + t.quantifiers ≤ p.load Z + a.quantifiers + e.quantifiers := by
  cases h with
  | left => simp [Polytype.quantifiers]
  | right => simp [Polytype.quantifiers]
  | mono hRun => simpa [Polytype.quantifiers] using (hR hRun hp ha he hZ haZ heZ).le
  | @opened _ _ q _ haBottom heBottom hRun =>
    have hPair := opensPair hp ha he hZ.closed haZ heZ
    obtain ⟨hInside, -, hCovers⟩ := hPair.run hSafe hRun
    have hEnter := hZ.enter
    -- the new variables cost what the two types have in quantifiers
    have hOpened := hPair.load_le hZ haNormal haBottom heNormal heBottom
    -- the run does not make it more
    have hRuns := (hR hRun hPair.narrows.wellFormed hPair.coversActual hPair.second.covers
      (hEnter.mono hPair.narrows) (hEnter.allowed_eq ▸ hPair.first.allowed)
      (hEnter.allowed_eq ▸ hPair.allowedExpected)).le
    -- and what is left of them on their level is closed over
    have hClose := load_generalize_le hInside.wellFormed
      (hInside.one_le_level (one_le_level_enter p)) (hEnter.mono hInside).closed hCovers
      (hEnter.allowed_eq ▸ hPair.first.allowed)
    have hSame : (q.generalize (p.enter.opened a).1).2 = q := by
      rw [generalize_eq hInside.wellFormed.scoping hCovers]
    rw [hSame]
    omega

/-- Tying variables lowers the load: the types do not lead to the variables, so that the names they
lead to can do without the load of the variables, which is more than the new bound costs. -/
theorem TieRun.load_lt {T : Tie} (h : TieRun R p T (some (q, []))) (hp : p.WellFormed)
    (hZ : Arena p Z) (hT : T.Fits p Z)
    (hPays : ∀ t, (T.target t).cost + T.actual.quantifiers + T.expected.quantifiers <
      (T.vars.map p.cost).sum + t.quantifiers)
    (hFinish : ∀ {q : Prefix} (t : Polytype), (∀ x ∈ T.vars, q.Binds x) →
      (T.finish q t).load Z + (T.vars.map q.cost).sum ≤ q.load Z + (T.target t).cost) :
    q.load Z < p.load Z := by
  cases h with
  | @tied q q' t hBegins hPoly hQuiet =>
    -- the bounds are unified among the names aside, and this does not touch the variables
    have hArena := hT.arena_aside hZ
    obtain ⟨hActual, hExpected⟩ := hT.mem_aside hp.acyclic hBegins
    have hInner := hPoly.load_le hSafe hR hp hT.actual.1 hT.expected.1 hT.actual.2.1
      hT.expected.2.1 hArena hActual hExpected
    have hNarrows := (hPoly.narrows hSafe hp hT.actual.1 hT.expected.1 hT.actual.2.1
      hT.expected.2.1 hArena.closed hActual hExpected 0).narrows
    -- the others keep their bounds
    have hKept {x : String} (hx : x ∉ T.aside p Z) : q.cost x = p.cost x := by
      obtain ⟨e, he⟩ : p.Binds x := by
        by_contra hUnbound
        exact hx (hArena.fresh x hUnbound)
      obtain ⟨e', he', -, hSame⟩ := hNarrows.kept x e he
      rw [cost_eq he, cost_eq he', hSame hx]
    have hOthers : q.load (Z \ T.aside p Z) = p.load (Z \ T.aside p Z) :=
      load_congr fun x hx => hKept hx.2
    have hSub : T.aside p Z ⊆ Z := fun _ hz => hz.1
    have hBefore := p.load_add_diff hSub
    have hAfter := q.load_add_diff hSub
    have hCosts : T.vars.map q'.cost = T.vars.map p.cost := List.map_congr_left fun x hx => by
      rw [cost, hQuiet.find?, ← cost]
      exact hKept fun hx' => hx'.2 x hx .refl
    have hLast := hFinish t fun x hx => (hQuiet.binds x).2 (hNarrows.binds (hT.binds x hx))
    have hPaid := hPays t
    rw [hCosts, hQuiet.load_eq] at hLast
    omega

/-- Making two variables one leaves one of them. -/
theorem TieRun.merge_load_lt {y : String} {ex ey : Entry}
    (h : TieRun R p (.merge x y ex.bound ey.bound) (some (q, []))) (hp : p.WellFormed)
    (hx : p.find? x = some ex) (hy : p.find? y = some ey) (hne : x ≠ y)
    (hxOpen : ex.bound.type.mono? = none) (hyOpen : ey.bound.type.mono? = none) (hZ : Arena p Z)
    (hxZ : x ∈ Z) (hyZ : y ∈ Z) : q.load Z < p.load Z := by
  refine h.load_lt hSafe hR hp hZ (Tie.merge_fits hp hne hx hy hZ.closed hxZ hyZ) (fun t => ?_)
    fun {q} t hBinds => ?_
  · -- two variables are paid for, and the bound that is left costs one of them at most
    have hTarget := t.cost_le
    simp only [Tie.merge, id_eq, List.map_cons, List.map_nil, List.sum_cons, List.sum_nil,
      open_cost hx hxOpen, open_cost hy hyOpen]
    omega
  · simp only [Tie.merge, List.mem_cons, List.not_mem_nil, or_false, forall_eq_or_imp, forall_eq,
      id_eq, List.map_cons, List.map_nil, List.sum_cons, List.sum_nil] at hBinds ⊢
    -- whichever stays, the other one is solved
    have link {u v : String} (hu : q.Binds u) (hv : q.Binds v) (huZ : u ∈ Z) (hvZ : v ∈ Z)
        (huv : v ≠ u) (k : BoundKind) :
        ((q.update u ⟨k, t⟩).update v ⟨.flexible, .mono (.var u)⟩).load Z + (q.cost u + q.cost v) =
          q.load Z + t.cost := by
      have hFirst := update_updates hu ⟨k, t⟩
      have hv' := (hFirst.binds v).2 hv
      have hStays := hFirst.load_eq hu huZ
      have hGoes := (update_updates hv' ⟨.flexible, .mono (.var u)⟩).load_eq hv' hvZ
      have hSolved : (Polytype.mono (.var u)).cost = 0 := rfl
      rw [hFirst.cost_eq huv] at hGoes
      dsimp only at hStays hGoes
      omega
    obtain ⟨stays, goes, hWhich, hEq⟩ := merge_eq hBinds.1 hBinds.2
      ⟨if ex.bound.kind = .rigid ∨ ey.bound.kind = .rigid then .rigid else .flexible, t⟩
    rw [hEq]
    rcases hWhich with ⟨rfl, rfl⟩ | ⟨rfl, rfl⟩
    · exact (link hBinds.1 hBinds.2 hxZ hyZ hne.symm _).le
    · have := link hBinds.2 hBinds.1 hyZ hxZ hne
        (if ex.bound.kind = .rigid ∨ ey.bound.kind = .rigid then .rigid else .flexible)
      omega

/-- A variable that is solved costs nothing. -/
theorem TieRun.solve_load_lt {ex : Entry} {t : Monotype} {swapped : Bool}
    (h : TieRun R p (.solve x ex.bound t swapped) (some (q, []))) (hp : p.WellFormed)
    (hx : p.find? x = some ex) (ht : p.Covers t) (hxOpen : ex.bound.type.mono? = none)
    (hZ : Arena p Z) (hxZ : x ∈ Z) (htZ : ∀ y ∈ t.freeVars, y ∈ Z) : q.load Z < p.load Z := by
  refine h.load_lt hSafe hR hp hZ (Tie.solve_fits hp hx ht swapped hZ.closed hxZ htZ) (fun u => ?_)
    fun {q} u hBinds => ?_
  · cases swapped <;>
      simp [Tie.solve, open_cost hx hxOpen, Polytype.cost, Polytype.quantifiers] <;> omega
  · simp only [Tie.solve, List.mem_singleton, forall_eq, List.map_cons, List.map_nil, List.sum_cons,
      List.sum_nil] at hBinds ⊢
    exact ((update_updates hBinds ⟨ex.bound.kind, .mono t⟩).load_eq hBinds hxZ).le

/-- One step without a report lowers the load or keeps the solutions, if the runs that it calls do.
-/
theorem StepRun.lightening : Lightening (StepRun R) := by
  intro p q a e Z h hp ha he hZ haZ heZ
  generalize hOut : (some (q, []) : Outcome) = o at h
  cases h with
  | same _ hQuiet =>
    obtain ⟨rfl, -⟩ := Prod.mk.inj (Option.some.inj hOut)
    exact .of_quiet hQuiet Z
  | unbound => cases hOut
  -- what is tied is open: solved variables are followed to their solutions before
  | merge haTop heTop hne hQuiet hx hy hTie =>
    subst hOut
    have hNarrows := hQuiet.narrows hp 0 hZ.closed
    exact (Lightens.of_quiet hQuiet Z).trans (.of_lt (hTie.merge_load_lt hSafe hR hNarrows.wellFormed
      hx hy hne (bound_of_top hp hQuiet haTop hx) (bound_of_top hp hQuiet heTop hy)
      (hZ.mono hNarrows) (hZ.closed.mem_top haZ haTop) (hZ.closed.mem_top heZ heTop)))
  | @solve _ x t _ swapped _ hTops _ hQuiet hx hTie =>
    subst hOut
    have hNarrows := hQuiet.narrows hp 0 hZ.closed
    -- whichever side the variable is on
    obtain ⟨u, hTop, hxZ, ht, htZ⟩ : ∃ u, p.top u = .var x ∧ x ∈ Z ∧ p.Covers t ∧
        ∀ y ∈ t.freeVars, y ∈ Z := by
      cases swapped with
      | true =>
        obtain ⟨rfl, heTop⟩ := hTops
        exact ⟨e, heTop, hZ.closed.mem_top heZ heTop, hp.scoping.covers_top ha, hZ.closed.top haZ⟩
      | false =>
        obtain ⟨haTop, rfl⟩ := hTops
        exact ⟨a, haTop, hZ.closed.mem_top haZ haTop, hp.scoping.covers_top he, hZ.closed.top heZ⟩
    exact (Lightens.of_quiet hQuiet Z).trans (.of_lt (hTie.solve_load_lt hSafe hR hNarrows.wellFormed
      hx (hNarrows.covers ht) (bound_of_top hp hQuiet hTop hx) (hZ.mono hNarrows) hxZ htZ))
  | clash => cases hOut
  | paramStuck => cases hOut
  | bodyStuck => cases hOut
  | @fn p' q₁ q₂ ds ds' a₁ a₂ e₁ e₂ u v haTop heTop hQuiet hPair hParam hBody =>
    obtain ⟨rfl, hNil⟩ := Prod.mk.inj (Option.some.inj hOut)
    obtain ⟨rfl, rfl⟩ := List.append_eq_nil_iff.1 hNil.symm
    obtain ⟨⟨hu, hv⟩, ha₂, he₂⟩ := hp.scoping.closed.parts ha he haTop heTop hPair
    obtain ⟨⟨huZ, hvZ⟩, ha₂Z, he₂Z⟩ := hZ.closed.parts haZ heZ haTop heTop hPair
    -- no reports of the whole are no reports of the parts
    have hBooks := hQuiet.narrows hp 0 hZ.closed
    have hArena := hZ.mono hBooks
    have hNarrows := (hSafe hParam hBooks.wellFormed (hBooks.covers hu) (hBooks.covers hv)
      hArena.closed huZ hvZ 0).1
    have hFirst := hR hParam hBooks.wellFormed (hBooks.covers hu) (hBooks.covers hv) hArena huZ hvZ
    have hSecond := hR hBody hNarrows.wellFormed (hNarrows.covers (hBooks.covers ha₂))
      (hNarrows.covers (hBooks.covers he₂)) (hArena.mono hNarrows) ha₂Z he₂Z
    exact (Lightens.of_quiet hQuiet Z).trans (hFirst.trans hSecond)

end

/-- A run without reports lowers the load of the names that it is about, or keeps every solution. -/
theorem run_lightens (fuel : Nat) : Lightening (Run fuel) := by
  induction fuel with
  | zero => exact fun h => nomatch h
  | succ n ih => exact StepRun.lightening (run_safe n) ih

end Unify

end Mlf
