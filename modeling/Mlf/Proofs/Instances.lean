import Mlf.Proofs.Narrowing

/-!
# Instances of types

An instance of a type is its body with new variables of the current level for the quantified ones.
In the solutions of the prefix, the body then stands for exactly the ground instances of the type,
and the variables that were there before are not restricted. A type read off from such variables
when their level is left has the values that they had.

Main results:

* `Grows.isSolution_iff`, `Grows.exists_solution` — the solutions after one new variable;
* `instantiateWith_opens` — a new variable for each binding of a chain;
* `opened_opens`, `opened_eq_fn` — an instance of a type;
* `Opens.typed` — a type generalized at the end of a level.
-/

namespace Mlf

variable {p q : Prefix} {t : Polytype} {b : Bound}
/-- A normal form is bottom, or it is a chain of quantifiers in front of a monotype. -/
theorem Polytype.IsNormal.split_cases (h : t.IsNormal) :
    t = .bottom ∨ ∃ bs m, t.split = (bs, .mono m) ∧ t = Polytype.chain bs (.mono m) ∧
      ∀ b ∈ bs, b.bound.type.IsNormal := by
  induction t with
  | mono m => exact Or.inr ⟨[], m, rfl, rfl, by simp⟩
  | bottom => exact Or.inl rfl
  | all x k b t ihb iht =>
    obtain ⟨hBound, -, hUsed, -, hBody⟩ := h
    rcases iht hBody with rfl | ⟨bs, m, hSplit, hChain, hBounds⟩
    · simp [Polytype.freeVars] at hUsed
    · refine Or.inr ⟨⟨x, ⟨k, b⟩⟩ :: bs, m, by simp [Polytype.split, hSplit], ?_, ?_⟩
      · rw [Polytype.chain_cons, ← hChain]
      · simpa [hBound] using hBounds

theorem Polytype.flexible_of_chain {bs : List Binding} (h : (Polytype.chain bs t).Flexible) :
    ∀ b ∈ bs, b.bound.kind = .flexible ∧ b.bound.type.Flexible := by
  induction bs with
  | nil => simp
  | cons c bs ih =>
    obtain ⟨hKind, hType, hRest⟩ := h
    simpa [hKind, hType] using ih hRest

namespace Prefix

/-! ## One new variable -/

theorem Grows.isSolution_iff {x : String} (h : p.Grows q x b) {r : Valuation} :
    q.IsSolution r ↔ p.IsSolution r ∧ r x ∈ b.type.Inst r := by
  constructor
  · intro hq
    refine ⟨fun y e he => hq y e ?_, hq x ⟨p.level, b⟩ ?_⟩
    · have hne : y ≠ x := fun hyx => h.fresh ⟨e, hyx ▸ he⟩
      rw [h.find?, if_neg hne, he]
    · rw [h.find?, if_pos rfl]
  · rintro ⟨hp, hx⟩ y e he
    -- a variable from before, or the new one with its bound
    rw [h.find?] at he
    split_ifs at he with hyx
    · obtain rfl := Option.some.inj he
      exact hyx ▸ hx
    · exact hp y e he

/-- A new variable may stand for any instance of its bound. -/
theorem Grows.exists_solution {x : String} (h : p.Grows q x b) (hScoped : p.Scoped)
    (hCovers : p.Covers b.type) {r : Valuation} (hr : p.IsSolution r) {g : Ground}
    (hg : g ∈ b.type.Inst r) :
    ∃ r', (∀ y, p.Binds y → r' y = r y) ∧ q.IsSolution r' ∧ r' x = g := by
  have hSame (y : String) (hy : p.Binds y) : Function.update r x g y = r y :=
    Function.update_of_ne (fun hyx : y = x => h.fresh (hyx ▸ hy)) g r
  -- the name is new, so that no bound mentions it and its value can be changed at will
  refine ⟨Function.update r x g, hSame, h.isSolution_iff.2 ⟨?_, ?_⟩, Function.update_self x g r⟩
  · exact Prefix.isSolution_iff.2 ((hr.solvedOn _).congr_binds hScoped hSame)
  · rw [Function.update_self, Polytype.Inst_congr fun y hy => hSame y (hCovers y hy)]
    exact hg

theorem Grows.determines {x : String} (h : p.Grows q x b) : Determines p.level p q := by
  intro l hl r r' _ _ hAgree y e he hLe
  rw [h.find?] at he
  split_ifs at he with hyx
  · obtain rfl := Option.some.inj he
    exact absurd hl (Nat.not_lt.2 hLe)
  · exact hAgree y e he hLe

theorem Flexible.grows {x : String} (hp : p.Flexible) (h : p.Grows q x b)
    (hKind : b.kind = .flexible) (hType : b.type.Flexible) : q.Flexible := by
  intro y e he
  rw [h.find?] at he
  split_ifs at he with hyx
  · obtain rfl := Option.some.inj he
    exact ⟨hKind, hType⟩
  · exact hp y e he

/-! ## A new variable for each binding -/

/-- In the solutions of `q`, which are those of `p` with new variables of the current level, a
monotype stands for the given ground types. -/
structure Opens (p q : Prefix) (Z : Set String) (m : Monotype) (inst : Valuation → Set Ground) :
    Prop where
  narrows : Narrows p.level p q Z
  covers : q.Covers m
  allowed : ∀ x ∈ m.freeVars, x ∈ p.Allowed Z
  sound : ∀ r, q.IsSolution r → p.IsSolution r ∧ m.eval r ∈ inst r
  complete : ∀ r, p.IsSolution r → ∀ g ∈ inst r,
    ∃ r', (∀ x, p.Binds x → r' x = r x) ∧ q.IsSolution r' ∧ m.eval r' = g
  determines : Determines p.level p q

theorem covers_unbounded (p : Prefix) : p.Covers Bound.unbounded.type := by
  simp [Covers, Bound.unbounded, Polytype.freeVars]

/-- A new variable stands for the instances of its bound. -/
theorem newType_opens (hp : p.WellFormed) (hLevel : 1 ≤ p.level) {Z : Set String}
    (hZ : p.Closed Z) (hNormal : b.type.IsNormal) (hCovers : p.Covers b.type)
    (hBound : ∀ x ∈ b.type.freeVars, x ∈ Z) :
    Opens p (p.newType b).2 Z (.var (p.newType b).1) b.type.Inst := by
  have hGrows := newType_grows hLevel b
  have hVar {x y : String} (hx : x ∈ (Monotype.var y).freeVars) : x = y := by
    simpa [Monotype.freeVars] using hx
  refine ⟨newType_narrows hp hLevel hNormal hCovers hZ hBound, fun x hx => ?_, fun x hx hb => ?_,
    fun r hr => hGrows.isSolution_iff.1 hr,
    fun r hr g hg => hGrows.exists_solution hp.scoping hCovers hr hg, hGrows.determines⟩
  · exact ⟨_, by rw [hVar hx, hGrows.find?, if_pos rfl]⟩
  · exact absurd (hVar hx ▸ hb) hGrows.fresh

/-- A new variable for each binding of a chain, under the replacements made so far. -/
theorem instantiateWith_opens (hp : p.WellFormed) (hLevel : 1 ≤ p.level) {Z : Set String}
    (hZ : p.Closed Z) {bs : List Binding} {m : Monotype} {s : Subst}
    (hNormal : ∀ b ∈ bs, b.bound.type.IsNormal)
    (hImages : ∀ x ∈ (Polytype.chain bs (.mono m)).freeVars, ∀ y ∈ (s.image x).freeVars,
      p.Binds y ∧ y ∈ Z) :
    Opens p (p.instantiateWith s bs).2 Z (m.subst (p.instantiateWith s bs).1)
      fun r => (Polytype.chain bs (.mono m)).Inst (s.eval r) := by
  induction bs generalizing p s Z with
  | nil =>
    have hFree (y : String) (hy : y ∈ (m.subst s).freeVars) : p.Binds y ∧ y ∈ Z := by
      obtain ⟨x, hx, hyx⟩ := Monotype.mem_freeVars_subst.1 hy
      exact hImages x hx y hyx
    refine ⟨.refl hp _ hZ, fun y hy => (hFree y hy).1, fun y hy _ => (hFree y hy).2,
      fun r hr => ⟨hr, Monotype.eval_subst m s r⟩, fun r hr g hg => ?_, .refl _ p⟩
    exact ⟨r, fun _ _ => rfl, hr, (Monotype.eval_subst m s r).trans hg.symm⟩
  | cons b bs ih =>
    -- what the bound of the first binding mentions once its names are replaced was in play before
    have hBound (y : String) (hy : y ∈ (b.bound.type.subst s).freeVars) : p.Binds y ∧ y ∈ Z := by
      obtain ⟨x, hx, hyx⟩ := Polytype.mem_freeVars_subst.1 hy
      exact hImages x (by simp [Polytype.freeVars, hx]) y hyx
    have hBody (x : String) (hx : x ∈ (Polytype.chain bs (.mono m)).freeVars) (hne : x ≠ b.name)
        (y : String) (hy : y ∈ (s.image x).freeVars) : p.Binds y ∧ y ∈ Z :=
      hImages x (by simp [Polytype.freeVars, hx, hne]) y hy
    have hSubst : (b.bound.type.subst s).IsNormal := (hNormal b (by simp)).subst s
    have hCovers : p.Covers (b.bound.type.subst s) := fun y hy => (hBound y hy).1
    have hGrows := newType_grows hLevel ⟨b.bound.kind, b.bound.type.subst s⟩
    have hFirst : Narrows p.level p (p.newType ⟨b.bound.kind, b.bound.type.subst s⟩).2 Z :=
      newType_narrows hp hLevel hSubst hCovers hZ fun y hy => (hBound y hy).2
    simp only [instantiateWith_cons]
    generalize p.newType ⟨b.bound.kind, b.bound.type.subst s⟩ = made at hGrows hFirst
    obtain ⟨x, q⟩ := made
    have hNew : q.Binds x := ⟨_, by rw [hGrows.find?, if_pos rfl]⟩
    have hRest := ih hFirst.wellFormed (by rw [hFirst.level]; exact hLevel) hFirst.closed
      (s := s.insert b.name (.var x)) (fun c hc => hNormal c (List.mem_cons_of_mem b hc))
      fun z hz y hy => by
        rw [Subst.image_insert] at hy
        split_ifs at hy with hzb
        · obtain rfl : y = x := by simpa [Monotype.freeVars] using hy
          exact ⟨hNew, fun hb => absurd hb hGrows.fresh⟩
        · obtain ⟨hb, hyZ⟩ := hBody z hz hzb y hy
          exact ⟨hFirst.binds hb, fun _ => hyZ⟩
    have hLevels : q.level = p.level := hFirst.level
    obtain ⟨hNarrows, hCovered, hAllowed, hSound, hComplete, hDetermines⟩ := hRest
    rw [hLevels] at hNarrows hDetermines
    -- under the replacements so far, the rest of the chain sees the new variable
    have hInst (r : Valuation) (g : Ground) :
        g ∈ (Polytype.chain bs (.mono m)).Inst (Subst.eval (s.insert b.name (.var x)) r) ↔
          g ∈ (Polytype.chain bs (.mono m)).Inst (Function.update (s.eval r) b.name (r x)) := by
      rw [Subst.eval_insert]
      rfl
    refine ⟨hFirst.trans hNarrows, hCovered,
      fun y hy => hFirst.allowed_subset (hAllowed y hy), fun r hr => ?_, fun r hr g hg => ?_,
      hGrows.determines.trans hDetermines fun r hr => (hSound r hr).1⟩
    · -- the value of the new variable is the instance that the first binding of the chain asks for
      obtain ⟨hq, hMem⟩ := hSound r hr
      obtain ⟨hSol, hx⟩ := hGrows.isSolution_iff.1 hq
      rw [Polytype.Inst_subst] at hx
      exact ⟨hSol, r x, hx, (hInst r _).1 hMem⟩
    · -- the new variable takes the given instance of the bound, then the others take theirs
      obtain ⟨i, hi, hg⟩ := hg
      rw [← Polytype.Inst_subst] at hi
      obtain ⟨r₁, hSame, hr₁, hx⟩ := hGrows.exists_solution hp.scoping hCovers hr hi
      obtain ⟨r₂, hSame', hr₂, hEval⟩ := hComplete r₁ hr₁ g <| by
        rw [hInst, hx]
        refine (Polytype.Inst_congr fun z hz => ?_) ▸ hg
        by_cases hzb : z = b.name
        · rw [hzb, Function.update_self, Function.update_self]
        · rw [Function.update_of_ne hzb, Function.update_of_ne hzb]
          exact (Monotype.eval_congr fun y hy => hSame y (hBody z hz hzb y hy).1).symm
      exact ⟨r₂, fun y hy => (hSame' y (hFirst.binds hy)).trans (hSame y hy), hr₂, hEval⟩

theorem Flexible.instantiateWith (hp : p.Flexible) (hLevel : 1 ≤ p.level) {bs : List Binding}
    (hBounds : ∀ b ∈ bs, b.bound.kind = .flexible ∧ b.bound.type.Flexible) (s : Subst) :
    (p.instantiateWith s bs).2.Flexible := by
  induction bs generalizing p s with
  | nil => exact hp
  | cons b bs ih =>
    obtain ⟨hKind, hType⟩ := hBounds b (by simp)
    have hGrows := newType_grows hLevel ⟨b.bound.kind, b.bound.type.subst s⟩
    exact ih (hp.grows hGrows hKind (hType.subst s)) (by rw [hGrows.level]; exact hLevel)
      (fun c hc => hBounds c (List.mem_cons_of_mem b hc)) _

/-! ## An instance of a type -/

/-- An instance of a type, with new variables of the current level. -/
def opened (p : Prefix) (t : Polytype) : Monotype × Prefix :=
  match t.normal.split with
  | (bs, .mono m) => p.instantiate bs m
  | _ => (.var (p.newType .unbounded).1, (p.newType .unbounded).2)

theorem opened_of_split {bs : List Binding} {m : Monotype} (h : t.normal.split = (bs, .mono m)) :
    p.opened t = (m.subst (p.instantiateWith ∅ bs).1, (p.instantiateWith ∅ bs).2) := by
  simp only [opened, h]
  rfl

/-- An instance of a type stands for the ground instances of the type. -/
theorem opened_opens (hp : p.WellFormed) (hLevel : 1 ≤ p.level) {Z : Set String} (hZ : p.Closed Z)
    (hCovers : p.Covers t) (hFree : ∀ x ∈ t.freeVars, x ∈ Z) :
    Opens p (p.opened t).2 Z (p.opened t).1 t.Inst := by
  have hInst (r : Valuation) : t.normal.Inst r = t.Inst r := Polytype.Inst_normal t r
  rcases (Polytype.isNormal_normal t).split_cases with hBottom | ⟨bs, m, hSplit, hChain, hNormal⟩
  · have hOpens := newType_opens hp hLevel hZ (b := .unbounded) trivial (covers_unbounded p)
      fun x hx => by simp [Bound.unbounded, Polytype.freeVars] at hx
    have hOpened : p.opened t = (.var (p.newType .unbounded).1, (p.newType .unbounded).2) := by
      simp only [opened, hBottom, Polytype.split]
    have hSame : Bound.unbounded.type.Inst = t.Inst := by
      funext r
      rw [← hInst, hBottom]
      rfl
    rw [hOpened]
    rwa [hSame] at hOpens
  · rw [opened_of_split hSplit]
    -- at the start nothing is replaced: each name of the chain is read as itself
    have hOpens := instantiateWith_opens hp hLevel hZ (m := m) (s := ∅) hNormal fun x hx y hy => by
      obtain rfl : y = x := by simpa [Monotype.freeVars] using hy
      have hyt : y ∈ t.freeVars := Polytype.freeVars_normal (hChain ▸ hx)
      exact ⟨hCovers y hyt, hFree y hyt⟩
    have hSame : (fun r => (Polytype.chain bs (.mono m)).Inst ((∅ : Subst).eval r)) = t.Inst := by
      funext r
      rw [Subst.eval_empty, ← hChain, hInst]
    rwa [hSame] at hOpens

theorem opened_mono (p : Prefix) (m : Monotype) : p.opened (.mono m) = (m, p) := by
  have hSplit : (Polytype.mono m).normal.split = ([], .mono m) := by
    rw [Polytype.normal_eq_self.2 (Polytype.isNormal_mono m)]
    rfl
  rw [opened_of_split hSplit]
  simp [instantiateWith_nil]

/-- An instance of a type with quantifiers is a function. -/
theorem opened_eq_fn (p : Prefix) (h : t.IsNormal) (hNotMono : t.mono? = none)
    (hNotBottom : t ≠ .bottom) : ∃ a b, (p.opened t).1 = .fn a b := by
  obtain ⟨a, b, hBody⟩ := h.split_body hNotMono hNotBottom
  have hSplit : t.normal.split = (t.split.1, .mono (.fn a b)) := by
    rw [Polytype.normal_eq_self.2 h, ← hBody]
  rw [opened_of_split hSplit]
  exact ⟨_, _, rfl⟩

theorem Flexible.opened (hp : p.Flexible) (hLevel : 1 ≤ p.level) (ht : t.Flexible) :
    (p.opened t).2.Flexible := by
  have hNormal := Polytype.flexible_normal ht
  rcases (Polytype.isNormal_normal t).split_cases with hBottom | ⟨bs, m, hSplit, hChain, -⟩
  · simp only [Prefix.opened, hBottom, Polytype.split]
    exact hp.grows (newType_grows hLevel .unbounded) rfl trivial
  · rw [opened_of_split hSplit]
    rw [hChain] at hNormal
    exact hp.instantiateWith hLevel (Polytype.flexible_of_chain hNormal) ∅

/-! ## The type of what is made up -/

/-- In each solution that is left a type has the given instances, and the solutions that are left are
those under which there are any. -/
structure Typed (p q : Prefix) (t : Polytype) (types : Valuation → Set Ground) : Prop where
  refines : ∀ k, Refines k p q fun r => (types r).Nonempty
  inst : ∀ r, q.IsSolution r → t.Inst r = types r

theorem Typed.refl (p : Prefix) {types : Valuation → Set Ground} (h : ∀ r, t.Inst r = types r) :
    Typed p p t types := by
  refine ⟨fun k => ⟨fun r hr => ⟨hr, ?_⟩, fun r hr _ => ⟨r, fun _ _ => rfl, hr⟩, .refl k p⟩,
    fun r _ => h r⟩
  rw [← h]
  exact t.Inst_nonempty r

/-- What is made up at a level of its own determines a type when the level is left. -/
theorem Opens.typed {Z : Set String} {m : Monotype} {types : Valuation → Set Ground}
    (h : Opens p.enter q Z m types) (hp : p.WellFormed)
    (hTypes : ∀ r r', (∀ x, p.Binds x → r' x = r x) → types r' = types r) :
    Typed p q.leave (q.generalize m).1 types := by
  have hq := h.narrows.wellFormed
  have hLevel : q.level = p.level + 1 := h.narrows.level
  have hPos : 1 ≤ q.level := by omega
  have hBinds {x : String} (hx : p.Binds x) : q.leave.Binds x :=
    (h.narrows.leave hp.owned 0).binds hx
  -- a solution outside comes from one inside
  have inside {r r' : Valuation} (hr' : q.IsSolution r') (hOld : ∀ x, q.leave.Binds x → r' x = r x) :
      p.IsSolution r ∧ m.eval r' ∈ types r := by
    obtain ⟨hSol, hMem⟩ := h.sound r' hr'
    have hSame (x : String) (hx : p.Binds x) : r x = r' x := (hOld x (hBinds hx)).symm
    rw [hTypes r' r hSame]
    exact ⟨(isSolution_enter.1 hSol).congr hp.scoping hSame, hMem⟩
  refine ⟨fun k => ⟨fun r hr => ?_, fun r hr hTypes => ?_, h.determines.leave hp.owned h.narrows k⟩,
    fun r hr => ?_⟩
  · obtain ⟨r', hOld, hr'⟩ := hr.of_leave hq hPos
    obtain ⟨hSol, hMem⟩ := inside hr' hOld
    exact ⟨hSol, _, hMem⟩
  · -- any of the instances does for a solution
    obtain ⟨g, hg⟩ := hTypes
    obtain ⟨r', hSame, hr', -⟩ := h.complete r (isSolution_enter.2 hr) g hg
    exact ⟨r', fun x hx => hSame x (binds_enter.2 hx), hr'.leave hq.owned hPos⟩
  · obtain ⟨r₀, hOld₀, hr₀⟩ := hr.of_leave hq hPos
    ext g
    rw [mem_Inst_generalize hq.owned hq.scoping hq.acyclic hPos h.covers hr]
    constructor
    · rintro ⟨r', hr', hOld, rfl⟩
      exact (inside hr' hOld).2
    · intro hg
      obtain ⟨r', hSame, hr', hEval⟩ := h.complete r (isSolution_enter.2 (inside hr₀ hOld₀).1) g hg
      refine ⟨r', hr', fun x hx => ?_, hEval.symm⟩
      -- the older variables are determined by what was in play before
      obtain ⟨e, he⟩ := hx
      obtain ⟨hFound, hLt⟩ := (hq.owned.find?_leave hPos x e).1 he
      have hAgree (y : String) (e : Entry) (hy : p.enter.find? y = some e) (_ : e.level ≤ p.level) :
          r' y = r₀ y := by
        rw [hSame y ⟨e, hy⟩, hOld₀ y (hBinds (binds_enter.1 ⟨e, hy⟩))]
      rw [h.determines p.level (Nat.lt_succ_self _) r' r₀ hr' hr₀ hAgree x e hFound (by omega),
        hOld₀ x ⟨e, he⟩]

theorem Typed.congr_find? {z : Prefix} {types : Valuation → Set Ground} (h : Typed p q t types)
    (hFind : ∀ x, z.find? x = q.find? x) : Typed p z t types := by
  have hSolution (r : Valuation) : z.IsSolution r ↔ q.IsSolution r := by
    simp only [IsSolution, hFind]
  refine ⟨fun k => ⟨fun r hr => (h.refines k).sound r ((hSolution r).1 hr), fun r hr hTypes => ?_, ?_⟩,
    fun r hr => h.inst r ((hSolution r).1 hr)⟩
  · obtain ⟨r', hSame, hr'⟩ := (h.refines k).complete r hr hTypes
    exact ⟨r', hSame, (hSolution r').2 hr'⟩
  · simpa only [Determines, IsSolution, hFind] using (h.refines k).determines

end Prefix

end Mlf
