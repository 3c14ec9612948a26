import Mathlib
import Mlf.Proofs.NormalChains
import Mlf.Proofs.OpenedChains
import Mlf.Proofs.Quantified
import Mlf.Proofs.QuantifierOrder

/-!
# Instances that are generalized again

An instance of a type has a new variable of the current level for each quantifier in front. To
generalize the instance is to turn these variables into quantifiers again. Each of them is found, since
a quantifier of a normal form is used in the body or in the bound of a later one, and nothing else is
found, since the other names of the type belong to older levels.

What may change is the order. The quantifiers come back in the order in which the search comes to them,
which is a right one for their bounds but need not be the one that they had. A type that comes back from
the search is in that order already, and from then on it stays the same.

Main results:

* `Reorders` — types with the same quantifiers in another order;
* `Adds.mem_generalizable_iff` — generalization finds the new variables of an instance;
* `Adds.generalize_eq`, `Adds.generalize_of_listed` — the way back, and of a type that is in order;
* `roundTrip_reorders` — what the way there and back does.
-/

namespace Mlf

variable {V : Type}

namespace Polytype

/-- The second type is the first one with other names for its quantified variables, and with the
quantifiers in front in another order. As before, each comes after those that its bound mentions. -/
def Reorders (s t : Polytype) : Prop :=
  ∃ cs ds m, (chain cs (mono m)).alphaEq [] s = true ∧ Ordered cs ∧ ds.Perm cs ∧ Ordered ds ∧
    t = chain ds (mono m)

theorem SameReading.quantifiers_eq {F G : String → V} {t u : Polytype} (h : SameReading F G t u) :
    t.quantifiers = u.quantifiers := by
  induction h with
  | mono _ => rfl
  | bottom => rfl
  | all _ _ ihb iht => rw [quantifiers, quantifiers, ihb, iht]

theorem SameReading.length_split {F G : String → V} {t u : Polytype} (h : SameReading F G t u) :
    t.split.1.length = u.split.1.length := by
  induction h with
  | mono _ => rfl
  | bottom => rfl
  | all _ _ _ iht => exact congrArg (· + 1) iht

theorem Reorders.quantifiers_eq {s t : Polytype} (h : s.Reorders t) :
    t.quantifiers = s.quantifiers := by
  obtain ⟨cs, ds, m, hAlpha, -, hPerm, -, rfl⟩ := h
  have hSame : SameReading id id (chain cs (mono m)) s :=
    sameReading_of_nameless_eq (alphaEq_iff.1 hAlpha)
  rw [← hSame.quantifiers_eq, quantifiers_chain, quantifiers_chain]
  exact congrArg (· + 0) (hPerm.map _).sum_eq

theorem Reorders.length_split {s t : Polytype} (h : s.Reorders t) :
    t.split.1.length = s.split.1.length := by
  obtain ⟨cs, ds, m, hAlpha, -, hPerm, -, rfl⟩ := h
  have hSame : SameReading id id (chain cs (mono m)) s :=
    sameReading_of_nameless_eq (alphaEq_iff.1 hAlpha)
  rw [← hSame.length_split, split_chain_mono, split_chain_mono]
  exact hPerm.length_eq

/-- The body of a normal form with quantifiers is no variable. -/
theorem IsNormal.ne_var_of_chain {bs : List Binding} {m : Monotype}
    (h : (chain bs (mono m)).IsNormal) (hne : bs ≠ []) (x : String) : m ≠ .var x := by
  obtain ⟨c, bs, rfl⟩ := List.exists_cons_of_ne_nil hne
  obtain ⟨a, b, hBody⟩ := h.split_body rfl (by simp)
  rw [split_chain_mono] at hBody
  cases hBody
  simp

end Polytype

namespace Prefix

open Polytype

variable {p q : Prefix} {bs cs : List Binding} {m : Monotype}

/-- A prefix with a current level, where a type of an older level can be instantiated: bounds mention
variables in play of no younger level and do not lead in a circle, and the free names of the type
belong to levels older than the current one. -/
structure Hosts (p : Prefix) (t : Polytype) : Prop where
  scoping : p.Scoped
  acyclic : p.Acyclic
  level : 1 ≤ p.level
  older : ∀ x ∈ t.freeVars, ∃ e, p.find? x = some e ∧ e.level < p.level

theorem Hosts.covers {t : Polytype} (h : p.Hosts t) : p.Covers t := by
  intro x hx
  obtain ⟨e, he, -⟩ := h.older x hx
  exact ⟨e, he⟩

theorem Hosts.of_shape_eq {t u : Polytype} (h : p.Hosts t) (hShape : u.shape = t.shape) :
    p.Hosts u :=
  ⟨h.scoping, h.acyclic, h.level, fun x hx => h.older x ((mem_freeVars_of_shape_eq hShape).1 hx)⟩

/-! ## The new variables -/

/-- What a chain of quantifiers mentions is one of its own names, or is free in it. -/
theorem Hosts.name_or_older (h : p.Hosts (chain cs (mono m))) {x : String}
    (hx : x ∈ m.freeVars ∨ ∃ c ∈ cs, x ∈ c.bound.type.freeVars) :
    (∃ c ∈ cs, c.name = x) ∨ ∃ e, p.find? x = some e ∧ e.level < p.level := by
  by_cases hName : ∃ c ∈ cs, c.name = x
  · exact Or.inl hName
  · have hNames : ∀ c ∈ cs, c.name ≠ x := fun c hc hcx => hName ⟨c, hc, hcx⟩
    refine Or.inr (h.older x ?_)
    rcases hx with hx | ⟨c, hc, hx⟩
    · exact mem_freeVars_chain_of_body hx hNames
    · exact mem_freeVars_chain_of_bound hc hx hNames

theorem Adds.scoped (h : p.Adds q cs) (hHosts : p.Hosts (chain cs (mono m))) : q.Scoped := by
  intro x e he y hy
  by_cases hx : ∃ c ∈ cs, c.name = x
  · obtain ⟨c, hc, rfl⟩ := hx
    obtain rfl := Option.some.inj ((h.new c hc).symm.trans he)
    rcases hHosts.name_or_older (Or.inr ⟨c, hc, hy⟩) with ⟨d, hd, rfl⟩ | ⟨e', he', hOlder⟩
    · exact ⟨_, h.new d hd, Nat.le_refl _⟩
    · exact ⟨e', (h.find?_of_binds ⟨e', he'⟩).trans he', hOlder.le⟩
  · rw [h.old x fun c hc hcx => hx ⟨c, hc, hcx⟩] at he
    obtain ⟨e', he', hLevel⟩ := hHosts.scoping x e he y hy
    exact ⟨e', (h.find?_of_binds ⟨e', he'⟩).trans he', hLevel⟩

/-- What was there before leads to nothing new. -/
theorem Adds.acc_of_binds (h : p.Adds q cs) (hHosts : p.Hosts (chain cs (mono m))) {x : String}
    (hx : p.Binds x) : Acc (fun y x => q.Mentions x y) x := by
  induction x using hHosts.acyclic.wellFounded.induction with
  | _ x ih =>
    refine .intro x fun y hxy => ?_
    rw [Mentions, h.find?_of_binds hx] at hxy
    exact ih y hxy (hHosts.scoping.binds hxy)

/-- The bounds of the new variables lead to earlier ones, and out to what was there before. -/
theorem Adds.acc_of_mem (h : p.Adds q cs) (hHosts : p.Hosts (chain cs (mono m)))
    {before after : List Binding} (hcs : cs = before ++ after)
    (hBefore : ∀ b ∈ before, Acc (fun y x => q.Mentions x y) b.name) :
    ∀ c ∈ after, Acc (fun y x => q.Mentions x y) c.name := by
  induction after generalizing before with
  | nil => simp
  | cons c after ih =>
    have hc : c ∈ cs := by simp [hcs]
    have hFirst : Acc (fun y x => q.Mentions x y) c.name := by
      refine .intro _ fun y hy => ?_
      rw [mentions_iff (h.new c hc)] at hy
      rcases hHosts.name_or_older (Or.inr ⟨c, hc, hy⟩) with ⟨d, hd, rfl⟩ | ⟨e, he, -⟩
      · -- the bound of `c` mentions `d`, which therefore stands before `c`
        have hOrdered := h.ordered
        rw [hcs] at hOrdered hd
        obtain ⟨b, hb, hName⟩ := List.mem_map.1 (hOrdered.mem_before hy (List.mem_map_of_mem hd))
        rw [← hName]
        exact hBefore b hb
      · exact h.acc_of_binds hHosts ⟨e, he⟩
    have hNext : cs = (before ++ [c]) ++ after := by simp [hcs]
    refine List.forall_mem_cons.2 ⟨hFirst, ih hNext fun b hb => ?_⟩
    rcases List.mem_append.1 hb with hb | hb
    · exact hBefore b hb
    · rwa [List.mem_singleton.1 hb]

theorem Adds.acyclic (h : p.Adds q cs) (hHosts : p.Hosts (chain cs (mono m))) : q.Acyclic := by
  refine acyclic_of_wellFounded ⟨fun x => ?_⟩
  by_cases hx : ∃ c ∈ cs, c.name = x
  · obtain ⟨c, hc, rfl⟩ := hx
    exact h.acc_of_mem hHosts (List.nil_append cs).symm (by simp) c hc
  by_cases hBinds : p.Binds x
  · exact h.acc_of_binds hHosts hBinds
  · -- a name that is not in play mentions nothing
    refine .intro x fun y hxy => ?_
    obtain ⟨e, he⟩ := hxy.binds
    rw [h.old x fun c hc hcx => hx ⟨c, hc, hcx⟩] at he
    exact absurd ⟨e, he⟩ hBinds

theorem Adds.not_current (h : p.Adds q cs) {x : String} {e : Entry} (he : p.find? x = some e)
    (hOlder : e.level < p.level) : ¬ q.Current x := by
  rintro ⟨e', he', hLevel⟩
  rw [h.find?_of_binds ⟨e, he⟩, he] at he'
  obtain rfl := Option.some.inj he'
  rw [h.level] at hLevel
  omega

theorem Adds.covers (h : p.Adds q cs) (hHosts : p.Hosts (chain cs (mono m))) : q.Covers m := by
  intro x hx
  rcases hHosts.name_or_older (Or.inl hx) with ⟨c, hc, rfl⟩ | ⟨e, he, -⟩
  · exact ⟨_, h.new c hc⟩
  · exact h.binds ⟨e, he⟩

/-! ## The way back -/

/-- A quantifier of a normal form is used in the body, or in the bound of a later one. -/
theorem exists_reaches_of_isNormal (hOrdered : Ordered cs)
    (hEntries : ∀ c ∈ cs, ∃ e, q.find? c.name = some e ∧ e.bound = c.bound)
    (hNormal : (chain cs (mono m)).IsNormal) :
    ∀ c ∈ cs, ∃ x ∈ m.freeVars, q.Reaches x c.name := by
  induction cs with
  | nil => simp
  | cons c cs ih =>
    obtain ⟨-, -, hUsed, -, hRest⟩ := hNormal
    have hLater := ih hOrdered.tail (fun d hd => hEntries d (List.mem_cons_of_mem c hd)) hRest
    refine List.forall_mem_cons.2 ⟨?_, hLater⟩
    rcases (mem_freeVars_chain hOrdered.tail hUsed).2 with hBody | ⟨d, hd, hBound⟩
    · exact ⟨c.name, hBody, .refl⟩
    · obtain ⟨x, hx, hReach⟩ := hLater d hd
      obtain ⟨e, he, hEq⟩ := hEntries d (List.mem_cons_of_mem c hd)
      exact ⟨x, hx, hReach.tail ⟨e, he, by rwa [hEq]⟩⟩

/-- A way from an instance to a variable of the current level stays among the new ones. -/
theorem Adds.exists_name (h : p.Adds q cs) (hHosts : p.Hosts (chain cs (mono m))) {x y : String}
    (hx : x ∈ m.freeVars) (hReach : q.Reaches x y) (hy : q.Current y) : ∃ c ∈ cs, c.name = y := by
  induction hReach with
  | refl =>
    rcases hHosts.name_or_older (Or.inl hx) with hName | ⟨e, he, hOlder⟩
    · exact hName
    · exact absurd hy (h.not_current he hOlder)
  | @tail y z _ hyz ih =>
    -- what leads to the current level is on it
    obtain ⟨c, hc, rfl⟩ := ih ((h.scoped hHosts).current hyz.binds (.single hyz) hy)
    rw [mentions_iff (h.new c hc)] at hyz
    rcases hHosts.name_or_older (Or.inr ⟨c, hc, hyz⟩) with hName | ⟨e, he, hOlder⟩
    · exact hName
    · exact absurd hy (h.not_current he hOlder)

/-- Generalization finds the new variables of an instance and no others. -/
theorem Adds.mem_generalizable_iff (h : p.Adds q cs) (hHosts : p.Hosts (chain cs (mono m)))
    (hNormal : (chain cs (mono m)).IsNormal) {b : Binding} :
    b ∈ (q.generalizable m).1 ↔ b ∈ cs := by
  rw [mem_generalizable (h.scoped hHosts) (h.covers hHosts)]
  constructor
  · -- what is found is of the current level, and so it is one of the new variables
    rintro ⟨⟨e, he, hBound, hLevel⟩, x, hx, hReach⟩
    obtain ⟨c, hc, hcb⟩ := h.exists_name hHosts hx hReach ⟨e, he, hLevel⟩
    have hFind := h.new c hc
    rw [hcb, he] at hFind
    obtain rfl := Option.some.inj hFind
    have hEq : c = b := by
      obtain ⟨name, bound⟩ := c
      obtain ⟨name', bound'⟩ := b
      simp_all
    exact hEq ▸ hc
  · -- a new variable is found, since the normal form has a use for it
    intro hb
    exact ⟨⟨_, h.new b hb, rfl, h.level.le⟩, exists_reaches_of_isNormal h.ordered
      (fun c hc => ⟨_, h.new c hc, rfl⟩) hNormal b hb⟩

/-- An instance is generalized to its new variables, in the order in which the search comes to them.
-/
theorem Adds.generalize_eq (h : p.Adds q cs) (hHosts : p.Hosts (chain cs (mono m)))
    (hNormal : (chain cs (mono m)).IsNormal) :
    (q.generalizable m).1.Perm cs ∧ (chain (q.generalizable m).1 (mono m)).IsNormal ∧
      q.generalize m = (chain (q.generalizable m).1 (mono m), q) := by
  have hMem {b : Binding} := h.mem_generalizable_iff hHosts hNormal (b := b)
  have hOrdered := generalizable_ordered (h.acyclic hHosts) m
  -- both lists are in order, so that no name is in one of them twice
  have hPerm : (q.generalizable m).1.Perm cs :=
    (List.perm_ext_iff_of_nodup hOrdered.nodup.of_map h.ordered.nodup.of_map).2 fun b => hMem
  have hBack : (chain (q.generalizable m).1 (mono m)).IsNormal := by
    -- without quantifiers the body may be a variable
    by_cases hne : cs = []
    · subst hne
      rw [hPerm.eq_nil]
      trivial
    · have hBody : (mono m).Unquantified := by simp [Unquantified]
      obtain ⟨hBounds, hNotMono, -, -⟩ := (isNormal_chain_iff hBody).1 hNormal
      refine isNormal_chain (hNormal.ne_var_of_chain hne) (listed_generalizable q m) fun b hb => ?_
      exact ⟨hBounds b (hMem.1 hb), hNotMono b (hMem.1 hb)⟩
  refine ⟨hPerm, hBack, ?_⟩
  rw [Prefix.generalize_eq (h.scoped hHosts) (h.covers hHosts), quantifyAll_of_isNormal hBack]

/-- Quantifiers that are in order come back as they are. -/
theorem Adds.generalize_of_listed (h : p.Adds q cs) (hHosts : p.Hosts (chain cs (mono m)))
    (hNormal : (chain cs (mono m)).IsNormal) (hListed : (chain cs (mono m)).Listed) :
    q.generalize m = (chain cs (mono m), q) := by
  have hFound : (q.generalizable m).1 = cs := by
    refine gather_chain hListed h.ordered (fun c hc => ?_) fun x hx => ?_
    · exact ⟨by simp, _, h.new c hc, h.level.le, rfl⟩
    · obtain ⟨e, he, hOlder⟩ := hHosts.older x hx
      exact Or.inr (h.not_current he hOlder)
  rw [(h.generalize_eq hHosts hNormal).2.2, hFound]

/-! ## There and back -/

/-- Instantiates a type, given by the quantifiers in front and the body, and generalizes the
instance. -/
def roundTrip (p : Prefix) (bs : List Binding) (m : Monotype) : Polytype × Prefix :=
  (p.instantiate bs m).2.generalize (p.instantiate bs m).1

/-- A type in normal form comes back in normal form, with its quantifiers in the order of the
search, and the prefix that is left can take it again. -/
theorem Hosts.roundTrip (h : p.Hosts (chain bs (mono m))) (hNormal : (chain bs (mono m)).IsNormal) :
    ∃ ds n, (p.roundTrip bs m).1 = chain ds (mono n) ∧ (chain ds (mono n)).IsNormal ∧
      (chain ds (mono n)).Listed ∧ (chain bs (mono m)).Reorders (chain ds (mono n)) ∧
      (p.roundTrip bs m).2 = (p.instantiate bs m).2 ∧
      (p.roundTrip bs m).2.Hosts (chain ds (mono n)) := by
  obtain ⟨cs, hAdds, hShape, -⟩ := instantiate_adds h.level h.covers
  unfold Prefix.roundTrip
  generalize p.instantiate bs m = opened at hAdds hShape
  obtain ⟨n, q⟩ := opened
  -- the new variables in front of the instance have the free names of the type
  have hHosts := h.of_shape_eq hShape
  have hScoped := hAdds.scoped hHosts
  have hAcyclic := hAdds.acyclic hHosts
  obtain ⟨hPerm, hBack, hEq⟩ := hAdds.generalize_eq hHosts
    ((isNormal_iff_of_nameless_eq (F := id) (G := id) hShape).2 hNormal)
  have hReorders : (chain bs (mono m)).Reorders (chain (q.generalizable n).1 (mono n)) :=
    ⟨cs, _, n, alphaEq_iff.2 hShape, hAdds.ordered, hPerm, generalizable_ordered hAcyclic n, rfl⟩
  refine ⟨_, n, by rw [hEq], hBack, listed_generalizable q n, hReorders, by rw [hEq], ?_⟩
  rw [hEq]
  refine ⟨hScoped, hAcyclic, by rw [hAdds.level]; exact h.level, fun x hx => ?_⟩
  have hFree : x ∈ (q.generalize n).1.freeVars := by rwa [hEq]
  exact (freeVars_generalize hScoped hAcyclic (hAdds.covers hHosts) hFree).1

theorem Hosts.shape_roundTrip (h : p.Hosts (chain bs (mono m)))
    (hNormal : (chain bs (mono m)).IsNormal) (hListed : (chain bs (mono m)).Listed) :
    (p.roundTrip bs m).1.shape = (chain bs (mono m)).shape := by
  obtain ⟨cs, hAdds, hShape, -⟩ := instantiate_adds h.level h.covers
  have hEq := hAdds.generalize_of_listed (h.of_shape_eq hShape)
    ((isNormal_iff_of_nameless_eq (F := id) (G := id) hShape).2 hNormal)
    ((listed_iff_of_nameless_eq (F := id) (G := id) hShape).2 hListed)
  rw [Prefix.roundTrip, hEq, hShape]

/-- To instantiate a type and to generalize the instance gives the same type, up to names and the
order of quantifiers, and the order is canonical. Let a type in normal form with a monotype for its
body have its free names at levels older than the current one. Then generalization leaves the prefix
as it is. What comes back is in normal form, has as many quantifiers, in front and in all, and
differs from the type only in the names of its quantified variables and the order of the quantifiers
in front, where each comes after those that its bound mentions. From there on nothing changes any
more: wherever its free names are at older levels, and so in the prefix that is left, the type comes
back up to names. -/
theorem roundTrip_reorders {p : Prefix} {s : Polytype} (hHosts : p.Hosts s) (hNormal : s.IsNormal)
    {bs : List Binding} {m : Monotype} (hSplit : s.split = (bs, .mono m)) :
    (p.roundTrip bs m).2 = (p.instantiate bs m).2 ∧
    (p.roundTrip bs m).1.IsNormal ∧ (p.roundTrip bs m).1.quantifiers = s.quantifiers ∧
    s.Reorders (p.roundTrip bs m).1 ∧
    (p.roundTrip bs m).2.Hosts (p.roundTrip bs m).1 ∧
    ∃ ds n, (p.roundTrip bs m).1.split = (ds, .mono n) ∧ ds.length = bs.length ∧
      ∀ q : Prefix, q.Hosts (p.roundTrip bs m).1 →
        (q.roundTrip ds n).1.alphaEq [] (p.roundTrip bs m).1 = true ∧
        (q.roundTrip ds n).1.equivalent (p.roundTrip bs m).1 = true := by
  obtain rfl : s = chain bs (mono m) := by
    have hChain := chain_split s
    rw [hSplit] at hChain
    exact hChain.symm
  obtain ⟨ds, n, hEq, hBack, hListed, hReorders, hQuiet, hLeft⟩ := hHosts.roundTrip hNormal
  -- as many quantifiers in front as before
  have hLength := hReorders.length_split
  rw [split_chain_mono, split_chain_mono] at hLength
  rw [hEq]
  refine ⟨hQuiet, hBack, hReorders.quantifiers_eq, hReorders, hLeft, ds, n, split_chain_mono ds n,
    hLength, fun q hq => ?_⟩
  -- what came back is in order, so another round gives it back
  have hShape := hq.shape_roundTrip hBack hListed
  exact ⟨alphaEq_iff.2 hShape, equivalent_iff_norm_eq.2 (by rw [hShape])⟩

/-- The type `∀ a. ∀ (b ≥ ∀ c. c → a). ∀ d. d → b → w`, with `w` of the level outside. The body uses
`d` first, so that its quantifier comes first, and `b` leads to `a`. -/
theorem roundTrip_reorders_dependent : ∃ (p : Prefix) (s : Polytype) (bs : List Binding)
    (m : Monotype), p = (empty.enter.add "w" .unbounded).enter ∧
    bs = [⟨"a", .unbounded⟩,
      ⟨"b", .flexible, .all "c" .flexible .bottom (.mono (.fn (.var "c") (.var "a")))⟩,
      ⟨"d", .unbounded⟩] ∧
    m = .fn (.var "d") (.fn (.var "b") (.var "w")) ∧ s.split = (bs, .mono m) ∧
    s.Reorders (p.roundTrip bs m).1 ∧
    (p.roundTrip bs m).1.split.1.map (fun b => b.bound.type.quantifiers) = [0, 0, 1] ∧
    ∃ ds n, (p.roundTrip bs m).1.split = (ds, .mono n) ∧
      ((p.roundTrip bs m).2.roundTrip ds n).1.equivalent (p.roundTrip bs m).1 = true := by
  let bs : List Binding := [⟨"a", .unbounded⟩,
    ⟨"b", .flexible, .all "c" .flexible .bottom (.mono (.fn (.var "c") (.var "a")))⟩,
    ⟨"d", .unbounded⟩]
  let m : Monotype := .fn (.var "d") (.fn (.var "b") (.var "w"))
  let p := (empty.enter.add "w" .unbounded).enter
  have hWellFormed : p.WellFormed := (wellFormed_empty.enter.add (by decide)).enter
  -- only `w` is free, and it is of the level outside
  have hHosts : p.Hosts (chain bs (mono m)) := by
    refine ⟨hWellFormed.scoping, hWellFormed.acyclic, by decide, fun x hx => ?_⟩
    have hList : (chain bs (mono m)).freeVars.toList = ["w"] := by decide
    rw [← NameSet.mem_toList, hList, List.mem_singleton] at hx
    subst hx
    exact ⟨⟨1, .unbounded⟩, rfl, by decide⟩
  have hNormal : (chain bs (mono m)).IsNormal := normal_eq_self.1 (by cbv)
  obtain ⟨-, -, -, hReorders, hLeft, ds, n, hSplit, -, hAgain⟩ :=
    roundTrip_reorders hHosts hNormal (split_chain_mono bs m)
  refine ⟨p, _, bs, m, rfl, rfl, rfl, split_chain_mono bs m, hReorders, ?_, ds, n, hSplit,
    (hAgain _ hLeft).2⟩
  cbv

end Prefix

end Mlf
