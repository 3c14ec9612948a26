import Mlf.Proofs.Solutions

/-!
# Generalization

The search for the variables to quantify lists the variables of the current level that a type
reaches, each after those that its bound mentions. That is the order in which a chain of quantifiers
has to bind them: the chain then stands for the values of the type under all ways to give the listed
variables instances of their bounds.

The order is that of a depth-first walk. A variable is listed when all that its bound mentions has
been looked at; those names are listed by then, or they belong to older levels, because a name that
waits to be listed leads to the one at hand, and bounds do not lead back.

Main results:

* `Polytype.mem_Inst_chain` — the instances of a chain of quantifiers in a right order;
* `mem_generalizable`, `generalizable_ordered` — which variables are quantified, in what order;
* `mem_Inst_generalize` — the instances of a generalized type are the values of the type in the
  solutions of the prefix;
* `freeVars_generalize`, `covers_generalize` — the names that stay free belong to older levels.
-/

namespace Mlf

open Relation

variable {p : Prefix} {t : Polytype} {x : String} {b : Binding} {bs : List Binding}
  {seen : List String} {todo : List Prefix.Task}

/-! ## Chains of quantifiers -/

/-- Bindings of different names, none of which is mentioned by its own bound or by an earlier one. -/
structure Ordered (bs : List Binding) : Prop where
  apart : ∀ b ∈ bs, b.name ∉ b.bound.type.freeVars
  pairwise : bs.Pairwise fun b c => b.name ≠ c.name ∧ c.name ∉ b.bound.type.freeVars

theorem Ordered.tail (h : Ordered (b :: bs)) : Ordered bs :=
  ⟨fun c hc => h.apart c (List.mem_cons_of_mem b hc), (List.pairwise_cons.1 h.pairwise).2⟩

theorem Ordered.head {c : Binding} (h : Ordered (b :: bs)) (hc : c ∈ bs) :
    b.name ≠ c.name ∧ c.name ∉ b.bound.type.freeVars :=
  (List.pairwise_cons.1 h.pairwise).1 c hc

namespace Polytype

/-- The instances of a chain of quantifiers are those of its body where the quantified names have
instances of their bounds. -/
theorem mem_Inst_chain (h : Ordered bs) {r : Valuation} {g : Ground} :
    g ∈ (chain bs t).Inst r ↔ ∃ r', (∀ x, (∀ b ∈ bs, b.name ≠ x) → r' x = r x) ∧
      (∀ b ∈ bs, r' b.name ∈ b.bound.type.Inst r') ∧ g ∈ t.Inst r' := by
  induction bs generalizing r with
  | nil =>
    constructor
    · exact fun hg => ⟨r, fun _ _ => rfl, by simp, hg⟩
    · rintro ⟨r', hSame, -, hg⟩
      rwa [show r' = r from funext fun x => hSame x (by simp)] at hg
  | cons b bs ih =>
    -- the bound of the first name sees neither that name nor the later ones
    have hBound {r' : Valuation} (hSame : ∀ x, (∀ c ∈ b :: bs, c.name ≠ x) → r' x = r x) :
        b.bound.type.Inst r' = b.bound.type.Inst r := by
      refine Inst_congr fun x hx => hSame x fun c hc hcx => ?_
      rcases List.mem_cons.1 hc with rfl | hc
      · exact h.apart c hc (hcx ▸ hx)
      · exact (h.head hc).2 (hcx ▸ hx)
    rw [chain_cons, mem_Inst_all]
    constructor
    · rintro ⟨i, hi, hg⟩
      obtain ⟨r', hSame, hBounds, hg⟩ := (ih h.tail).1 hg
      have hFirst : r' b.name = i := by
        rw [hSame b.name fun c hc => (h.head hc).1.symm, Function.update_self]
      have hRest (x : String) (hx : ∀ c ∈ b :: bs, c.name ≠ x) : r' x = r x := by
        rw [hSame x fun c hc => hx c (List.mem_cons_of_mem b hc),
          Function.update_of_ne (hx b (by simp)).symm]
      refine ⟨r', hRest, fun c hc => ?_, hg⟩
      rcases List.mem_cons.1 hc with rfl | hc
      · rw [hBound hRest, hFirst]
        exact hi
      · exact hBounds c hc
    · -- the value of the first name is an instance of its bound, and the rest is up to the others
      rintro ⟨r', hSame, hBounds, hg⟩
      refine ⟨r' b.name, ?_, (ih h.tail).2 ⟨r', fun x hx => ?_, fun c hc => ?_, hg⟩⟩
      · rw [← hBound hSame]
        exact hBounds b (by simp)
      · by_cases hxb : x = b.name
        · rw [hxb, Function.update_self]
        · rw [Function.update_of_ne hxb]
          exact hSame x (by simpa [Ne.symm hxb] using hx)
      · exact hBounds c (List.mem_cons_of_mem b hc)

theorem mem_freeVars_chain (h : Ordered bs) (hx : x ∈ (chain bs t).freeVars) :
    (∀ b ∈ bs, b.name ≠ x) ∧ (x ∈ t.freeVars ∨ ∃ b ∈ bs, x ∈ b.bound.type.freeVars) := by
  induction bs with
  | nil => exact ⟨by simp, Or.inl hx⟩
  | cons b bs ih =>
    simp only [chain_cons, freeVars, NameSet.mem_union, NameSet.mem_erase] at hx
    rcases hx with hx | ⟨hxb, hx⟩
    · -- from the bound of the first binding, which mentions no name of the chain
      refine ⟨fun c hc hcx => ?_, Or.inr ⟨b, by simp, hx⟩⟩
      rcases List.mem_cons.1 hc with rfl | hc
      · exact h.apart c hc (hcx ▸ hx)
      · exact (h.head hc).2 (hcx ▸ hx)
    · obtain ⟨hNames, hFrom⟩ := ih h.tail hx
      refine ⟨by simpa [Ne.symm hxb] using hNames, hFrom.imp_right ?_⟩
      rintro ⟨c, hc, hcx⟩
      exact ⟨c, List.mem_cons_of_mem b hc, hcx⟩

theorem flexible_chain (ht : t.Flexible)
    (hBounds : ∀ b ∈ bs, b.bound.kind = .flexible ∧ b.bound.type.Flexible) :
    (chain bs t).Flexible := by
  induction bs with
  | nil => exact ht
  | cons b bs ih =>
    obtain ⟨hKind, hType⟩ := hBounds b (by simp)
    exact ⟨hKind, hType, ih fun c hc => hBounds c (List.mem_cons_of_mem b hc)⟩

theorem Inst_quantifyAll (bs : List Binding) (t : Polytype) (r : Valuation) :
    (quantifyAll bs t).Inst r = (chain bs t).Inst r := by
  cases bs with
  | nil => rfl
  | cons b bs => rw [quantifyAll_cons, Inst_normal]

theorem freeVars_quantifyAll (hx : x ∈ (quantifyAll bs t).freeVars) :
    x ∈ (chain bs t).freeVars := by
  cases bs with
  | nil => exact hx
  | cons b bs =>
    rw [quantifyAll_cons] at hx
    exact freeVars_normal hx

theorem isNormal_quantifyAll (bs : List Binding) (h : t.IsNormal) :
    (quantifyAll bs t).IsNormal := by
  cases bs with
  | nil => exact h
  | cons b bs =>
    rw [quantifyAll_cons]
    exact isNormal_normal _

theorem flexible_quantifyAll (h : (chain bs t).Flexible) : (quantifyAll bs t).Flexible := by
  cases bs with
  | nil => exact h
  | cons b bs =>
    rw [quantifyAll_cons]
    exact flexible_normal h

/-- Quantifying a type that is no variable makes no variable of it. -/
theorem normalizeWith_ne_var {m : Monotype} (h : t.split.2 = mono m) (hm : ∀ x, m ≠ .var x)
    (s : Subst) (taken : NameSet) (x : String) : t.normalizeWith s taken ≠ mono (.var x) := by
  -- closing drops the quantifier, puts its bound in place of the body, or keeps it in front
  have hClose {c : Binding} {u : Polytype} (hu : ∀ x, u ≠ mono (.var x)) (x : String) :
      close c u ≠ mono (.var x) := by
    rcases close_cases c u with ⟨-, hEq⟩ | ⟨hVar, -⟩ | ⟨-, -, hEq⟩
    · rw [hEq]
      exact hu x
    · exact absurd hVar (hu c.name)
    · simp [hEq]
  fun_induction normalizeWith t s taken generalizing x with
  | case1 s taken y k c body m hMono ihBound ihBody => exact ihBody h x
  | case2 s taken y k c body inner hCapture z hNotMono ihBound ihBody => exact hClose (ihBody h) x
  | case3 s taken y k c body inner hCapture hNotMono ihBound ihBody => exact hClose (ihBody h) x
  | case4 s taken t hNotAll =>
    cases t with
    | mono m' =>
      obtain rfl : m' = m := by simpa [split] using h
      cases m' with
      | var y => exact absurd rfl (hm y)
      | const c => simp [subst, Monotype.subst]
      | fn p b => simp [subst, Monotype.subst]
    | bottom => simp [split] at h
    | all y k c body => exact absurd rfl (hNotAll y k c body)

theorem split_chain_mono (bs : List Binding) (m : Monotype) :
    (chain bs (mono m)).split = (bs, mono m) := by
  induction bs with
  | nil => rfl
  | cons b bs ih => simp [split, ih]

theorem quantifyAll_ne_var (bs : List Binding) {m : Monotype} (hm : ∀ x, m ≠ .var x) (x : String) :
    quantifyAll bs (mono m) ≠ mono (.var x) := by
  cases bs with
  | nil => simpa [quantifyAll] using hm x
  | cons c bs =>
    rw [quantifyAll_cons, normal_eq_normalizeWith]
    exact normalizeWith_ne_var (by rw [split_chain_mono]) hm ∅ _ x

end Polytype

/-! ## The search -/

namespace Prefix

/-- A variable belongs to the current level. -/
def Current (p : Prefix) (x : String) : Prop := ∃ e, p.find? x = some e ∧ p.level ≤ e.level

/-- The name that a step of the search is about. -/
def Task.name : Task → String
  | visit x => x
  | list b => b.name

/-- The search is no misuse where all that it has to look at is in play: in a scoped prefix it comes
to names in play only. -/
theorem gather_failures (hScoped : p.Scoped) (hBinds : ∀ x, .visit x ∈ todo → p.Binds x) :
    (p.gather todo seen).2 = [] := by
  fun_induction gather p todo seen with
  | case1 seen => rfl
  | case2 seen b rest bs fs hRest ih =>
    rw [hRest] at ih
    exact ih fun x hx => hBinds x (by simp [hx])
  | case3 seen x rest hSeen ih => exact ih fun y hy => hBinds y (by simp [hy])
  | case4 seen x rest hSeen hNone bs fs hRest ih =>
    obtain ⟨e, he⟩ := hBinds x (by simp)
    rw [hNone] at he
    cases he
  | case5 seen x rest hSeen e he hOlder ih => exact ih fun y hy => hBinds y (by simp [hy])
  | case6 seen x rest hSeen e he hCurrent ih =>
    refine ih fun y hy => ?_
    rcases List.mem_append.1 hy with hy | hy
    · -- what a bound mentions is in play
      have hMentions : p.Mentions x y := ⟨e, he, by simpa [Polytype.mem_occurrences] using hy⟩
      exact hScoped.binds hMentions
    · exact hBinds y (List.mem_cons_of_mem _ (by simpa using hy))

theorem gather_failures_of_unbound (hx : .visit x ∈ todo) (hSeen : x ∉ seen)
    (hUnbound : ¬ p.Binds x) : (p.gather todo seen).2 ≠ [] := by
  fun_induction gather p todo seen with
  | case1 seen => simp at hx
  | case2 seen b rest bs fs hRest ih =>
    rw [hRest] at ih
    exact ih (by simpa using hx) hSeen
  | case3 seen y rest hySeen ih =>
    have hxy : x ≠ y := fun hxy => hSeen (hxy ▸ hySeen)
    exact ih (by simpa [hxy] using hx) hSeen
  -- a name that is not in play: whichever it is, the search records a misuse
  | case4 seen y rest hySeen hNone bs fs hRest ih => simp
  | case5 seen y rest hySeen e he hOlder ih =>
    have hxy : x ≠ y := fun hxy => hUnbound ⟨e, hxy ▸ he⟩
    exact ih (by simpa [hxy] using hx) (by simp [hxy, hSeen])
  | case6 seen y rest hySeen e he hCurrent ih =>
    have hxy : x ≠ y := fun hxy => hUnbound ⟨e, hxy ▸ he⟩
    have hxRest : .visit x ∈ rest := by simpa [hxy] using hx
    exact ih (List.mem_append_right _ (List.mem_cons_of_mem _ hxRest)) (by simp [hxy, hSeen])

/-- What the search lists: what waits to be listed, and new variables of the current level that are
reached from what it has to look at. -/
theorem mem_gather (hb : b ∈ (p.gather todo seen).1) :
    .list b ∈ todo ∨ (b.name ∉ seen ∧ p.Current b.name ∧
      (∃ e, p.find? b.name = some e ∧ e.bound = b.bound) ∧
      ∃ x, .visit x ∈ todo ∧ p.Reaches x b.name) := by
  fun_induction gather p todo seen with
  | case1 seen => simp at hb
  | case2 seen c rest bs fs hRest ih =>
    rw [hRest] at ih
    rcases List.mem_cons.1 hb with rfl | hb
    · exact Or.inl (by simp)
    · rcases ih hb with h | ⟨hNew, hCur, hEntry, x, hx, hReach⟩
      · exact Or.inl (by simp [h])
      · exact Or.inr ⟨hNew, hCur, hEntry, x, by simp [hx], hReach⟩
  | case3 seen x rest hSeen ih =>
    rcases ih hb with h | ⟨hNew, hCur, hEntry, y, hy, hReach⟩
    · exact Or.inl (by simp [h])
    · exact Or.inr ⟨hNew, hCur, hEntry, y, by simp [hy], hReach⟩
  | case4 seen x rest hSeen hNone bs fs hRest ih =>
    rw [hRest] at ih
    rcases ih hb with h | ⟨hNew, hCur, hEntry, y, hy, hReach⟩
    · exact Or.inl (by simp [h])
    · exact Or.inr ⟨fun h => hNew (by simp [h]), hCur, hEntry, y, by simp [hy], hReach⟩
  | case5 seen x rest hSeen e he hOlder ih =>
    rcases ih hb with h | ⟨hNew, hCur, hEntry, y, hy, hReach⟩
    · exact Or.inl (by simp [h])
    · exact Or.inr ⟨fun h => hNew (by simp [h]), hCur, hEntry, y, by simp [hy], hReach⟩
  | case6 seen x rest hSeen e he hCurrent ih =>
    rcases ih hb with h | ⟨hNew, hCur, hEntry, y, hy, hReach⟩
    · simp only [List.mem_append, List.mem_map, reduceCtorEq, and_false, exists_false, false_or,
        List.mem_cons, Task.list.injEq] at h
      -- the one that waits is the variable itself, which is new
      rcases h with rfl | h
      · exact Or.inr ⟨hSeen, ⟨e, he, by omega⟩, ⟨e, he, rfl⟩, x, by simp, .refl⟩
      · exact Or.inl (by simp [h])
    · refine Or.inr ⟨fun h => hNew (by simp [h]), hCur, hEntry, ?_⟩
      rcases List.mem_append.1 hy with hy | hy
      · have hMentions : p.Mentions x y := ⟨e, he, by simpa [Polytype.mem_occurrences] using hy⟩
        exact ⟨x, by simp, .head hMentions hReach⟩
      · exact ⟨y, List.mem_cons_of_mem _ (by simpa using hy), hReach⟩

theorem mem_gather_of_list (hb : .list b ∈ todo) : b ∈ (p.gather todo seen).1 := by
  fun_induction gather p todo seen with
  | case1 seen => simp at hb
  | case2 seen c rest bs fs hRest ih =>
    rw [hRest] at ih
    simp only [List.mem_cons, Task.list.injEq] at hb
    exact List.mem_cons.2 (hb.imp_right ih)
  | case3 seen x rest hSeen ih => exact ih (by simpa using hb)
  | case4 seen x rest hSeen hNone bs fs hRest ih =>
    rw [hRest] at ih
    exact ih (by simpa using hb)
  | case5 seen x rest hSeen e he hOlder ih => exact ih (by simpa using hb)
  | case6 seen x rest hSeen e he hCurrent ih =>
    exact ih (List.mem_append_right _ (List.mem_cons_of_mem _ (by simpa using hb)))

/-- The search has seen a name, or it comes to list it. -/
def Found (bs : List Binding) (seen : List String) (x : String) : Prop :=
  x ∈ seen ∨ ∃ b ∈ bs, b.name = x

theorem found_cons_of_listed (hb : b.name ∈ seen) : Found (b :: bs) seen x ↔ Found bs seen x := by
  simp only [Found, List.mem_cons, exists_eq_or_imp]
  grind

theorem found_cons_seen {y : String} : Found bs (x :: seen) y ↔ y = x ∨ Found bs seen y := by
  simp only [Found, List.mem_cons, or_assoc]

/-- The search finds the variables of the current level that it has to look at, and ends in a set of
such variables that is closed under mentions, if what it has seen mentions only what it has seen or
has to look at. -/
theorem gather_closed (p : Prefix) (todo : List Task) (seen : List String)
    (hListed : ∀ b, .list b ∈ todo → b.name ∈ seen)
    (h : ∀ x ∈ seen, p.Current x → ∀ y, p.Mentions x y → y ∈ seen ∨ .visit y ∈ todo) :
    (∀ x, p.Current x → .visit x ∈ todo → Found (p.gather todo seen).1 seen x) ∧
      ∀ x y, p.Current x → p.Current y → Found (p.gather todo seen).1 seen x → p.Mentions x y →
        Found (p.gather todo seen).1 seen y := by
  -- a name that is not of the current level may be counted as seen
  have skip {x : String} {rest : List Task} {seen : List String} {bs : List Binding}
      (hx : ¬ p.Current x)
      (ih : (∀ y, p.Current y → .visit y ∈ rest → Found bs (x :: seen) y) ∧
        ∀ y z, p.Current y → p.Current z → Found bs (x :: seen) y → p.Mentions y z →
          Found bs (x :: seen) z) :
      (∀ y, p.Current y → .visit y ∈ Task.visit x :: rest → Found bs seen y) ∧
        ∀ y z, p.Current y → p.Current z → Found bs seen y → p.Mentions y z → Found bs seen z := by
    have hne {y : String} (hy : p.Current y) : y ≠ x := fun hyx => hx (hyx ▸ hy)
    have hSame {y : String} (hy : p.Current y) : Found bs (x :: seen) y ↔ Found bs seen y := by
      rw [found_cons_seen, or_iff_right (hne hy)]
    refine ⟨fun y hy hTodo => ?_, fun y z hy hz hFound hyz => ?_⟩
    · exact (hSame hy).1 (ih.1 y hy (by simpa [hne hy] using hTodo))
    · exact (hSame hz).1 (ih.2 y z hy hz ((hSame hy).2 hFound) hyz)
  fun_induction gather p todo seen with
  | case1 seen =>
    refine ⟨by simp, fun x y hx hy hFound hxy => ?_⟩
    have hSeen : x ∈ seen := by simpa [Found] using hFound
    exact Or.inl (by simpa using h x hSeen hx y hxy)
  | case2 seen b rest bs fs hRest ih =>
    rw [hRest] at ih
    have hb : b.name ∈ seen := hListed b (by simp)
    obtain ⟨hTodo, hClosed⟩ := ih (fun c hc => hListed c (by simp [hc]))
      fun x hx hCur y hxy => by simpa using h x hx hCur y hxy
    simp only [found_cons_of_listed hb]
    exact ⟨fun x hx hx' => hTodo x hx (by simpa using hx'), hClosed⟩
  | case3 seen x rest hSeen ih =>
    obtain ⟨hTodo, hClosed⟩ := ih (fun c hc => hListed c (by simp [hc]))
      fun y hy hCur z hyz => by
        have := h y hy hCur z hyz
        grind
    refine ⟨fun y hy hy' => ?_, hClosed⟩
    by_cases hyx : y = x
    · exact Or.inl (hyx ▸ hSeen)
    · exact hTodo y hy (by simpa [hyx] using hy')
  | case4 seen x rest hSeen hNone bs fs hRest ih =>
    rw [hRest] at ih
    have hx : ¬ p.Current x := by
      rintro ⟨e, he, -⟩
      rw [hNone] at he
      cases he
    refine skip hx (ih (fun c hc => ?_) fun y hy hCur z hyz => ?_)
    · exact List.mem_cons_of_mem _ (hListed c (by simp [hc]))
    · have := h y (by grind) hCur z hyz
      grind
  | case5 seen x rest hSeen e he hOlder ih =>
    have hx : ¬ p.Current x := by
      rintro ⟨e', he', hLevel⟩
      obtain rfl := Option.some.inj (he.symm.trans he')
      omega
    refine skip hx (ih (fun c hc => ?_) fun y hy hCur z hyz => ?_)
    · exact List.mem_cons_of_mem _ (hListed c (by simp [hc]))
    · have := h y (by grind) hCur z hyz
      grind
  | case6 seen x rest hSeen e he hCurrent ih =>
    obtain ⟨hTodo, hClosed⟩ := ih
      (fun c hc => by
        have := hListed c
        simp only [List.mem_append, List.mem_map, reduceCtorEq, and_false, exists_false, false_or,
          List.mem_cons, Task.list.injEq] at hc this
        rcases hc with rfl | hc
        · simp
        · exact List.mem_cons_of_mem _ (this hc))
      fun y hy hCur z hyz => by
        by_cases hyx : y = x
        · subst hyx
          exact Or.inr (by simpa [Polytype.mem_occurrences] using Or.inl ((mentions_iff he).1 hyz))
        · have := h y (by grind) hCur z hyz
          grind
    -- the variable itself is listed, which does for it what being seen would
    have hSelf : (⟨x, e.bound⟩ : Binding) ∈
        (p.gather (e.bound.type.occurrences.map .visit ++ .list ⟨x, e.bound⟩ :: rest)
          (x :: seen)).1 := mem_gather_of_list (by simp)
    have hSame (y : String) : Found (p.gather (e.bound.type.occurrences.map .visit ++
        .list ⟨x, e.bound⟩ :: rest) (x :: seen)).1 (x :: seen) y ↔
        Found (p.gather (e.bound.type.occurrences.map .visit ++
          .list ⟨x, e.bound⟩ :: rest) (x :: seen)).1 seen y := by
      rw [found_cons_seen, or_iff_right_of_imp]
      rintro rfl
      exact Or.inr ⟨_, hSelf, rfl⟩
    simp only [hSame] at hTodo hClosed
    refine ⟨fun y hy hy' => ?_, hClosed⟩
    by_cases hyx : y = x
    · exact Or.inr ⟨_, hSelf, hyx.symm⟩
    · exact hTodo y hy (by simpa [hyx] using Or.inr hy')

/-! ## The order of the list -/

/-- Each variable that waits to be listed does so after all that its bound mentions has been looked
at; the names `done` have been. -/
def Ready : (done : List String) → List Task → Prop
  | _, [] => True
  | done, .visit x :: rest => Ready (x :: done) rest
  | done, .list b :: rest => (∀ y ∈ b.bound.type.freeVars, y ∈ done) ∧ Ready done rest

theorem Ready.mono {done done' : List String} (h : Ready done todo)
    (hMore : ∀ x ∈ done, x ∈ done') : Ready done' todo := by
  induction todo generalizing done done' with
  | nil => trivial
  | cons task rest ih =>
    cases task with
    | visit x => exact ih (show Ready (x :: done) rest from h) (by grind)
    | list b => exact ⟨fun y hy => hMore y (h.1 y hy), ih h.2 hMore⟩

theorem ready_visits {done xs : List String} {rest : List Task} :
    Ready done (xs.map .visit ++ rest) ↔ Ready (xs.reverse ++ done) rest := by
  induction xs generalizing done with
  | nil => rfl
  | cons x xs ih =>
    simp only [List.map_cons, List.cons_append, Ready, ih, List.reverse_cons, List.append_assoc,
      List.nil_append]

/-- What holds between the steps that are left and the names that have been seen. -/
structure Pending (p : Prefix) (todo : List Task) (seen : List String) : Prop where
  /-- A variable waits to be listed after it has been seen. -/
  listed : ∀ b, .list b ∈ todo → b.name ∈ seen ∧ ∃ e, p.find? b.name = some e ∧ e.bound = b.bound
  /-- A variable that waits to be listed leads to what comes before it. -/
  nested : todo.Pairwise fun s t => ∀ c, t = .list c → TransGen p.Mentions c.name s.name
  ready : Ready seen todo

theorem Pending.tail {task : Task} {seen' : List String} (h : p.Pending (task :: todo) seen)
    (hMore : ∀ x ∈ seen, x ∈ seen') (hTask : ∀ x, task = .visit x → x ∈ seen') :
    p.Pending todo seen' where
  listed b hb := by
    obtain ⟨hSeen, hEntry⟩ := h.listed b (List.mem_cons_of_mem task hb)
    exact ⟨hMore _ hSeen, hEntry⟩
  nested := (List.pairwise_cons.1 h.nested).2
  ready := by
    have hReady := h.ready
    cases task with
    | visit x => exact Ready.mono (show Ready (x :: seen) todo from hReady) (by grind)
    | list b => exact hReady.2.mono hMore

/-- Putting what a bound mentions in front of the variable itself keeps all as it should be: the
variable leads to each of these names, and so does whatever waits for the variable. -/
theorem Pending.push {e : Entry} (h : p.Pending (.visit x :: todo) seen) (he : p.find? x = some e) :
    p.Pending (e.bound.type.occurrences.map .visit ++ .list ⟨x, e.bound⟩ :: todo) (x :: seen) where
  listed b hb := by
    simp only [List.mem_append, List.mem_map, reduceCtorEq, and_false, exists_false, false_or,
      List.mem_cons, Task.list.injEq] at hb
    rcases hb with rfl | hb
    · exact ⟨by simp, e, he, rfl⟩
    · obtain ⟨hSeen, hEntry⟩ := h.listed b (by simp [hb])
      exact ⟨List.mem_cons_of_mem x hSeen, hEntry⟩
  -- visits ask nothing of each other, and all stand in front of the variable that leads to them
  nested := by
    have hAfter := List.pairwise_cons.1 h.nested
    refine List.pairwise_append.2 ⟨?_, ?_, ?_⟩
    · exact List.pairwise_map.2 (List.pairwise_of_forall fun _ _ _ => nofun)
    · exact List.pairwise_cons.2 ⟨fun t ht c htc => hAfter.1 t ht c htc, hAfter.2⟩
    · intro s hs t ht c htc
      obtain ⟨y, hy, rfl⟩ := List.mem_map.1 hs
      -- the variable mentions each name that is put in front of it
      have hxy : p.Mentions x y := ⟨e, he, Polytype.mem_occurrences.1 hy⟩
      subst htc
      simp only [List.mem_cons, Task.list.injEq] at ht
      rcases ht with rfl | ht
      · exact .single hxy
      · exact (hAfter.1 _ ht c rfl).tail hxy
  ready := by
    refine ready_visits.2 ⟨fun y hy => ?_, ?_⟩
    · exact List.mem_append_left _ (List.mem_reverse.2 (Polytype.mem_occurrences.2 hy))
    · exact Ready.mono (show Ready (x :: seen) todo from h.ready) (by grind)

/-- The search lists each variable after what its bound mentions. -/
theorem gather_ordered (hAcyclic : p.Acyclic) (h : p.Pending todo seen) :
    Ordered (p.gather todo seen).1 := by
  fun_induction gather p todo seen with
  | case1 seen => exact ⟨by simp, .nil⟩
  | case2 seen b rest bs fs hRest ih =>
    rw [hRest] at ih
    have hTail : Ordered bs := ih (h.tail (fun _ => id) (by simp))
    obtain ⟨hSeen, e, he, hBound⟩ := h.listed b (by simp)
    have hMentions {y : String} (hy : y ∈ b.bound.type.freeVars) : p.Mentions b.name y :=
      ⟨e, he, hBound ▸ hy⟩
    refine ⟨fun c hc => ?_, List.pairwise_cons.2 ⟨fun c hc => ?_, hTail.pairwise⟩⟩
    · rcases List.mem_cons.1 hc with rfl | hc
      · exact fun hy => hAcyclic _ (.single (hMentions hy))
      · exact hTail.apart c hc
    · have hLater : .list c ∈ rest ∨ c.name ∉ seen := by
        have := mem_gather (show c ∈ (p.gather rest seen).1 by rwa [hRest])
        grind
      rcases hLater with hWaits | hNew
      · -- what still waits leads here
        have hLeads := (List.pairwise_cons.1 h.nested).1 _ hWaits c rfl
        exact ⟨fun hEq => hAcyclic _ (hEq ▸ hLeads),
          fun hy => hAcyclic _ (.head (hMentions hy) hLeads)⟩
      · -- a variable that is not seen yet is neither this one nor mentioned by it
        exact ⟨fun hEq => hNew (hEq ▸ hSeen), fun hy => hNew (h.ready.1 _ hy)⟩
  | case3 seen x rest hSeen ih =>
    refine ih (h.tail (fun _ => id) fun y hy => ?_)
    cases hy
    exact hSeen
  | case4 seen x rest hSeen hNone bs fs hRest ih =>
    rw [hRest] at ih
    refine ih (h.tail (by grind) fun y hy => ?_)
    cases hy
    simp
  | case5 seen x rest hSeen e he hOlder ih =>
    refine ih (h.tail (by grind) fun y hy => ?_)
    cases hy
    simp
  | case6 seen x rest hSeen e he hCurrent ih => exact ih (h.push he)

theorem generalizable_ordered (hAcyclic : p.Acyclic) (t : Polytype) :
    Ordered (p.generalizable t).1 := by
  refine gather_ordered hAcyclic ⟨by simp, ?_, ?_⟩
  · exact List.pairwise_map.2 (List.pairwise_of_forall fun _ _ _ => nofun)
  · have hReady : Ready [] (t.occurrences.map .visit ++ []) := ready_visits.2 trivial
    simpa using hReady

/-! ## Which variables are quantified -/

theorem Scoped.current (h : p.Scoped) {y : String} (hx : p.Binds x) (hxy : p.Reaches x y)
    (hy : p.Current y) : p.Current x := by
  obtain ⟨e, he⟩ := hx
  obtain ⟨e', he', hLevel⟩ := hy
  exact ⟨e, he, Nat.le_trans hLevel (h.reaches_level he hxy he')⟩

/-- A type is quantified over the variables of the current level that it reaches, with the bounds
that they have. -/
theorem mem_generalizable (hScoped : p.Scoped) (hCovers : p.Covers t) :
    b ∈ (p.generalizable t).1 ↔
      (∃ e, p.find? b.name = some e ∧ e.bound = b.bound ∧ p.level ≤ e.level) ∧
        ∃ x ∈ t.freeVars, p.Reaches x b.name := by
  have hFound {b : Binding} (hb : b ∈ (p.generalizable t).1) :
      (∃ e, p.find? b.name = some e ∧ e.bound = b.bound ∧ p.level ≤ e.level) ∧
        ∃ x ∈ t.freeVars, p.Reaches x b.name := by
    rcases mem_gather hb with h | ⟨-, ⟨e, he, hLevel⟩, ⟨e', he', hBound⟩, x, hx, hReach⟩
    · simp at h
    · obtain rfl := Option.some.inj (he.symm.trans he')
      exact ⟨⟨e, he, hBound, hLevel⟩, x, by simpa [Polytype.mem_occurrences] using hx, hReach⟩
  refine ⟨hFound, ?_⟩
  rintro ⟨⟨e, he, hBound, hLevel⟩, x, hx, hReach⟩
  obtain ⟨hTodo, hClosed⟩ := gather_closed p (t.occurrences.map .visit) []
    (by simp) (by simp)
  -- along a way to a variable of the current level, all belong to that level
  have hName {y : String} (hxy : p.Reaches x y) (hy : p.Current y) :
      Found (p.generalizable t).1 [] y := by
    induction hxy with
    | refl => exact hTodo x hy (by simpa [Polytype.mem_occurrences] using hx)
    | @tail y z hxy hyz ih =>
      have hCur : p.Current y :=
        hScoped.current (hScoped.reaches_binds (hCovers x hx) hxy) (.single hyz) hy
      exact hClosed y z hCur hy (ih hCur) hyz
  obtain ⟨c, hc, hcb⟩ : ∃ c ∈ (p.generalizable t).1, c.name = b.name := by
    simpa [Found] using hName hReach ⟨e, he, hLevel⟩
  obtain ⟨⟨e', he', hBound', -⟩, -⟩ := hFound hc
  rw [hcb] at he'
  obtain rfl := Option.some.inj (he.symm.trans he')
  obtain rfl : c = b := by
    cases b
    cases c
    simp_all
  exact hc

theorem generalize_eq (hScoped : p.Scoped) (hCovers : p.Covers t) :
    p.generalize t = (.quantifyAll (p.generalizable t).1 t, p) := by
  have hNone : (p.generalizable t).2 = [] := by
    refine gather_failures hScoped fun x hx => hCovers x ?_
    simpa [Polytype.mem_occurrences] using hx
  simp only [generalize, hNone, failAll_nil]

/-- Generalization is misused exactly where a type mentions a name that is not in play. -/
theorem generalize_failures_iff (hScoped : p.Scoped) :
    (p.generalize t).2.failures = p.failures ↔ p.Covers t := by
  refine ⟨fun h x hx => ?_, fun h => by rw [generalize_eq hScoped h]⟩
  by_contra hUnbound
  have hSome : (p.generalizable t).2 ≠ [] := gather_failures_of_unbound (x := x)
    (by simpa [Polytype.mem_occurrences] using hx) (by simp) hUnbound
  have hAll : (p.generalize t).2.failures = p.failures ++ (p.generalizable t).2 :=
    failures_failAll p _
  rw [h] at hAll
  exact hSome (List.self_eq_append_right.1 hAll)

/-- What stays free in a generalized type belongs to an older level. -/
theorem freeVars_generalize (hScoped : p.Scoped) (hAcyclic : p.Acyclic) (hCovers : p.Covers t)
    (hx : x ∈ (p.generalize t).1.freeVars) :
    (∃ e, p.find? x = some e ∧ e.level < p.level) ∧ ∃ y ∈ t.freeVars, p.Reaches y x := by
  rw [generalize_eq hScoped hCovers] at hx
  obtain ⟨hNames, hFrom⟩ := Polytype.mem_freeVars_chain (generalizable_ordered hAcyclic t)
    (Polytype.freeVars_quantifyAll hx)
  -- free in the body, or in the bound of something that was found
  have hReached : ∃ y ∈ t.freeVars, p.Reaches y x := by
    rcases hFrom with hx | ⟨b, hb, hx⟩
    · exact ⟨x, hx, .refl⟩
    · obtain ⟨⟨e, he, hBound, -⟩, y, hy, hReach⟩ := (mem_generalizable hScoped hCovers).1 hb
      exact ⟨y, hy, .tail hReach ⟨e, he, hBound ▸ hx⟩⟩
  obtain ⟨y, hy, hReach⟩ := hReached
  obtain ⟨e, he⟩ := hScoped.reaches_binds (hCovers y hy) hReach
  refine ⟨⟨e, he, ?_⟩, y, hy, hReach⟩
  by_contra hLevel
  exact hNames ⟨x, e.bound⟩ ((mem_generalizable hScoped hCovers).2
    ⟨⟨e, he, rfl, Nat.le_of_not_lt hLevel⟩, y, hy, hReach⟩) rfl

/-- A generalized type is over the variables that are left with the level. -/
theorem covers_generalize (hp : p.WellFormed) (hLevel : 1 ≤ p.level) (hCovers : p.Covers t) :
    p.leave.Covers (p.generalize t).1 := by
  intro x hx
  obtain ⟨⟨e, he, hLt⟩, -⟩ := freeVars_generalize hp.scoping hp.acyclic hCovers hx
  exact ⟨e, (hp.owned.find?_leave hLevel x e).2 ⟨he, hLt⟩⟩

/-- The instances of a generalized type, where the variables of older levels have values that solve
their bounds: the instances of the type in the solutions that agree on these variables. -/
theorem mem_Inst_generalize (hOwned : p.Owned) (hScoped : p.Scoped) (hAcyclic : p.Acyclic)
    (hLevel : 1 ≤ p.level) (hCovers : p.Covers t) {r : Valuation} (hr : p.leave.IsSolution r)
    {g : Ground} :
    g ∈ (p.generalize t).1.Inst r ↔ ∃ r', p.IsSolution r' ∧
      (∀ x, p.leave.Binds x → r' x = r x) ∧ g ∈ t.Inst r' := by
  have hMem {b : Binding} := mem_generalizable hScoped hCovers (b := b)
  have hFind := hOwned.find?_leave hLevel
  have hLeave := hScoped.leave hOwned hLevel
  have hOlder {x : String} {e : Entry} (he : p.find? x = some e) :
      p.leave.Binds x ↔ e.level < p.level := by
    constructor
    · rintro ⟨e', he'⟩
      obtain ⟨he', hLt⟩ := (hFind x e').1 he'
      rwa [Option.some.inj (he.symm.trans he')]
    · exact fun hLt => ⟨e, (hFind x e).2 ⟨he, hLt⟩⟩
  rw [generalize_eq hScoped hCovers, Polytype.Inst_quantifyAll,
    Polytype.mem_Inst_chain (generalizable_ordered hAcyclic t)]
  constructor
  · rintro ⟨r', hSame, hBounds, hg⟩
    -- the variables of older levels and the quantified ones mention only each other
    let Z : Set String := {x | p.leave.Binds x ∨ ∃ y ∈ t.freeVars, p.Reaches y x}
    have hOld (x : String) (hx : p.leave.Binds x) : r' x = r x := by
      refine hSame x fun b hb hbx => ?_
      obtain ⟨⟨e, he, -, hCurrent⟩, -⟩ := hMem.1 hb
      rw [hbx] at he
      exact absurd ((hOlder he).1 hx) (Nat.not_lt.2 hCurrent)
    have hSolved : p.SolvedOn r' Z := by
      intro x hx e he
      by_cases hxOld : p.leave.Binds x
      · have he' : p.leave.find? x = some e := (hFind x e).2 ⟨he, (hOlder he).1 hxOld⟩
        have hInst : e.bound.type.Inst r' = e.bound.type.Inst r :=
          Polytype.Inst_congr fun y hy => hOld y (hLeave.binds ⟨e, he', hy⟩)
        rw [hInst, hOld x hxOld]
        exact hr x e he'
      · have hCurrent := Nat.not_lt.1 ((hOlder he).not.1 hxOld)
        exact hBounds ⟨x, e.bound⟩ (hMem.2 ⟨⟨e, he, rfl, hCurrent⟩, hx.resolve_left hxOld⟩)
    have hClosed : ∀ x ∈ Z, ∀ y, p.Mentions x y → y ∈ Z := by
      rintro x (hx | ⟨z, hz, hzx⟩) y hxy
      · obtain ⟨e, he⟩ := hx
        exact Or.inl (hLeave.binds
          ⟨e, he, (mentions_iff ((hFind x e).1 he).1).1 hxy⟩)
      · exact Or.inr ⟨z, hz, hzx.tail hxy⟩
    obtain ⟨r'', hKeep, hSolution⟩ := hSolved.exists_solution hAcyclic hClosed
    refine ⟨r'', hSolution, fun x hx => ?_, ?_⟩
    · rw [hKeep x (Or.inl (Or.inl hx)), hOld x hx]
    · rwa [Polytype.Inst_congr fun x hx => hKeep x (Or.inl (Or.inr ⟨x, hx, .refl⟩))]
  · rintro ⟨r', hSolution, hOld, hg⟩
    -- only the quantified variables take their values from the solution
    classical
    let quantified (x : String) : Prop := ∃ b ∈ (p.generalizable t).1, b.name = x
    let r'' : Valuation := fun x => if quantified x then r' x else r x
    have hAgree (x : String) (hx : ∃ y ∈ t.freeVars, p.Reaches y x) : r'' x = r' x := by
      by_cases hq : quantified x
      · exact if_pos hq
      · obtain ⟨y, hy, hReach⟩ := hx
        obtain ⟨e, he⟩ := hScoped.reaches_binds (hCovers y hy) hReach
        have hxOld : p.leave.Binds x := by
          rw [hOlder he]
          by_contra hCurrent
          exact hq ⟨⟨x, e.bound⟩,
            hMem.2 ⟨⟨e, he, rfl, Nat.not_lt.1 hCurrent⟩, y, hy, hReach⟩, rfl⟩
        rw [hOld x hxOld]
        exact if_neg hq
    refine ⟨r'', fun x hx => if_neg fun ⟨b, hb, hbx⟩ => hx b hb hbx, fun b hb => ?_, ?_⟩
    · obtain ⟨⟨e, he, hBound, -⟩, y, hy, hReach⟩ := hMem.1 hb
      rw [hAgree b.name ⟨y, hy, hReach⟩, ← hBound, Polytype.Inst_congr fun z hz =>
        hAgree z ⟨y, hy, hReach.tail ⟨e, he, hz⟩⟩]
      exact hSolution b.name e he
    · rwa [Polytype.Inst_congr fun x hx => hAgree x ⟨x, hx, .refl⟩]

end Prefix

end Mlf
