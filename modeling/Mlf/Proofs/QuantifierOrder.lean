import Mathlib.Data.List.TakeWhile
import Mlf.Proofs.Generalization
import Mlf.Proofs.Renaming

/-!
# The order of quantifiers

Generalization lists the quantifiers of a type in the order in which a search comes to them. It goes
through the body from left to right, and at a variable that it has not seen it goes through the bound
first. A type is in order when its quantifiers stand in this order, in all bounds, too.

Whether a quantifier is the first one that the search lists can be told without the search. What the
search meets on the way to the first quantifier of the rest of the type are the names before it on
the way from the body, and then the names of its bound. The quantifier in front is listed before all
others exactly if it is among these.

Main results:

* `lead`, `InOrder` — the names before the first quantifier, and types in order;
* `Listed` — types with the quantifiers in front in order;
* `inOrder_iff_of_shape_eq` — the names of quantified variables play no part;
* `Searching.listed_chain` — what generalization lists is in order;
* `gather_chain` — of a type in order, generalization lists the quantifiers as they are.
-/

namespace Mlf

variable {t u : Polytype} {e : Entry} {seen' : List String}
variable {V : Type}

namespace Polytype

/-- The free names that a search through the type meets before it lists the first quantifier, from
the body on, if the quantifiers are in order. -/
def lead : Polytype → List String
  | mono m => m.occurrencesOutside []
  | bottom => []
  | all x _ b t => t.lead.takeWhile (· ≠ x) ++ b.occurrences

/-- The quantifiers stand in the order in which generalization lists them, also those in bounds. -/
def InOrder : Polytype → Prop
  | all x _ b t => b.InOrder ∧ t.InOrder ∧ x ∈ t.lead
  | _ => True

/-- The quantifiers in front stand in this order, whatever the order in their bounds is. -/
def Listed : Polytype → Prop
  | all x _ _ t => t.Listed ∧ x ∈ t.lead
  | _ => True

instance decidableInOrder : (t : Polytype) → Decidable t.InOrder
  | mono _ => .isTrue trivial
  | bottom => .isTrue trivial
  | all x _ b t =>
    let _ := decidableInOrder b
    let _ := decidableInOrder t
    inferInstanceAs (Decidable (b.InOrder ∧ t.InOrder ∧ x ∈ t.lead))

theorem inOrder_all {x : String} {k : BoundKind} {b : Polytype} :
    (all x k b t).InOrder ↔ b.InOrder ∧ t.InOrder ∧ x ∈ t.lead := Iff.rfl

/-- In the order of their first uses, and the other way round. -/
example : (all "a" .flexible .bottom (all "b" .flexible .bottom
      (mono (.fn (.var "a") (.var "b"))))).InOrder ∧
    ¬ (all "a" .flexible .bottom (all "b" .flexible .bottom
      (mono (.fn (.var "b") (.var "a"))))).InOrder := by decide

theorem mem_freeVars_of_mem_lead {x : String} (h : x ∈ t.lead) : x ∈ t.freeVars := by
  induction t with
  | mono m => exact (Monotype.mem_occurrencesOutside.1 h).2
  | bottom => cases h
  | all y k b t _ iht =>
    simp only [lead, List.mem_append] at h
    rcases h with h | h
    · have hne : x ≠ y := by simpa using List.mem_takeWhile_imp h
      simp [freeVars, iht ((List.takeWhile_sublist _).subset h), hne]
    · simp [freeVars, mem_occurrences.1 h]

/-! ## Names of quantified variables -/

/-- The names before the first use of a quantified one. -/
theorem takeWhile_varUnder (F : String → V) (x : String) (xs : List String) :
    ((xs.map (Reading.varUnder F x)).takeWhile Option.isSome).filterMap id =
      (xs.takeWhile (· ≠ x)).map F := by
  induction xs with
  | nil => rfl
  | cons y xs ih =>
    by_cases hyx : y = x
    · simp [Reading.varUnder, hyx]
    · simpa [Reading.varUnder, hyx] using ih

theorem mem_iff_none_mem_varUnder (F : String → V) (x : String) (xs : List String) :
    x ∈ xs ↔ none ∈ xs.map (Reading.varUnder F x) := by
  simp [Reading.varUnder]

/-- Types with one reading have the same names before the first quantifier. -/
theorem map_lead {F G : String → V}
    (h : t.nameless (fun x => .var (F x)) = u.nameless (fun x => .var (G x))) :
    t.lead.map F = u.lead.map G := by
  replace h := sameReading_of_nameless_eq h
  induction h with
  | mono h => exact Monotype.map_occurrences h
  | bottom => rfl
  | all hBound _ _ iht =>
    rw [lead, lead, List.map_append, List.map_append, map_occurrences hBound.nameless_eq,
      ← takeWhile_varUnder, ← takeWhile_varUnder, iht]

/-- A quantifier is among the names before the next one, for one type as for the other. -/
theorem SameReading.mem_lead_iff {F G : String → V} {x y : String}
    (h : SameReading (Reading.varUnder F x) (Reading.varUnder G y) t u) :
    x ∈ t.lead ↔ y ∈ u.lead := by
  rw [mem_iff_none_mem_varUnder F x, mem_iff_none_mem_varUnder G y, map_lead h.nameless_eq]

theorem inOrder_iff_of_nameless_eq {F G : String → V}
    (h : t.nameless (fun x => .var (F x)) = u.nameless (fun x => .var (G x))) :
    t.InOrder ↔ u.InOrder := by
  replace h := sameReading_of_nameless_eq h
  induction h with
  | mono _ => exact Iff.rfl
  | bottom => exact Iff.rfl
  | all _ hBody ihb iht => exact and_congr ihb (and_congr iht hBody.mem_lead_iff)

/-- Types that agree up to the names of quantified variables are in order together. -/
theorem inOrder_iff_of_shape_eq (h : t.shape = u.shape) : t.InOrder ↔ u.InOrder :=
  inOrder_iff_of_nameless_eq (F := id) (G := id) h

theorem listed_iff_of_nameless_eq {F G : String → V}
    (h : t.nameless (fun x => .var (F x)) = u.nameless (fun x => .var (G x))) :
    t.Listed ↔ u.Listed := by
  replace h := sameReading_of_nameless_eq h
  induction h with
  | mono _ => exact Iff.rfl
  | bottom => exact Iff.rfl
  | all _ hBody _ iht => exact and_congr iht hBody.mem_lead_iff

/-- A chain is in order if the quantifiers in front are, and those in each bound. -/
theorem inOrder_chain {bs : List Binding} {m : Monotype} :
    (chain bs (mono m)).InOrder ↔
      (∀ b ∈ bs, b.bound.type.InOrder) ∧ (chain bs (mono m)).Listed := by
  induction bs with
  | nil => simp [InOrder, Listed]
  | cons b bs ih =>
    rw [chain_cons, inOrder_all, ih, Listed, List.forall_mem_cons]
    tauto

/-- Quantifiers in order are all in use, so that the type is in normal form if its bounds are. -/
theorem isNormal_chain {bs : List Binding} {m : Monotype} (hm : ∀ x, m ≠ .var x)
    (h : (chain bs (mono m)).Listed)
    (hBounds : ∀ b ∈ bs, b.bound.type.IsNormal ∧ b.bound.type.mono? = none) :
    (chain bs (mono m)).IsNormal := by
  induction bs with
  | nil => trivial
  | cons b bs ih =>
    obtain ⟨hRest, hLead⟩ := h
    obtain ⟨hNormal, hNotMono⟩ := hBounds b List.mem_cons_self
    refine ⟨hNormal, hNotMono, mem_freeVars_of_mem_lead hLead, fun hVar => ?_,
      ih hRest fun c hc => hBounds c (List.mem_cons_of_mem b hc)⟩
    -- the body of the chain is no variable, and a quantifier is none either
    cases bs with
    | nil => exact hm b.name (by injection hVar)
    | cons c bs => cases hVar

end Polytype

namespace Prefix

open Polytype

/-! ## The search and what it has met -/

/-- The search through a monotype with the given steps left. The names that it has met are those on
the way from the body to where it is: in the body up to the variable that it has gone into, in the
bound of this variable up to the next one, and so on. -/
inductive Walk (p : Prefix) (m : Monotype) : (met : List String) → List Task → Prop
  | body {met left : List String} (h : met ++ left = m.occurrencesOutside []) :
    Walk p m met (left.map .visit)
  | bound {met met' left : List String} {x : String} {e : Entry} {rest : List Task}
    (h : Walk p m met (.visit x :: rest)) (hx : x ∉ met) (he : p.find? x = some e)
    (hSplit : met' ++ left = e.bound.type.occurrences) :
    Walk p m (met ++ met') (left.map .visit ++ .list ⟨x, e.bound⟩ :: rest)

variable {p : Prefix} {m : Monotype} {met : List String} {todo rest : List Task} {seen : List String}
  {x : String}

theorem Walk.met_of_nil (h : Walk p m met []) : met = m.occurrencesOutside [] := by
  generalize hTodo : ([] : List Task) = todo at h
  cases h with
  | @body _ left h =>
    obtain rfl : left = [] := List.map_eq_nil_iff.1 hTodo.symm
    rw [← h, List.append_nil]
  | bound => simp at hTodo

/-- The search goes past a name. -/
theorem Walk.pass (h : Walk p m met (.visit x :: rest)) : Walk p m (met ++ [x]) rest := by
  generalize hTodo : Task.visit x :: rest = todo at h
  cases h with
  -- in the body itself
  | @body _ left h =>
    cases left with
    | nil => cases hTodo
    | cons y left =>
      obtain ⟨hxy, rfl⟩ := List.cons.inj hTodo
      cases hxy
      exact .body (by rw [List.append_assoc, ← h]; rfl)
  -- in the bound of a variable
  | @bound met met' left y e outer h hy he hSplit =>
    cases left with
    | nil => cases hTodo
    | cons z left =>
      obtain ⟨hxz, rfl⟩ := List.cons.inj hTodo
      cases hxz
      rw [List.append_assoc]
      exact .bound h hy he (by rw [List.append_assoc, ← hSplit]; rfl)

/-- The search goes into the bound of a variable. -/
theorem Walk.enter (h : Walk p m met (.visit x :: rest)) (hx : x ∉ met) (he : p.find? x = some e) :
    Walk p m met (e.bound.type.occurrences.map .visit ++ .list ⟨x, e.bound⟩ :: rest) := by
  have hBound : Walk p m (met ++ []) _ := .bound h hx he rfl
  rwa [List.append_nil] at hBound

/-- The search is through with the bound of a variable. -/
theorem Walk.list {b : Binding} (h : Walk p m met (.list b :: rest)) :
    ∃ before, met = before ++ b.bound.type.occurrences ∧ b.name ∉ before ∧
      Walk p m (before ++ [b.name]) rest := by
  generalize hTodo : Task.list b :: rest = todo at h
  cases h with
  -- nothing is listed while the body is searched
  | @body _ left h =>
    cases left with
    | nil => cases hTodo
    | cons y left => cases hTodo
  | @bound met met' left x e outer h hx he hSplit =>
    cases left with
    | nil =>
      obtain ⟨hb, rfl⟩ := List.cons.inj hTodo
      cases hb
      rw [List.append_nil] at hSplit
      exact ⟨met, by rw [hSplit], hx, h.pass⟩
    | cons z left => cases hTodo

/-- A search on its way: it has seen what it has met, and what waits to be listed. -/
structure Searching (p : Prefix) (m : Monotype) (met : List String) (todo : List Task)
    (seen : List String) : Prop where
  walk : Walk p m met todo
  met : ∀ x ∈ met, x ∈ seen
  listed : ∀ b, .list b ∈ todo → b.name ∈ seen

theorem searching_body (p : Prefix) (m : Monotype) (seen : List String) :
    Searching p m [] ((m.occurrencesOutside []).map .visit) seen :=
  ⟨.body rfl, by simp, by simp⟩

theorem Searching.pass (h : Searching p m met (.visit x :: rest) seen)
    (hMore : ∀ y ∈ seen, y ∈ seen') (hx : x ∈ seen') : Searching p m (met ++ [x]) rest seen' where
  walk := h.walk.pass
  met y hy := by
    rcases List.mem_append.1 hy with hy | hy
    · exact hMore y (h.met y hy)
    · rwa [List.mem_singleton.1 hy]
  listed b hb := hMore _ (h.listed b (List.mem_cons_of_mem _ hb))

theorem Searching.enter (h : Searching p m met (.visit x :: rest) seen) (hx : x ∉ seen)
    (he : p.find? x = some e) :
    Searching p m met (e.bound.type.occurrences.map .visit ++ .list ⟨x, e.bound⟩ :: rest)
      (x :: seen) where
  walk := h.walk.enter (fun hMet => hx (h.met x hMet)) he
  met y hy := List.mem_cons_of_mem x (h.met y hy)
  listed b hb := by
    simp only [List.mem_append, List.mem_map, reduceCtorEq, and_false, exists_false, false_or,
      List.mem_cons, Task.list.injEq] at hb
    -- the variable itself is seen now
    rcases hb with rfl | hb
    · exact List.mem_cons_self
    · exact List.mem_cons_of_mem x (h.listed b (List.mem_cons_of_mem _ hb))

theorem Searching.list {b : Binding} (h : Searching p m met (.list b :: rest) seen) :
    ∃ before, met = before ++ b.bound.type.occurrences ∧ b.name ∉ before ∧
      Searching p m (before ++ [b.name]) rest seen := by
  obtain ⟨before, rfl, hNew, hWalk⟩ := h.walk.list
  refine ⟨before, rfl, hNew, hWalk, fun x hx => ?_, fun c hc => h.listed c (List.mem_cons_of_mem _ hc)⟩
  rcases List.mem_append.1 hx with hx | hx
  · exact h.met x (List.mem_append_left _ hx)
  · rw [List.mem_singleton.1 hx]
    exact h.listed b List.mem_cons_self

/-! ## What is listed is in order -/

/-- The names before the first quantifier, when the search lists a variable and goes on. -/
theorem lead_all {before : List String} {k : BoundKind} {b : Polytype} (hx : x ∉ before)
    (h : before ++ [x] <+: t.lead) : (all x k b t).lead = before ++ b.occurrences := by
  obtain ⟨after, h⟩ := h
  have hBefore : before.takeWhile (· ≠ x) = before := by
    refine List.takeWhile_eq_self_iff.2 fun y hy => ?_
    have hne : y ≠ x := by
      rintro rfl
      exact hx hy
    simpa using hne
  rw [lead, ← h, List.append_assoc, List.takeWhile_append, hBefore, if_pos rfl]
  simp

/-- What the search has met comes first among the names before the first quantifier that it will
list. -/
theorem Searching.prefix_lead (h : Searching p m met todo seen) :
    met <+: (chain (p.gather todo seen).1 (mono m)).lead := by
  fun_induction gather p todo seen generalizing met with
  | case1 seen =>
    rw [h.walk.met_of_nil]
    exact List.prefix_refl _
  -- what was met is cut short where the listed variable comes up first, and its bound is put in the
  -- place of the rest
  | case2 seen b rest bs fs hRest ih =>
    rw [hRest] at ih
    obtain ⟨before, rfl, hNew, hNext⟩ := h.list
    rw [chain_cons, lead_all hNew (ih hNext)]
  | case3 seen x rest hSeen ih =>
    exact (List.prefix_append met [x]).trans (ih (h.pass (fun _ => id) hSeen))
  | case4 seen x rest hSeen hNone bs fs hRest ih =>
    rw [hRest] at ih
    exact (List.prefix_append met [x]).trans
      (ih (h.pass (fun _ => List.mem_cons_of_mem x) List.mem_cons_self))
  | case5 seen x rest hSeen e he hOlder ih =>
    exact (List.prefix_append met [x]).trans
      (ih (h.pass (fun _ => List.mem_cons_of_mem x) List.mem_cons_self))
  | case6 seen x rest hSeen e he hCurrent ih => exact ih (h.enter hSeen he)

/-- Where the search lists a variable, it has met all names before that quantifier. -/
theorem Searching.lead_list {b : Binding} (h : Searching p m met (.list b :: rest) seen) :
    (chain (p.gather (.list b :: rest) seen).1 (mono m)).lead = met := by
  obtain ⟨before, rfl, hNew, hNext⟩ := h.list
  rw [gather]
  exact lead_all hNew hNext.prefix_lead

/-- What the search lists is in order. -/
theorem Searching.listed_chain (h : Searching p m met todo seen) :
    (chain (p.gather todo seen).1 (mono m)).Listed := by
  fun_induction gather p todo seen generalizing met with
  | case1 seen => trivial
  | case2 seen b rest bs fs hRest ih =>
    obtain ⟨before, rfl, -, hNext⟩ := h.list
    have hLead := hNext.prefix_lead
    rw [hRest] at ih hLead
    -- the variable was met on the way to the next quantifier
    exact ⟨ih hNext, hLead.subset (by simp)⟩
  | case3 seen x rest hSeen ih => exact ih (h.pass (fun _ => id) hSeen)
  | case4 seen x rest hSeen hNone bs fs hRest ih =>
    rw [hRest] at ih
    exact ih (h.pass (fun _ => List.mem_cons_of_mem x) List.mem_cons_self)
  | case5 seen x rest hSeen e he hOlder ih =>
    exact ih (h.pass (fun _ => List.mem_cons_of_mem x) List.mem_cons_self)
  | case6 seen x rest hSeen e he hCurrent ih => exact ih (h.enter hSeen he)

theorem listed_generalizable (p : Prefix) (m : Monotype) :
    (chain (p.generalizable m).1 (mono m)).Listed :=
  (searching_body p m []).listed_chain

/-! ## A type in order -/

/-- The variables of the current level that have been seen are the same. -/
def SameSeen (p : Prefix) (seen seen' : List String) : Prop :=
  ∀ x, p.Current x → (x ∈ seen' ↔ x ∈ seen)

theorem SameSeen.refl (p : Prefix) (seen : List String) : p.SameSeen seen seen := fun _ _ => Iff.rfl

theorem SameSeen.symm (h : p.SameSeen seen seen') : p.SameSeen seen' seen :=
  fun x hx => (h x hx).symm

theorem SameSeen.trans {seen'' : List String} (h : p.SameSeen seen seen')
    (h' : p.SameSeen seen' seen'') : p.SameSeen seen seen'' :=
  fun x hx => (h' x hx).trans (h x hx)

theorem SameSeen.cons (h : p.SameSeen seen seen') (x : String) :
    p.SameSeen (x :: seen) (x :: seen') := by
  intro y hy
  rw [List.mem_cons, List.mem_cons, h y hy]

theorem sameSeen_cons (hx : ¬ p.Current x) (seen : List String) : p.SameSeen seen (x :: seen) := by
  intro y hy
  have hne : y ≠ x := by
    rintro rfl
    exact hx hy
  rw [List.mem_cons, or_iff_right hne]

/-- The search goes past a name that is no variable of the current level. -/
theorem gather_visit_of_not_current (hx : ¬ p.Current x) (rest : List Task) (seen : List String) :
    ∃ seen', p.SameSeen seen seen' ∧
      (p.gather (.visit x :: rest) seen).1 = (p.gather rest seen').1 := by
  rw [gather]
  split_ifs with hSeen
  · exact ⟨seen, .refl p seen, rfl⟩
  · split
    · -- not in play: it is noted as seen, which makes no difference
      exact ⟨x :: seen, sameSeen_cons hx seen, rfl⟩
    · next e he =>
      have hOlder : e.level < p.level := Nat.not_le.1 fun hLevel => hx ⟨e, he, hLevel⟩
      rw [if_pos hOlder]
      exact ⟨x :: seen, sameSeen_cons hx seen, rfl⟩

theorem gather_visit_of_mem (hx : x ∈ seen) (rest : List Task) :
    p.gather (.visit x :: rest) seen = p.gather rest seen := by
  rw [gather, dif_pos hx]

theorem gather_visit_of_current (hx : x ∉ seen) (he : p.find? x = some e)
    (hLevel : p.level ≤ e.level) (rest : List Task) :
    p.gather (.visit x :: rest) seen =
      p.gather (e.bound.type.occurrences.map .visit ++ .list ⟨x, e.bound⟩ :: rest) (x :: seen) := by
  rw [gather, dif_neg hx]
  split
  · next hNone =>
    rw [hNone] at he
    cases he
  · next e' he' =>
    cases he.symm.trans he'
    rw [if_neg (by omega)]

/-- Of the names that have been seen, only variables of the current level matter. -/
theorem gather_congr_seen (h : p.SameSeen seen seen') :
    (p.gather todo seen').1 = (p.gather todo seen).1 := by
  -- names of other levels are seen on one side and may have been seen on the other
  have skip {x : String} {rest : List Task} {seen seen' : List String} {bs : List Binding}
      (hx : ¬ p.Current x) (h : p.SameSeen seen seen')
      (ih : ∀ {seen'}, p.SameSeen (x :: seen) seen' → (p.gather rest seen').1 = bs) :
      (p.gather (.visit x :: rest) seen').1 = bs := by
    obtain ⟨seen'', hSame, hEq⟩ := gather_visit_of_not_current hx rest seen'
    rw [hEq, ih ((sameSeen_cons hx seen).symm.trans (h.trans hSame))]
  fun_induction gather p todo seen generalizing seen' with
  | case1 seen => rw [gather]
  | case2 seen b rest bs fs hRest ih =>
    rw [hRest] at ih
    rw [gather]
    exact congrArg (b :: ·) (ih h)
  | case3 seen x rest hSeen ih =>
    by_cases hx : p.Current x
    · rw [gather_visit_of_mem ((h x hx).2 hSeen), ih h]
    · obtain ⟨seen'', hSame, hEq⟩ := gather_visit_of_not_current hx rest seen'
      rw [hEq, ih (h.trans hSame)]
  | case4 seen x rest hSeen hNone bs fs hRest ih =>
    have hx : ¬ p.Current x := by
      rintro ⟨e, he, -⟩
      rw [hNone] at he
      cases he
    rw [hRest] at ih
    exact skip hx h ih
  | case5 seen x rest hSeen e he hOlder ih =>
    have hx : ¬ p.Current x := by
      rintro ⟨e', he', hLevel⟩
      cases he.symm.trans he'
      omega
    exact skip hx h ih
  | case6 seen x rest hSeen e he hCurrent ih =>
    have hx : p.Current x := ⟨e, he, by omega⟩
    rw [gather_visit_of_current (mt (h x hx).1 hSeen) he (by omega), ih (h.cons x)]

/-- The search goes past names that it has seen or that are no variables of the current level. -/
theorem gather_visits {names : List String} (h : ∀ x ∈ names, x ∈ seen ∨ ¬ p.Current x) :
    (p.gather (names.map .visit ++ todo) seen).1 = (p.gather todo seen).1 := by
  induction names with
  | nil => rfl
  | cons x names ih =>
    have hRest := ih fun y hy => h y (List.mem_cons_of_mem x hy)
    rw [List.map_cons, List.cons_append]
    rcases h x List.mem_cons_self with hSeen | hx
    · rw [gather_visit_of_mem hSeen, hRest]
    · obtain ⟨seen', hSame, hEq⟩ := gather_visit_of_not_current hx (names.map .visit ++ todo) seen
      rw [hEq, gather_congr_seen hSame, hRest]

theorem sameSeen_swap (p : Prefix) (x y : String) (seen : List String) :
    p.SameSeen (x :: y :: seen) (y :: x :: seen) := by
  intro z _
  simp only [List.mem_cons]
  exact or_left_comm

/-- To visit a variable of another level is to see it. -/
theorem gather_skip {y : String} (hy : ¬ p.Current y) (x : String) (rest : List Task)
    (seen : List String) :
    (p.gather (.visit y :: rest) (x :: seen)).1 = (p.gather rest (x :: y :: seen)).1 := by
  obtain ⟨seen', hSame, hEq⟩ := gather_visit_of_not_current hy rest (x :: seen)
  rw [hEq, gather_congr_seen hSame, ← gather_congr_seen (sameSeen_cons hy (x :: seen)),
    gather_congr_seen (sameSeen_swap p x y seen)]

/-- A search may have seen one more variable. -/
theorem Searching.see (h : Searching p m met todo seen) (x : String) :
    Searching p m met todo (x :: seen) :=
  ⟨h.walk, fun y hy => List.mem_cons_of_mem x (h.met y hy),
    fun b hb => List.mem_cons_of_mem x (h.listed b hb)⟩

/-- A variable whose bound mentions nothing that could be listed, and which the search would meet
before it lists anything else, is listed first. -/
theorem Searching.gather_cons (h : Searching p m met todo seen) (hx : x ∉ seen)
    (he : p.find? x = some e) (hLevel : p.level ≤ e.level)
    (hLeaf : ∀ y ∈ e.bound.type.freeVars, y ∈ seen ∨ ¬ p.Current y)
    (hLead : x ∈ (chain (p.gather todo (x :: seen)).1 (mono m)).lead) :
    (p.gather todo seen).1 = ⟨x, e.bound⟩ :: (p.gather todo (x :: seen)).1 := by
  -- the name stays new while names of other levels are seen
  have hSelf : p.Current x := ⟨e, he, hLevel⟩
  have apart {y : String} {seen : List String} (hx : x ∉ seen) (hy : ¬ p.Current y) :
      x ∉ y :: seen := by
    have hne : x ≠ y := by
      rintro rfl
      exact hy hSelf
    simp [hne, hx]
  have leaf {seen : List String} (y : String)
      (h : ∀ z ∈ e.bound.type.freeVars, z ∈ seen ∨ ¬ p.Current z) :
      ∀ z ∈ e.bound.type.freeVars, z ∈ y :: seen ∨ ¬ p.Current z :=
    fun z hz => (h z hz).imp_left (List.mem_cons_of_mem y)
  fun_induction gather p todo seen generalizing met with
  -- the search would be over, with the whole body met and the variable not seen
  | case1 seen =>
    rw [gather] at hLead
    exact absurd (h.met x (by rw [h.walk.met_of_nil]; exact hLead)) hx
  -- the search would list another variable first, but then it has met this one
  | case2 seen b rest bs fs hRest ih =>
    rw [(h.see x).lead_list] at hLead
    exact absurd (h.met x hLead) hx
  | case3 seen y rest hSeen ih =>
    rw [gather_visit_of_mem (List.mem_cons_of_mem x hSeen)] at hLead ⊢
    exact ih (h.pass (fun _ => id) hSeen) hx hLeaf hLead
  | case4 seen y rest hSeen hNone bs fs hRest ih =>
    have hy : ¬ p.Current y := by
      rintro ⟨e', he', -⟩
      rw [hNone] at he'
      cases he'
    rw [gather_skip hy] at hLead ⊢
    rw [hRest] at ih
    exact ih (h.pass (fun _ => List.mem_cons_of_mem y) List.mem_cons_self) (apart hx hy) (leaf y hLeaf)
      hLead
  | case5 seen y rest hSeen e' he' hOlder ih =>
    have hy : ¬ p.Current y := by
      rintro ⟨e'', he'', hLevel'⟩
      cases he'.symm.trans he''
      omega
    rw [gather_skip hy] at hLead ⊢
    exact ih (h.pass (fun _ => List.mem_cons_of_mem y) List.mem_cons_self) (apart hx hy) (leaf y hLeaf)
      hLead
  | case6 seen y rest hSeen e' he' hCurrent ih =>
    by_cases hyx : y = x
    · -- here it is, and the search comes back from its bound with nothing listed
      subst hyx
      cases he.symm.trans he'
      have hBound : ∀ z ∈ e.bound.type.occurrences, z ∈ y :: seen ∨ ¬ p.Current z := fun z hz =>
        (hLeaf z (mem_occurrences.1 hz)).imp_left (List.mem_cons_of_mem y)
      rw [gather_visits hBound, gather, gather_visit_of_mem List.mem_cons_self]
    · have hxSeen : x ∉ y :: seen := by simp [Ne.symm hyx, hx]
      have hySeen : y ∉ x :: seen := by simp [hyx, hSeen]
      rw [gather_visit_of_current hySeen he' (by omega),
        gather_congr_seen (sameSeen_swap p x y seen)] at hLead ⊢
      exact ih (h.enter hSeen he') hxSeen (leaf y hLeaf) hLead

/-- Of a type in order with the variables of the current level for its quantifiers, the search lists
the quantifiers as they are. -/
theorem gather_chain {bs : List Binding} (h : (chain bs (mono m)).Listed) (hOrdered : Ordered bs)
    (hEntries : ∀ b ∈ bs, b.name ∉ seen ∧
      ∃ e, p.find? b.name = some e ∧ p.level ≤ e.level ∧ e.bound = b.bound)
    (hFree : ∀ x ∈ (chain bs (mono m)).freeVars, x ∈ seen ∨ ¬ p.Current x) :
    (p.gather ((m.occurrencesOutside []).map .visit) seen).1 = bs := by
  induction bs generalizing seen with
  | nil =>
    have hBody : ∀ x ∈ m.occurrencesOutside [], x ∈ seen ∨ ¬ p.Current x := fun x hx =>
      hFree x (Monotype.mem_occurrencesOutside.1 hx).2
    rw [← List.append_nil (List.map _ _), gather_visits hBody, gather]
  | cons b bs ih =>
    obtain ⟨hRest, hLead⟩ := h
    obtain ⟨hNew, e, he, hLevel, hBound⟩ := hEntries b List.mem_cons_self
    -- once the first quantifier has been seen, the others follow
    have hOthers : (p.gather ((m.occurrencesOutside []).map .visit) (b.name :: seen)).1 = bs := by
      refine ih hRest hOrdered.tail (fun c hc => ?_) fun x hx => ?_
      · obtain ⟨hc', hEntry⟩ := hEntries c (List.mem_cons_of_mem b hc)
        exact ⟨by simp [hc', Ne.symm (hOrdered.head hc).1], hEntry⟩
      · by_cases hxb : x = b.name
        · exact Or.inl (by simp [hxb])
        · exact (hFree x (by simp [freeVars, hx, hxb])).imp_left (List.mem_cons_of_mem _)
    rw [(searching_body p m seen).gather_cons hNew he hLevel
      (fun y hy => hFree y (by simp [freeVars, ← hBound, hy])) (by rwa [hOthers]), hOthers, hBound]

end Prefix

end Mlf
