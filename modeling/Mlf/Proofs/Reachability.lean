import Mathlib.Data.Fintype.Card
import Mathlib.Data.List.Chain
import Mathlib.Data.Set.Finite.List
import Mathlib.Logic.Relation
import Mlf.Prefix.Resolve
import Mlf.Proofs.NormalForm

/-!
# What variables reach

A variable in play mentions the free names of its bound, and reaches whatever a sequence of mentions
leads to. The walk that decides whether a type reaches a name is exact, also where the mentions form
cycles or lead to names that are not in play.

A prefix is acyclic when no variable reaches itself through at least one mention. Then mentions are
well-founded, since there are finitely many variables, and following the solutions from a variable
ends within as many steps as there are variables.

Solutions alone may be free of cycles where other bounds are not. Replacing the solved variables of a
type remembers the variables on the way from the type to the one at hand, and a solved variable that is
met on its own way is a misuse.

Main results:

* `occurs_iff`, `occurs_iff_exists_path` — the occurs check is reachability;
* `acyclic_of_redirect` — a variable may get a new bound that does not reach it;
* `Acyclic.wellFounded` — induction along mentions;
* `Acyclic.follow_done` — solutions can be followed to their end;
* `resolution_failures_eq_nil` — when replacing solved variables is a misuse.
-/

namespace Mlf

open Relation

variable {p : Prefix} {t : Monotype} {x y : String}

namespace Prefix

/-- Whether a name is in play. -/
def Binds (p : Prefix) (x : String) : Prop := ∃ e, p.find? x = some e

instance (p : Prefix) (x : String) : Decidable (p.Binds x) :=
  decidable_of_iff ((p.find? x).isSome = true) Option.isSome_iff_exists

/-- A variable mentions the free names of its bound. -/
def Mentions (p : Prefix) (x y : String) : Prop :=
  ∃ e, p.find? x = some e ∧ y ∈ e.bound.type.freeVars

/-- A variable reaches the names that a sequence of mentions leads to, itself among them. -/
abbrev Reaches (p : Prefix) : String → String → Prop := ReflTransGen p.Mentions

/-- Whether no variable is reached from its own bound. -/
def Acyclic (p : Prefix) : Prop := ∀ x, ¬ TransGen p.Mentions x x

theorem Mentions.binds (h : p.Mentions x y) : p.Binds x := by
  obtain ⟨e, he, -⟩ := h
  exact ⟨e, he⟩

theorem mem_keys_iff : x ∈ p.entries.keys ↔ p.Binds x := by
  rw [NameMap.mem_keys, NameMap.contains, Option.isSome_iff_exists]
  rfl

theorem mentions_iff {e : Entry} (he : p.find? x = some e) :
    p.Mentions x y ↔ y ∈ e.bound.type.freeVars := by
  constructor
  · rintro ⟨e', he', hy⟩
    obtain rfl : e = e' := Option.some.inj (he.symm.trans he')
    exact hy
  · exact fun hy => ⟨e, he, hy⟩

/-! ## The walk -/

theorem reaches_of_leadsTo {todo seen : List String} (h : p.leadsTo x todo seen = true) :
    ∃ y ∈ todo, p.Reaches y x := by
  fun_induction leadsTo p x todo seen with
  | case1 => cases h
  | case2 rest seen => exact ⟨x, by simp, .refl⟩
  | case3 seen y rest hne hSeen ih =>
    obtain ⟨z, hz, hzx⟩ := ih h
    exact ⟨z, by simp [hz], hzx⟩
  | case4 seen y rest hne hSeen hNone ih =>
    obtain ⟨z, hz, hzx⟩ := ih h
    exact ⟨z, by simp [hz], hzx⟩
  | case5 seen y rest hne hSeen e he ih =>
    obtain ⟨z, hz, hzx⟩ := ih h
    rcases List.mem_append.1 hz with hz | hz
    · -- the name was put on the list for `y`, which mentions it
      exact ⟨y, by simp, .head ⟨e, he, hz⟩ hzx⟩
    · exact ⟨z, by simp [hz], hzx⟩

/-- A walk that does not come to a name ends with names that are closed under mentions and have the
name not among them. What it has seen has to mention only what it has seen or has to do. -/
theorem closed_of_not_leadsTo {todo seen : List String} (h : p.leadsTo x todo seen = false)
    (hx : x ∉ seen) (hSeen : ∀ y ∈ seen, ∀ z, p.Mentions y z → z ∈ seen ∨ z ∈ todo) :
    ∃ S : Set String, (∀ y, y ∈ seen ∨ y ∈ todo → y ∈ S) ∧
      (∀ y ∈ S, ∀ z, p.Mentions y z → z ∈ S) ∧ x ∉ S := by
  fun_induction leadsTo p x todo seen with
  | case1 seen => exact ⟨{y | y ∈ seen}, by simp, by simpa using hSeen, hx⟩
  | case2 => cases h
  | case3 seen y rest hne hy ih =>
    obtain ⟨S, hKeep, hRest⟩ := ih h hx (by grind)
    exact ⟨S, fun z hz => hKeep z (by grind), hRest⟩
  | case4 seen y rest hne hy hNone ih =>
    obtain ⟨S, hKeep, hRest⟩ := ih h (by grind) fun w hw z hwz => by
      rcases List.mem_cons.1 hw with rfl | hw
      · -- a name that is not in play mentions nothing
        obtain ⟨e, he, -⟩ := hwz
        rw [hNone] at he
        cases he
      · have := hSeen w hw z hwz
        grind
    exact ⟨S, fun z hz => hKeep z (by grind), hRest⟩
  | case5 seen y rest hne hy e he ih =>
    obtain ⟨S, hKeep, hRest⟩ := ih h (by grind) fun w hw z hwz => by
      rcases List.mem_cons.1 hw with rfl | hw
      · -- what the variable mentions has just been put on the list
        exact Or.inr (List.mem_append_left _ ((mentions_iff he).1 hwz))
      · have := hSeen w hw z hwz
        grind
    exact ⟨S, fun z hz => hKeep z (by grind), hRest⟩

/-- The occurs check finds exactly the names that a type reaches. -/
theorem occurs_iff {t : Polytype} : p.occurs x t = true ↔ ∃ y ∈ t.freeVars, p.Reaches y x := by
  refine ⟨reaches_of_leadsTo, ?_⟩
  rintro ⟨y, hy, hyx⟩
  by_contra hNot
  obtain ⟨S, hKeep, hClosed, hx⟩ :=
    closed_of_not_leadsTo (Bool.eq_false_iff.2 hNot) List.not_mem_nil (by simp)
  -- what is reached does not leave the closed names
  have hMem {z : String} (hyz : p.Reaches y z) : z ∈ S := by
    induction hyz with
    | refl => exact hKeep y (Or.inr hy)
    | tail _ hMentions ih => exact hClosed _ ih _ hMentions
  exact hx (hMem hyx)

/-- The occurs check is right on every prefix, also where bounds lead in circles or mention names
that are not in play: it holds exactly if there is a finite sequence of names that starts with a
free name of the type, ends with the given one, and goes from each name to one that its bound
mentions. -/
theorem occurs_iff_exists_path (p : Prefix) (x : String) (t : Polytype) :
    p.occurs x t = true ↔ ∃ path : List String, (∃ y ∈ t.freeVars, path.head? = some y) ∧
      path.getLast? = some x ∧ path.IsChain p.Mentions := by
  have hEnd (y : String) (rest : List String) :
      (y :: rest).getLast? = some ((y :: rest).getLast (List.cons_ne_nil y rest)) :=
    List.getLast?_eq_getLast_of_ne_nil _
  rw [occurs_iff]
  constructor
  · rintro ⟨y, hy, hReaches⟩
    -- a sequence of mentions as a list, and back
    obtain ⟨rest, hChain, hLast⟩ := List.exists_isChain_cons_of_relationReflTransGen hReaches
    exact ⟨y :: rest, ⟨y, hy, rfl⟩, by rw [hEnd, hLast], hChain⟩
  · rintro ⟨path, ⟨y, hy, hHead⟩, hLast, hChain⟩
    cases path with
    | nil => cases hHead
    | cons z rest =>
      obtain rfl : z = y := Option.some.inj hHead
      rw [hEnd] at hLast
      exact ⟨z, hy, List.relationReflTransGen_of_exists_isChain_cons rest hChain
        (Option.some.inj hLast)⟩

/-! ## Cycles -/

/-- Redirecting the mentions of `x` to names that do not lead to `x` makes no cycle. -/
theorem acyclic_of_redirect {old new : String → String → Prop}
    (hAcyclic : ∀ a, ¬ TransGen old a a) (hSame : ∀ a b, a ≠ x → new a b → old a b)
    (hApart : ∀ b, new x b → ¬ ReflTransGen old b x) : ∀ a, ¬ TransGen new a a := by
  -- a new path is an old one, or it passes through `x` and goes on along an old one
  have path {a b : String} (h : TransGen new a b) :
      TransGen old a b ∨ (ReflTransGen old a x ∧ ∃ y, new x y ∧ ReflTransGen old y b) := by
    induction h with
    | @single b hab =>
      by_cases hax : a = x
      · subst hax
        exact Or.inr ⟨.refl, b, hab, .refl⟩
      · exact Or.inl (.single (hSame a b hax hab))
    | @tail b c _ hbc ih =>
      by_cases hbx : b = x
      · subst hbx
        rcases ih with h | ⟨-, y, hy, hyx⟩
        · exact Or.inr ⟨h.to_reflTransGen, c, hbc, .refl⟩
        · exact absurd hyx (hApart y hy)
      · have hOld := hSame b c hbx hbc
        rcases ih with h | ⟨hax, y, hy, hyb⟩
        · exact Or.inl (.tail h hOld)
        · exact Or.inr ⟨hax, y, hy, .tail hyb hOld⟩
  intro a ha
  rcases path ha with h | ⟨hax, y, hy, hya⟩
  · exact hAcyclic a h
  · exact hApart y hy (hya.trans hax)

theorem Acyclic.not_reaches (h : p.Acyclic) (hxy : p.Mentions x y) : ¬ p.Reaches y x :=
  fun hyx => h x (.head' hxy hyx)

/-- There are finitely many variables, so a relation that leads on from variables only, and makes no
cycle, comes to an end. -/
theorem wellFounded_of_acyclic {r : String → String → Prop} (hBinds : ∀ x y, r x y → p.Binds x)
    (hAcyclic : ∀ x, ¬ TransGen r x x) : WellFounded fun y x => r x y := by
  let Var := { x // x ∈ p.entries.keys }
  have : Finite Var := (List.finite_toSet p.entries.keys).to_subtype
  have : IsTrans Var fun y x => TransGen r x.1 y.1 := ⟨fun _ _ _ hab hbc => hbc.trans hab⟩
  have : Std.Irrefl fun y x : Var => TransGen r x.1 y.1 := ⟨fun x => hAcyclic x.1⟩
  have hVars := Finite.wellFounded_of_trans_of_irrefl fun y x : Var => TransGen r x.1 y.1
  -- nothing leads on from a name that is not in play
  have hFree {x : String} (hx : ¬ p.Binds x) : Acc (fun y x => r x y) x :=
    .intro x fun y hy => absurd (hBinds x y hy) hx
  have hBound (x : Var) : Acc (fun y x => r x y) x.1 := by
    induction x using hVars.induction with
    | _ x ih =>
      refine .intro _ fun y hy => ?_
      by_cases hb : p.Binds y
      · exact ih ⟨y, mem_keys_iff.2 hb⟩ (.single hy)
      · exact hFree hb
  refine ⟨fun x => ?_⟩
  by_cases hb : p.Binds x
  · exact hBound ⟨x, mem_keys_iff.2 hb⟩
  · exact hFree hb

theorem Acyclic.wellFounded (h : p.Acyclic) : WellFounded fun y x => p.Mentions x y :=
  wellFounded_of_acyclic (fun _ _ => Mentions.binds) h

theorem acyclic_of_wellFounded (h : WellFounded fun y x => p.Mentions x y) : p.Acyclic := by
  intro x
  induction x using h.induction with
  | _ x ih =>
    intro hCycle
    obtain ⟨y, hxy, hyx⟩ := TransGen.head'_iff.1 hCycle
    -- the cycle goes through what its first variable mentions
    exact ih y hxy (.tail' hyx hxy)

/-! ## Following solutions -/

theorem solution?_eq_some {m : Monotype} :
    p.solution? x = some m ↔ ∃ e, p.find? x = some e ∧ e.bound.type = .mono m := by
  unfold solution?
  cases hx : p.find? x with
  | none => simp
  | some e =>
    cases ht : e.bound.type <;> simp [ht, Polytype.mono?]

theorem solution?_eq_none {e : Entry} (he : p.find? x = some e) :
    p.solution? x = none ↔ e.bound.type.mono? = none := by
  simp [solution?, he]

theorem mentions_of_solution? {m : Monotype} (h : p.solution? x = some m) (hy : y ∈ m.freeVars) :
    p.Mentions x y := by
  obtain ⟨e, he, ht⟩ := solution?_eq_some.1 h
  exact ⟨e, he, by rw [ht]; exact hy⟩

/-- Where a walk along solutions that is long enough ends: at a type from which no solution leads
on. -/
theorem follow_top {n : Nat} {m : Monotype} (h : p.follow n t = (m, true)) :
    ∀ x, m = .var x → p.solution? x = none := by
  fun_induction follow p n t with
  | case1 t => simp at h
  | case2 n x hNone =>
    obtain ⟨rfl, -⟩ := by simpa using h
    rintro y hy
    cases hy
    exact hNone
  | case3 n x m' hSome ih => exact ih h
  | case4 n t hNotVar =>
    obtain ⟨rfl, -⟩ := by simpa using h
    exact fun x hx => absurd hx (hNotVar x)

/-- The names at the end of a walk along solutions are reached from those at its start. -/
theorem follow_reaches {n : Nat} (hy : y ∈ (p.follow n t).1.freeVars) :
    ∃ x ∈ t.freeVars, p.Reaches x y := by
  fun_induction follow p n t with
  | case1 t => exact ⟨y, hy, .refl⟩
  | case2 n x hNone => exact ⟨y, hy, .refl⟩
  | case3 n x m hSome ih =>
    obtain ⟨z, hz, hzy⟩ := ih hy
    exact ⟨x, by simp [Monotype.freeVars], .head (mentions_of_solution? hSome hz) hzy⟩
  | case4 n t hNotVar => exact ⟨y, hy, .refl⟩

/-- A walk along solutions that is cut off has gone through as many variables as it had steps, each
mentioning the next. -/
theorem follow_cut {n : Nat} (h : (p.follow n t).2 = false) :
    ∃ xs : List String, xs.length = n ∧ xs.IsChain p.Mentions ∧ (∀ x ∈ xs, p.Binds x) ∧
      ∀ x ∈ xs.head?, t = .var x := by
  fun_induction follow p n t with
  | case1 t => exact ⟨[], rfl, .nil, by simp, by simp⟩
  | case2 n x hNone => simp at h
  | case3 n x m hSome ih =>
    obtain ⟨xs, hLength, hChain, hBinds, hHead⟩ := ih h
    obtain ⟨e, he, ht⟩ := solution?_eq_some.1 hSome
    refine ⟨x :: xs, by simp [hLength], ?_, ?_, by simp⟩
    · -- the solution led on, so it is a variable: the next one
      refine List.isChain_cons.2 ⟨fun y hy => ⟨e, he, ?_⟩, hChain⟩
      rw [ht, hHead y hy]
      simp [Polytype.freeVars, Monotype.freeVars]
    · rintro y hy
      rcases List.mem_cons.1 hy with rfl | hy
      · exact ⟨e, he⟩
      · exact hBinds y hy
  | case4 n t hNotVar => simp at h

/-- In an acyclic prefix, solutions can be followed to their end. -/
theorem Acyclic.follow_done (h : p.Acyclic) (t : Monotype) :
    (p.follow (p.size + 1) t).2 = true := by
  by_contra hCut
  obtain ⟨xs, hLength, hChain, hBinds, -⟩ := follow_cut (by simpa using hCut)
  -- the variables on the way are all different, so there are too many of them
  have hPairs : xs.Pairwise (TransGen p.Mentions) :=
    List.isChain_iff_pairwise.1 (hChain.imp fun _ _ => .single)
  have hNodup : xs.Nodup := hPairs.imp fun {a b} hab => by
    rintro rfl
    exact h a hab
  have hSubset : xs ⊆ p.entries.keys := fun x hx => mem_keys_iff.2 (hBinds x hx)
  have hLe : xs.length ≤ p.entries.keys.length := (hNodup.subperm hSubset).length_le
  simp only [NameMap.keys, List.length_map] at hLe
  simp only [size, NameMap.size] at hLength
  omega

/-- The type at the end of the solutions from a type. -/
def top (p : Prefix) (t : Monotype) : Monotype := (p.follow (p.size + 1) t).1

theorem Acyclic.solution?_top (h : p.Acyclic) (hx : p.top t = .var x) : p.solution? x = none := by
  have hDone := h.follow_done t
  exact follow_top (Prod.ext rfl hDone) x hx

/-! ## Solutions that lead in a circle -/

section Circles

variable {p : Prefix} {m : Monotype} {x y : String} {path names : List String}

/-- The solution of a variable mentions a name. -/
def SolvedOver (p : Prefix) (x y : String) : Prop :=
  ∃ m, p.solution? x = some m ∧ y ∈ m.freeVars

/-- No solution leads back to the variable that it is for. Bounds that are no solutions may. -/
def Untangled (p : Prefix) : Prop := ∀ x, ¬ TransGen p.SolvedOver x x

theorem SolvedOver.mentions (h : p.SolvedOver x y) : p.Mentions x y := by
  obtain ⟨m, hm, hy⟩ := h
  exact mentions_of_solution? hm hy

theorem Acyclic.untangled (h : p.Acyclic) : p.Untangled := by
  intro x hx
  have hLe : p.SolvedOver ≤ p.Mentions := fun _ _ => SolvedOver.mentions
  exact h x (TransGen.mono hLe x x hx)

theorem Untangled.wellFounded (h : p.Untangled) : WellFounded fun y x => p.SolvedOver x y :=
  wellFounded_of_acyclic (fun _ _ hxy => hxy.mentions.binds) h

/-- Solutions lead from a name to a solved variable of the path, or into a circle. -/
def Tangles (p : Prefix) (path : List String) (x : String) : Prop :=
  ∃ y, ReflTransGen p.SolvedOver x y ∧
    (y ∈ path ∧ p.solution? y ≠ none ∨ TransGen p.SolvedOver y y)

theorem not_tangles_of_unsolved (hx : p.solution? x = none) : ¬ p.Tangles path x := by
  have hEnd (y : String) : ¬ p.SolvedOver x y := by
    rintro ⟨m, hm, -⟩
    rw [hx] at hm
    cases hm
  rintro ⟨y, hxy, hEither⟩
  -- so the way ends where it starts
  rw [reflTransGen_iff_eq hEnd] at hxy
  subst hxy
  rcases hEither with ⟨-, hSolved⟩ | hCircle
  · exact hSolved hx
  · obtain ⟨z, hz, -⟩ := TransGen.head'_iff.1 hCircle
    exact hEnd z hz

/-- A solved variable that is not on the path tangles if, with the variable on the path, a name of
its solution does: the circle may close at the variable itself. -/
theorem tangles_iff_of_solved (hm : p.solution? x = some m) (hx : x ∉ path) :
    p.Tangles path x ↔ ∃ y ∈ m.freeVars, p.Tangles (x :: path) y := by
  have hStep {y : String} : p.SolvedOver x y ↔ y ∈ m.freeVars := by
    simp [SolvedOver, hm]
  constructor
  · intro h
    obtain ⟨z, hxz, hEither⟩ := h
    rcases hxz.cases_head with rfl | ⟨y, hxy, hyz⟩
    · -- the path does not end here, so there is a circle through the variable
      have hCircle := hEither.resolve_left fun hPath => hx hPath.1
      obtain ⟨y, hxy, hyx⟩ := TransGen.head'_iff.1 hCircle
      exact ⟨y, hStep.1 hxy, x, hyx, Or.inl ⟨List.mem_cons_self, by simp [hm]⟩⟩
    · refine ⟨y, hStep.1 hxy, z, hyz, hEither.imp_left ?_⟩
      exact And.imp_left (List.mem_cons_of_mem x)
  · intro h
    obtain ⟨y, hy, z, hyz, hEither⟩ := h
    have hxy := hStep.2 hy
    -- the variable at which the path is met may be this one, and then it is on a circle
    rcases hEither with ⟨hPath, hSolved⟩ | hCircle
    · rcases List.mem_cons.1 hPath with rfl | hPath
      · exact ⟨z, .refl, Or.inr (.head' hxy hyz)⟩
      · exact ⟨z, .head hxy hyz, Or.inl ⟨hPath, hSolved⟩⟩
    · exact ⟨z, .head hxy hyz, Or.inr hCircle⟩

/-- The search for solutions is free of misuse exactly if none of the names tangles with its path.
-/
theorem resolution_failures_eq_nil :
    (p.resolution path names).2 = [] ↔ ∀ x ∈ names, ¬ p.Tangles path x := by
  fun_induction Prefix.resolution p path names with
  | case1 path => simp
  | case2 path x rest hNone ih =>
    rw [ih, List.forall_mem_cons, and_iff_right (not_tangles_of_unsolved hNone)]
  | case3 path x rest m hSome hPath s fs hRest ih =>
    have hTangles : p.Tangles path x := ⟨x, .refl, Or.inl ⟨hPath, by simp [hSome]⟩⟩
    simp [hTangles]
  | case4 path x rest m hSome hPath inner fs hInner s gs hRest ihInner ihRest =>
    rw [hInner] at ihInner
    rw [hRest] at ihRest
    -- the solution of the variable is free of misuse if the variable tangles with nothing
    have hHere : fs = [] ↔ ¬ p.Tangles path x := by
      rw [ihInner, tangles_iff_of_solved hSome hPath]
      simp
    rw [List.append_eq_nil_iff, hHere, ihRest, List.forall_mem_cons]

theorem tangles_nil :
    p.Tangles [] x ↔ ∃ y, ReflTransGen p.SolvedOver x y ∧ TransGen p.SolvedOver y y := by
  simp [Tangles]

theorem Untangled.not_tangles (h : p.Untangled) (x : String) : ¬ p.Tangles [] x := by
  rw [tangles_nil]
  rintro ⟨y, -, hCircle⟩
  exact h y hCircle

end Circles

end Prefix

end Mlf
