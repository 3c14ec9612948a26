import Mathlib
import Mlf.Proofs.Twins
import Mlf.Proofs.UnifySteps

/-!
# Unification of a type with a copy of itself

Unification of a type with a copy of itself goes through the two side by side and makes each variable
one with its twin. It reports nothing. What it leaves behind for the common instances of two bounds is
the first of them with its quantifiers listed anew: a type in order, and the same one if it was in
order before.

How the two sides are told apart matters here: the original stays and its twin goes because they have
one level and the original comes first. A run that turns the sides around would name the variables
after the twins.

Main results:

* `Unfolds.generalize` — a type and its copy, generalized when their level is left;
* `PolyRun.tidies` — the common instances of a type and its copy;
* `forward_tidies` — runs on a type and its copy.
-/

namespace Mlf

open Relation Polytype

namespace Prefix

variable {p q : Prefix} {σ τ : String → String} {xs ys : List Binding}

/-! ## Generalization -/

/-- A type over tied names is generalized to a type in order. -/
theorem Twins.generalize_eq (h : q.Twins τ) (hq : q.WellFormed) {m : Monotype}
    (hm : ∀ x, m ≠ .var x) (hCovers : q.Covers m) (hTied : ∀ w ∈ m.freeVars, q.TiedTo τ w) :
    (q.generalize m).1 = chain (q.generalizable m).1 (mono m) ∧ (q.generalize m).1.InOrder := by
  have hBounds (b : Binding) (hb : b ∈ (q.generalizable m).1) :
      b.bound.type.IsNormal ∧ b.bound.type.mono? = none ∧ b.bound.type.InOrder := by
    obtain ⟨⟨e, he, hBound, -⟩, x, hx, hReach⟩ := (mem_generalizable hq.scoping hCovers).1 hb
    -- what tied names lead to is tied
    obtain ⟨e', he', -, hNotMono, hInOrder, -⟩ := h.tied (h.closed_tied.reaches (hTied x hx) hReach)
    obtain rfl := Option.some.inj (he.symm.trans he')
    rw [← hBound]
    exact ⟨hq.normal b.name e he, hNotMono, hInOrder⟩
  have hListed := listed_generalizable q m
  have hNormal := isNormal_chain hm hListed fun b hb => ⟨(hBounds b hb).1, (hBounds b hb).2.1⟩
  rw [Prefix.generalize_eq hq.scoping hCovers, quantifyAll_of_isNormal hNormal]
  exact ⟨rfl, inOrder_chain.2 ⟨fun b hb => (hBounds b hb).2.2, hListed⟩⟩

/-- A type for the common instances of `a` and a copy of it: `a` with its quantifiers listed anew. -/
structure Relists (σ : String → String) (p q : Prefix) (a t : Polytype) : Prop where
  tidies : Tidies σ p q
  unsolved : t.mono? = none
  inOrder : t.InOrder
  names : ∀ x ∈ t.freeVars, q.TiedTo σ x
  same : a.InOrder → t.shape = a.shape

/-- A binding with the bound that its variable has in a prefix. -/
def rebind (s : Prefix) (b : Binding) : Binding :=
  ⟨b.name, ((s.find? b.name).map Entry.bound).getD b.bound⟩

/-- The bound of a new variable when pairs have been made one. -/
theorem Unfolds.find?_rebind {s : Prefix} (h : p.Unfolds q σ τ xs ys) (hTidies : Tidies τ q s)
    {d : Binding} (hd : d ∈ xs) :
    s.find? d.name = some ⟨p.level + 1, (s.rebind d).bound⟩ ∧ (s.rebind d).bound.kind = .flexible ∧
      (d.bound.type.InOrder → (s.rebind d).bound.type.shape = d.bound.type.shape) := by
  -- the variable is the original of a pair, and what is known is about pairs
  obtain ⟨c, hc, hName⟩ := h.exists_twin hd
  have hMoved := (h.twin c hc).2.1
  obtain ⟨ex, ey, hPair⟩ := hTidies.twins.pairs c.name hMoved
  obtain ⟨b, hb, hSame⟩ := hTidies.bounds c.name hMoved _ (hName ▸ (h.original d hd).2.2)
  have hKind := hPair.kind
  rw [Option.some.inj (hPair.original.symm.trans hb)] at hKind
  rw [hName] at hb
  have hRebind : s.rebind d = ⟨d.name, b⟩ := by simp [rebind, hb]
  rw [hRebind]
  exact ⟨hb, hKind, hSame⟩

/-- A type in order is generalized to itself. -/
theorem Unfolds.shape_generalizable {s : Prefix} (h : p.Unfolds q σ τ xs ys) (hTidies : Tidies τ q s)
    (hLevel : s.level = p.level + 1) (hOrdered : Ordered xs)
    (hKinds : ∀ d ∈ xs, d.bound.kind = .flexible) {m : Monotype}
    (hOlder : ∀ x ∈ (chain xs (mono m)).freeVars, ¬ s.Current x)
    (hInOrder : (chain xs (mono m)).InOrder) :
    (chain (s.generalizable m).1 (mono m)).shape = (chain xs (mono m)).shape := by
  obtain ⟨hBounds, hListed⟩ := inOrder_chain.1 hInOrder
  -- with the bounds that the variables have now, the chain is read as it was
  have hShape : (chain (xs.map s.rebind) (mono m)).shape = (chain xs (mono m)).shape := by
    refine nameless_chain_map (fun d hd => ?_) (mono m) .var
    obtain ⟨-, hKind, hSame⟩ := h.find?_rebind hTidies hd
    exact ⟨rfl, hKind.trans (hKinds d hd).symm, hSame (hBounds d hd)⟩
  -- the search finds the variables as they are bound now
  have hFound : (s.generalizable m).1 = xs.map s.rebind := by
    refine gather_chain ((listed_iff_of_nameless_eq (F := id) (G := id) hShape).2 hListed)
      (ordered_map hOrdered ?_) ?_ ?_
    · intro d hd
      obtain ⟨-, -, hSame⟩ := h.find?_rebind hTidies hd
      exact ⟨rfl, hSame (hBounds d hd)⟩
    · intro b hb
      obtain ⟨d, hd, rfl⟩ := List.mem_map.1 hb
      obtain ⟨hFind, -, -⟩ := h.find?_rebind hTidies hd
      exact ⟨by simp, _, hFind, hLevel.le, rfl⟩
    · intro x hx
      exact Or.inr (hOlder x ((mem_freeVars_of_shape_eq hShape).1 hx))
  rw [hFound, hShape]

/-- A type and its copy, unified at a level of their own and generalized when the level is left. -/
theorem Unfolds.generalize {s : Prefix} (h : p.Unfolds q σ τ xs ys) (hTidies : Tidies τ q s)
    (hTwins : p.Twins σ) (hp : p.WellFormed) (hInside : Narrows (p.level + 1) p.enter s Set.univ)
    (hOrdered : Ordered xs) (hKinds : ∀ d ∈ xs, d.bound.kind = .flexible) {m : Monotype}
    (hm : ∀ x, m ≠ .var x) (hCovers : s.Covers m) (hTied : ∀ w ∈ m.freeVars, s.TiedTo τ w)
    {a : Polytype} (ha : a.IsNormal) (haCovers : p.Covers a) (hNotMono : a.mono? = none)
    (hShape : (chain xs (mono m)).shape = a.shape) :
    Relists σ p s.leave a (s.generalize m).1 := by
  -- the level of the pair is the one that is left
  have hs := hInside.wellFormed
  have hLevel : s.level = p.level + 1 := hInside.level
  obtain ⟨hEq, hInOrder⟩ := hTidies.twins.generalize_eq hs hm hCovers hTied
  refine ⟨h.leave hTidies hTwins hp hs hLevel, ?_, hInOrder, fun x hx => ?_, fun haInOrder => ?_⟩
  · -- the innermost quantifier is used, so that there is something to list
    have hne : xs ≠ [] := by
      rintro rfl
      have hMono := (show (mono m).Copies id a from hShape).mono?
      rw [hNotMono] at hMono
      cases hMono
    have hNormal : (chain xs (mono m)).IsNormal :=
      (isNormal_iff_of_nameless_eq (F := id) (G := id) hShape).2 ha
    obtain ⟨d, hd, hUsed⟩ := hNormal.exists_used hne
    obtain ⟨hFind, -, -⟩ := h.find?_rebind hTidies hd
    have hListed : s.rebind d ∈ (s.generalizable m).1 :=
      (mem_generalizable hs.scoping hCovers).2 ⟨⟨_, hFind, rfl, hLevel.le⟩, d.name, hUsed, .refl⟩
    rw [hEq]
    cases hList : (s.generalizable m).1 with
    | nil => simp [hList] at hListed
    | cons b bs => rfl
  · -- what is not quantified is of an older level, so its twin stays too
    obtain ⟨⟨e, he, hOlder⟩, y, hy, hReach⟩ := freeVars_generalize hs.scoping hs.acyclic hCovers hx
    exact h.tiedTo_leave hTidies hs hLevel he (by omega)
      (hTidies.twins.closed_tied.reaches (hTied y hy) hReach)
  · -- the free names of the type were in play before the level
    have hOlder : ∀ x ∈ (chain xs (mono m)).freeVars, ¬ s.Current x := by
      rintro x hx ⟨e, he, hCurrent⟩
      obtain ⟨e₀, he₀⟩ := haCovers x ((mem_freeVars_of_shape_eq hShape).1 hx)
      obtain ⟨e', he', hLe, -⟩ := hInside.kept x e₀ (by rwa [find?_enter])
      obtain rfl := Option.some.inj (he.symm.trans he')
      have hOld := hp.owned.level_le he₀
      omega
    rw [hEq, ← hShape]
    exact h.shape_generalizable hTidies hLevel hOrdered hKinds hOlder
      ((inOrder_iff_of_shape_eq hShape).2 haInOrder)

end Prefix

/-- A type with the type of all instances for a copy is that type. -/
theorem Polytype.Copies.eq_bottom {f : String → String} {t : Polytype} (h : t.Copies f .bottom) :
    t = .bottom := by
  cases t with
  | bottom => rfl
  | mono m => cases h
  | all x k b t => cases h

namespace Unify

open Solve Prefix

variable {p q : Prefix} {σ : String → String}

/-! ## Common instances -/

/-- Runs on a type and its copy report nothing and make each variable one with its twin. -/
def Tidying (R : Behavior) : Prop :=
  ∀ {p q : Prefix} {σ : String → String} {a e : Monotype} {ds : List Diagnostic},
    R p a e (some (q, ds)) → p.WellFormed → p.Twins σ → e.rename σ = a →
    (∀ y ∈ e.freeVars, σ y ≠ y) → ∀ r, p.IsSolution r → a.eval r = e.eval r →
    ds = [] ∧ Tidies σ p q ∧ ∀ y ∈ e.freeVars, q.TiedTo σ (σ y)

/-- The common instances of a type and its copy are found without a report, and they are the type
with its quantifiers listed anew. -/
theorem PolyRun.tidies {R : Behavior} (hSafe : Safe R) (hR : Tidying R) {b c : Bound} {t : Polytype}
    {ds : List Diagnostic} (h : PolyRun R p b.type c.type (some (q, ds, t))) (hp : p.WellFormed)
    (hTwins : p.Twins σ) (hAlike : Alike σ b c) (hb : p.Covers b.type ∧ b.type.IsNormal)
    (hc : p.Covers c.type ∧ c.type.IsNormal) (hNotMono : b.type.mono? = none) {r : Valuation}
    (hr : p.IsSolution r) {g : Ground} (hgb : g ∈ b.type.Inst r) (hgc : g ∈ c.type.Inst r) :
    ds = [] ∧ Relists σ p q b.type t := by
  obtain ⟨-, ⟨hbFlexible, hcFlexible⟩, hCopies, hPaired⟩ := hAlike
  obtain ⟨hbCovers, hbNormal⟩ := hb
  obtain ⟨hcCovers, hcNormal⟩ := hc
  -- only the types of the two bounds matter from here on
  generalize b.type = a at *
  generalize c.type = e at *
  have hBottom : Relists σ p p .bottom .bottom :=
    ⟨hTwins.tidies_of_quiet (.refl p), rfl, trivial, by simp [Polytype.freeVars], fun _ => rfl⟩
  cases h with
  | left =>
    rw [hCopies.eq_bottom]
    exact ⟨rfl, hBottom⟩
  | right =>
    rw [copies_bottom.1 hCopies]
    exact ⟨rfl, hBottom⟩
  | mono => cases hNotMono
  | @opened _ _ q ds haBottom heBottom hRun =>
    have hPair := opensPair hp hbCovers hcCovers (closed_univ _) (fun _ _ => trivial) fun _ _ => trivial
    obtain ⟨hInside, -, hCovers⟩ := hPair.run hSafe hRun
    obtain ⟨xs, hFirst, hShape, hxs⟩ := opened_adds (one_le_level_enter p) hbNormal haBottom
      hbFlexible fun x hx => binds_enter.2 (hbCovers x hx)
    obtain ⟨ys, hSecond, hShape', hys⟩ := opened_adds
      (hPair.first.narrows.one_le_level (one_le_level_enter p)) hcNormal heBottom hcFlexible
      fun x hx => hFirst.binds (binds_enter.2 (hcCovers x hx))
    have hChains : (chain ys (.mono ((p.enter.opened a).2.opened e).1)).Copies σ
        (chain xs (.mono (p.enter.opened a).1)) := by
      rw [Polytype.Copies, nameless_eq_of_shape_eq hShape', hCopies, hShape]
    -- the new variables come in pairs, and a common instance is a value for both sides
    obtain ⟨τ, hAgree, hNames, hPairs, hRename⟩ := pair_chain hSecond.ordered hChains
    have hUnfolds := hTwins.unfolds hFirst hSecond hAgree hNames
    have hMoved {w : String} := hUnfolds.paired (t := .mono ((p.enter.opened a).2.opened e).1) (w := w)
      fun w hw => hPaired w ((mem_freeVars_of_shape_eq hShape').1 hw)
    have hInner := hUnfolds.twins hTwins hp.scoping fun c hc => by
      obtain ⟨d, hd, hCopy⟩ := hPairs c hc
      obtain ⟨hKind, hFlexible, hUnsolved⟩ := hxs d hd
      obtain ⟨hKind', hFlexible', -⟩ := hys c hc
      exact ⟨d, hd, hCopy.name, hKind, hUnsolved, hKind', ⟨hFlexible, hFlexible'⟩, hCopy.bound.type,
        fun w hw => hMoved (Or.inl ⟨c, hc, hw⟩)⟩
    obtain ⟨r', -, hr', hActual, hExpected⟩ := hPair.complete hcCovers hr hgb hgc
    obtain ⟨rfl, hTidies, hTied⟩ := hR hRun hPair.narrows.wellFormed hInner hRename
      (fun w hw => hMoved (Or.inr hw)) r' hr' (hActual.trans hExpected.symm)
    -- every name in the body of the first is the original of a name in the body of the second
    have hBody : ∀ w ∈ (p.enter.opened a).1.freeVars, q.TiedTo τ w := by
      intro w hw
      rw [← hRename] at hw
      obtain ⟨y, hy, rfl⟩ := Monotype.exists_of_mem_freeVars_rename hw
      exact hTied y hy
    have hBooks : (q.generalize (p.enter.opened a).1).2 = q := by
      rw [Prefix.generalize_eq hInside.wellFormed.scoping hCovers]
    rw [hBooks]
    exact ⟨rfl, hUnfolds.generalize hTidies hTwins hp hInside hFirst.ordered
      (fun d hd => (hxs d hd).1)
      (opened_ne_var hbNormal haBottom (fun _ => mono?_eq_none.1 hNotMono _) p.enter) hCovers hBody
      hbNormal hbCovers hNotMono hShape⟩

/-! ## Tied variables -/

/-- Names in bounds of a variable are no younger than it, and a run on such bounds keeps to such
names. -/
theorem PolyRun.level_le {R : Behavior} (hSafe : Safe R) {a e t : Polytype} {ds : List Diagnostic}
    (h : PolyRun R p a e (some (q, ds, t))) (hp : p.WellFormed) (ha : p.Covers a ∧ a.IsNormal)
    (he : p.Covers e ∧ e.IsNormal) {l : Nat}
    (haLevel : ∀ x ∈ a.freeVars, ∀ ex, p.find? x = some ex → ex.level ≤ l)
    (heLevel : ∀ x ∈ e.freeVars, ∀ ex, p.find? x = some ex → ex.level ≤ l) {x : String}
    (hx : x ∈ t.freeVars) (hBinds : p.Binds x) : ∃ ex, q.find? x = some ex ∧ ex.level ≤ l := by
  -- names that are no younger than the level are closed under bounds
  have hClosed : p.Closed {x | ∀ ex, p.find? x = some ex → ex.level ≤ l} := by
    rintro y hy z ⟨ey, hey, hz⟩ ez hez
    obtain ⟨ez', hez', hLe⟩ := hp.scoping y ey hey z hz
    obtain rfl := Option.some.inj (hez.symm.trans hez')
    exact hLe.trans (hy ey hey)
  have hPolySafe := h.narrows hSafe hp ha.1 he.1 ha.2 he.2 hClosed haLevel heLevel 0
  obtain ⟨ex, hex⟩ := hBinds
  obtain ⟨ex', hex', hLe, -⟩ := hPolySafe.narrows.kept x ex hex
  exact ⟨ex', hex', hLe.trans (hPolySafe.allowed x hx ⟨ex, hex⟩ ex hex)⟩

/-- A variable and its twin are made one without a report. -/
theorem TieRun.tidies {R : Behavior} (hSafe : Safe R) (hExact : Exact R) (hR : Tidying R) {y : String}
    {ex ey : Entry} {ds : List Diagnostic}
    (h : TieRun R p (.merge (σ y) y ex.bound ey.bound) (some (q, ds))) (hp : p.WellFormed)
    (hTwins : p.Twins σ) (hy : σ y ≠ y) (hPair : p.Pair σ y ex ey)
    (hAlike : Alike σ ex.bound ey.bound) {r : Valuation} (hr : p.IsSolution r)
    (hEq : r (σ y) = r y) : ds = [] ∧ Tidies σ p q ∧ q.TiedTo σ (σ y) := by
  have hOpen := hAlike.mono? hPair.unsolved
  have hFits := Tie.merge_fits hp hy hPair.original hPair.twin (closed_univ _) trivial trivial
  have hReady : (Tie.merge (σ y) y ex.bound ey.bound).Open := Tie.merge_open hPair.unsolved hOpen
  have hSolved := Tie.merge_solved hr hPair.original hPair.twin hEq
  have hNotRigid : ¬ (ex.bound.kind = .rigid ∨ ey.bound.kind = .rigid) := by
    rw [hPair.kind, hAlike.kind]
    simp
  have hActual : p.Covers ex.bound.type ∧ ex.bound.type.IsNormal := ⟨hFits.actual.1, hFits.actual.2.1⟩
  have hExpected : p.Covers ey.bound.type ∧ ey.bound.type.IsNormal :=
    ⟨hFits.expected.1, hFits.expected.2.1⟩
  have hPoly {q : Prefix} {ds : List Diagnostic} {t : Polytype}
      (h : PolyRun R p ex.bound.type ey.bound.type (some (q, ds, t))) :
      ds = [] ∧ Relists σ p q ex.bound.type t :=
    h.tidies hSafe hR hp hTwins hAlike hActual hExpected hPair.unsolved hr hSolved.actual
      hSolved.expected
  cases h with
  | clash hRigid => exact absurd hRigid hNotRigid
  | cycle hx hOccurs => exact absurd hOccurs (hSolved.not_cycle hp hFits hReady hr hx)
  | failed hRun => cases (hPoly hRun).1
  | rigid _ hRigid => exact absurd hRigid hNotRigid
  | knot hRun hx hOccurs =>
    exact absurd hOccurs (hSolved.not_knot hSafe hExact hRun hp hFits hReady hr hx)
  | @tied q₁ q₂ t hBegins hRun hQuiet hFree hSame =>
    obtain ⟨-, hTidies, hUnsolved, hInOrder, hNames, hShape⟩ := hPoly hRun
    have hSafely := hRun.narrows hSafe hp hActual.1 hExpected.1 hActual.2 hExpected.2 (closed_univ _)
      (fun _ _ => trivial) (fun _ _ => trivial) 0
    have hBooks := hTidies.twins.tidies_of_quiet hQuiet
    -- the run on the bounds has nothing to do with the two variables themselves
    have hOriginal : q₂.find? (σ y) = some ex := by
      rw [hQuiet.find?]
      exact hFits.kept hSafe hp (hBegins.apart hp.acyclic) hRun (by simp [Tie.merge]) hPair.original
    have hTwin : q₂.find? y = some ey := by
      rw [hQuiet.find?]
      exact hFits.kept hSafe hp (hBegins.apart hp.acyclic) hRun (by simp [Tie.merge]) hPair.twin
    have hOlder {z : String} {e e' : Entry} (he : p.find? z = some e) {x : String}
        (hx : x ∈ e.bound.type.freeVars) (he' : p.find? x = some e') : e'.level ≤ e.level := by
      obtain ⟨e'', he'', hLe⟩ := hp.scoping z e he x hx
      obtain rfl := Option.some.inj (he'.symm.trans he'')
      exact hLe
    -- so that no variable is moved to another level when the original gets its new bound
    have hLevels : ∀ z ∈ t.freeVars, ∃ e, q₂.find? z = some e ∧ e.level ≤ ex.level := by
      intro z hz
      obtain ⟨w, hne, rfl, -⟩ := hNames z hz
      rw [hQuiet.find?]
      exact hRun.level_le hSafe hp hActual hExpected (fun x hx e => hOlder hPair.original hx)
        (fun x hx e he => (hOlder hPair.twin hx he).trans hPair.level.le) hz
        (hTwins.binds hne.symm).1
    have hScoped := (hQuiet.wellFormed hSafely.narrows.wellFormed).1.scoping
    have hFind := find?_merge_of_le (b := ⟨.flexible, t⟩) hScoped hOriginal hTwin hy hPair.level hLevels
    obtain ⟨hJoins, hTied⟩ := hBooks.twins.join hy
      ⟨hOriginal, hTwin, hPair.level, hPair.kind, hPair.unsolved, Or.inl hAlike⟩ hOpen hFind hUnsolved
      hInOrder (fun w hw => hBooks.tied w (hNames w hw)) hShape
    -- neither is rigid, so the one variable is flexible
    have hFinish : (Tie.merge (σ y) y ex.bound ey.bound).finish q₂ t =
        (q₂.merge (σ y) y ⟨.flexible, t⟩).2 := by
      simp only [Tie.merge, if_neg hNotRigid]
    rw [hFinish]
    exact ⟨rfl, (hTidies.trans hBooks).trans hJoins, hTied⟩

/-! ## Steps and runs -/

/-- Runs that are not about a call, so that they keep the two sides apart. -/
def Forward (n : Nat) : Behavior := fun p a e o =>
  Run n p a e o ∧ ∃ sink lost, within n a e false ⟨p, sink⟩ = Outcome.result ⟨p, sink⟩ lost o

theorem forward_follows (n : Nat) : Follows (Forward n) fun a e _ => within n a e false := by
  intro a e call s
  obtain ⟨o, lost, hRun, hEq⟩ := within_follows n a e false s
  exact ⟨o, lost, ⟨hRun, s.sink, lost, hEq⟩, hEq⟩

theorem forward_safe (n : Nat) : Safe (Forward n) := fun h => run_safe n h.1

theorem forward_exact (n : Nat) : Exact (Forward n) := fun h => run_exact n h.1

/-- Making two variables one, outside of calls. -/
theorem mergeVars_forward (n : Nat) {x y : String} {s : Session} {ex ey : Entry}
    (hx : s.vars.find? x = some ex) (hy : s.vars.find? y = some ey) :
    ∃ o lost, TieRun (Forward n) s.vars (.merge x y ex.bound ey.bound) o ∧
      mergeVars (within n) x y false s = Outcome.result s lost o := by
  obtain ⟨o, lost, hTie, hEq⟩ := mergeVars_follows (forward_follows n) false hx hy
  refine ⟨o, lost, hTie, Eq.trans ?_ hEq⟩
  unfold mergeVars unifyPoly
  rfl

/-- What a run returns tells what it leaves behind. -/
theorem outcome_of_result {s : Session} {o : Outcome} {lost ds : List Diagnostic} {sink : Sink}
    (h : Outcome.result s lost o = .ok (ds.head?, ⟨q, sink⟩)) :
    ∃ ds', o = some (q, ds') ∧ (ds' = [] → ds = []) := by
  rcases o with _ | ⟨q', ds'⟩
  · cases h
  · simp only [Outcome.result, Except.ok.injEq, Prod.mk.injEq, Session.mk.injEq] at h
    obtain ⟨hHead, rfl, -⟩ := h
    refine ⟨ds', rfl, ?_⟩
    rintro rfl
    exact List.head?_eq_none_iff.1 hHead.symm

/-- A pair that nothing has happened to is made one. -/
theorem mergeVars_tidies {n : Nat} (hRuns : Tidying (Forward n)) (hp : p.WellFormed)
    (hTwins : p.Twins σ) {y : String} (hy : σ y ≠ y) {ex ey : Entry} (hPair : p.Pair σ y ex ey)
    (hAlike : Alike σ ex.bound ey.bound) {r : Valuation} (hr : p.IsSolution r) (hEq : r (σ y) = r y)
    {ds : List Diagnostic} {sink sink' : Sink}
    (h : mergeVars (within n) (σ y) y false ⟨p, sink⟩ = .ok (ds.head?, ⟨q, sink'⟩)) :
    ds = [] ∧ Tidies σ p q ∧ q.TiedTo σ (σ y) := by
  obtain ⟨o, lost, hTie, hMerged⟩ := mergeVars_forward n (s := ⟨p, sink⟩) hPair.original hPair.twin
  rw [hMerged] at h
  obtain ⟨ds', rfl, hNil⟩ := outcome_of_result h
  obtain ⟨rfl, hTidies, hTied⟩ := hTie.tidies (forward_safe n) (forward_exact n) hRuns hp hTwins hy
    hPair hAlike hr hEq
  exact ⟨hNil rfl, hTidies, hTied⟩

/-- The parameters of two functions come first, and then the bodies with what is left of the pairs.
-/
theorem parts_tidies {n : Nat} (hRuns : Tidying (Forward n)) (hp : p.WellFormed) (hTwins : p.Twins σ)
    {e₁ e₂ : Monotype} (hPaired₁ : ∀ y ∈ e₁.freeVars, σ y ≠ y)
    (hPaired₂ : ∀ y ∈ e₂.freeVars, σ y ≠ y) {r : Valuation} (hr : p.IsSolution r)
    (hEq₁ : (e₁.rename σ).eval r = e₁.eval r) (hEq₂ : (e₂.rename σ).eval r = e₂.eval r)
    {ds : List Diagnostic} {sink sink' : Sink}
    (h : (do
      let verdict ← within n (e₁.rename σ) e₁ false
      return verdict.or (← within n (e₂.rename σ) e₂ false) : Solve Verdict) ⟨p, sink⟩ =
        .ok (ds.head?, ⟨q, sink'⟩)) :
    ds = [] ∧ Tidies σ p q ∧ ∀ y, y ∈ e₁.freeVars ∨ y ∈ e₂.freeVars → q.TiedTo σ (σ y) := by
  obtain ⟨o₁, lost₁, hRun₁, hResult₁⟩ := within_follows n (e₁.rename σ) e₁ false ⟨p, sink⟩
  rcases o₁ with _ | ⟨q₁, ds₁⟩
  · rw [bind_of_error hResult₁] at h
    cases h
  obtain ⟨rfl, hTidies₁, hTied₁⟩ :=
    hRuns ⟨hRun₁, sink, lost₁, hResult₁⟩ hp hTwins rfl hPaired₁ r hr hEq₁
  -- a common instance of the parameters is left for the bodies
  obtain ⟨ha₁, he₁⟩ := hTwins.covers hPaired₁
  obtain ⟨ha₂, he₂⟩ := hTwins.covers hPaired₂
  obtain ⟨hq₁, -, -, r₁, -, hr₁, hNext⟩ := Keeping.next (run_safe n) (run_keeping n) hRun₁ hp ha₁
    he₁ ha₂ he₂ hr hEq₁ hEq₂
  rw [bind_of_ok hResult₁] at h
  obtain ⟨o₂, lost₂, hRun₂, hResult₂⟩ := within_follows n (e₂.rename σ) e₂ false ⟨q₁, sink⟩
  rcases o₂ with _ | ⟨q₂, ds₂⟩
  · have hHalt := h.symm.trans (bind_of_error hResult₂)
    cases hHalt
  obtain ⟨rfl, hTidies₂, hTied₂⟩ :=
    hRuns ⟨hRun₂, sink, lost₂, hResult₂⟩ hq₁ hTidies₁.twins rfl hPaired₂ r₁ hr₁ hNext
  -- both runs have ended, so the whole has the outcome of the second
  have hDone : Outcome.result ⟨q₁, sink⟩ [] (some (q₂, [])) = .ok (ds.head?, ⟨q, _⟩) :=
    (bind_of_ok hResult₂).symm.trans h
  obtain ⟨ds', hOutcome, hNil⟩ := outcome_of_result hDone
  obtain ⟨rfl, rfl⟩ := Prod.mk.inj (Option.some.inj hOutcome)
  refine ⟨hNil rfl, hTidies₁.trans hTidies₂, ?_⟩
  rintro y (hy | hy)
  · exact hTidies₂.tied _ (hTied₁ y hy)
  · exact hTied₂ y hy

/-- Runs on a type and its copy, by induction on the fuel: each step ties a pair, finds it tied, or
goes on with the parts. -/
theorem forward_tidies (n : Nat) : Tidying (Forward n) := by
  induction n with
  | zero => exact fun h => nomatch h.1
  | succ n ih =>
    rintro p q σ a e ds ⟨-, sink, lost, hResult⟩ hp hTwins rfl hPaired r hr hEq
    change step (within n) (e.rename σ) e false ⟨p, sink⟩ = _ at hResult
    have hQuiet := quiet_followed p (e.rename σ) e
    have hp' := (hQuiet.wellFormed hp).1
    have hr' := hQuiet.isSolution_iff.2 hr
    have hBooks := hTwins.tidies_of_quiet hQuiet
    -- where nothing is done but keeping books
    have quiet (hStep : step (within n) (e.rename σ) e false ⟨p, sink⟩ =
          .ok (none, ⟨followed p (e.rename σ) e, sink⟩))
        (hTied : ∀ y ∈ e.freeVars, p.TiedTo σ (σ y)) :
        ds = [] ∧ Tidies σ p q ∧ ∀ y ∈ e.freeVars, q.TiedTo σ (σ y) := by
      have hDone : Outcome.result ⟨p, sink⟩ [] (some (followed p (e.rename σ) e, [])) =
          .ok (ds.head?, ⟨q, _⟩) := hStep.symm.trans hResult
      obtain ⟨ds', hOutcome, hNil⟩ := outcome_of_result hDone
      obtain ⟨rfl, rfl⟩ := Prod.mk.inj (Option.some.inj hOutcome)
      exact ⟨hNil rfl, hBooks, fun y hy => hBooks.tied _ (hTied y hy)⟩
    cases e with
    | var y =>
      have hy : σ y ≠ y := hPaired y (by simp [Monotype.freeVars])
      obtain ⟨ex, ey, hPair⟩ := hTwins.pairs y hy
      have hTop : p.top (.var (σ y)) = .var (σ y) :=
        top_of_solution?_none ((solution?_eq_none hPair.original).2 hPair.unsolved)
      rcases hPair.state with hAlike | hJoined
      · have hTop' : p.top (.var y) = .var y :=
          top_of_solution?_none ((solution?_eq_none hPair.twin).2 (hAlike.mono? hPair.unsolved))
        rw [step_of_vars hTop hTop' hy] at hResult
        obtain ⟨hNil, hTidies, hTied⟩ := mergeVars_tidies ih hp' hBooks.twins hy
          (hPair.congr hQuiet.find?) hAlike hr' hEq hResult
        refine ⟨hNil, hBooks.trans hTidies, fun z hz => ?_⟩
        obtain rfl : z = y := by simpa [Monotype.freeVars] using hz
        exact hTied
      · have hSolution : p.solution? y = some (.var (σ y)) :=
          solution?_eq_some.2 ⟨ey, hPair.twin, hJoined.solution⟩
        have hTop' : p.top (.var y) = .var (σ y) := by
          rw [hp.acyclic.top_of_solution? hSolution, hTop]
        refine quiet (step_of_var hTop hTop' _ _) fun z hz => ?_
        obtain rfl : z = y := by simpa [Monotype.freeVars] using hz
        exact ⟨z, hy.symm, rfl, hSolution⟩
    | const c => exact quiet (step_of_const rfl rfl _ _) (by simp [Monotype.freeVars])
    | fn e₁ e₂ =>
      obtain ⟨hEq₁, hEq₂⟩ := Ground.fn.inj hEq
      rw [step, stepUpTo_apply, if_neg fun hSame => Bool.false_ne_true hSame.1] at hResult
      obtain ⟨hNil, hTidies, hTied⟩ := parts_tidies ih hp' hBooks.twins
        (fun y hy => hPaired y (NameSet.mem_union.2 (Or.inl hy)))
        (fun y hy => hPaired y (NameSet.mem_union.2 (Or.inr hy))) hr' hEq₁ hEq₂ hResult
      exact ⟨hNil, hBooks.trans hTidies, fun y hy => hTied y (NameSet.mem_union.1 hy)⟩

end Unify

end Mlf
