import Mathlib.Data.Sym.Sym2
import Mlf.Proofs.LayoutSearch
import Mlf.Proofs.LayoutTies
import Mlf.Proofs.UnifySolutions

/-!
# Runs in step

Two prefixes match when they have one layout, that is when they are the same but for the names of
their variables and for which of several equal variables is the one that is not solved. Two runs
from prefixes that match are in step: both are out of fuel, or both end with prefixes that match,
and then both have reports or neither has. The two types of a run are an unordered pair here, so the
order in which they are given does not matter.

A pair of runs is followed from its start to its end by one replacement of numbers, for both sides
together. In a run without reports it makes the two types equal. That is what the common instances
of two bounds need: each run generalizes the type that stands first for it, and the two types are
read alike by then.

Main results:

* `PolyRun.lockstep` — runs on two types with quantifiers are in step, and what they find to be the
  common instances is read alike;
* `Matching.tie_lockstep` — runs that tie variables are in step, if what they do at the end is;
* `solve_lockstep`, `merge_lockstep` — the two ways to tie variables.
-/

namespace Mlf

open Prefix

namespace Unify

/-! ## Prefixes that match -/

/-- Two prefixes with one layout. -/
structure Matching (p q : Prefix) where
  layout : Layout
  left : Reading ℕ
  right : Reading ℕ
  laysLeft : layout.Lays left p
  laysRight : layout.Lays right q

namespace Matching

variable {p q p₁ q₁ p₂ q₂ : Prefix}

/-- The two sides of a matching can change places. -/
def symm (M : Matching p q) : Matching q p := ⟨M.layout, M.right, M.left, M.laysRight, M.laysLeft⟩

/-- Reports and books change nothing. -/
def quiet (M : Matching p q) (hp : p.Quiet p₁) (hq : q.Quiet q₁) : Matching p₁ q₁ :=
  ⟨M.layout, M.left, M.right, M.laysLeft.quiet hp, M.laysRight.quiet hq⟩

/-- Both sides have come to a new matching by one replacement of numbers. -/
structure Moves (M : Matching p q) (f : ℕ → Nameless.Mono ℕ) (N : Matching p₁ q₁) : Prop where
  left : ∀ z, p.Binds z → p₁.Binds z ∧ N.left z = (M.left z).bind f
  right : ∀ z, q.Binds z → q₁.Binds z ∧ N.right z = (M.right z).bind f

variable {M : Matching p q} {N : Matching p₁ q₁} {O : Matching p₂ q₂} {f g : ℕ → Nameless.Mono ℕ}

theorem Moves.symm (h : M.Moves f N) : M.symm.Moves f N.symm := ⟨h.right, h.left⟩

theorem Moves.refl (M : Matching p q) : M.Moves .var M :=
  ⟨fun _ hz => ⟨hz, (Nameless.Mono.bind_var _).symm⟩,
    fun _ hz => ⟨hz, (Nameless.Mono.bind_var _).symm⟩⟩

theorem Moves.quiet (h : M.Moves f N) (hp : p₁.Quiet p₂) (hq : q₁.Quiet q₂) :
    M.Moves f (N.quiet hp hq) :=
  ⟨fun z hz => ⟨(hp.binds z).2 (h.left z hz).1, (h.left z hz).2⟩,
    fun z hz => ⟨(hq.binds z).2 (h.right z hz).1, (h.right z hz).2⟩⟩

theorem Moves.trans (h : M.Moves f N) (h' : N.Moves g O) : M.Moves (fun i => (f i).bind g) O := by
  refine ⟨fun z hz => ?_, fun z hz => ?_⟩
  · obtain ⟨hz₁, hRead⟩ := h.left z hz
    obtain ⟨hz₂, hRead'⟩ := h'.left z hz₁
    exact ⟨hz₂, by rw [hRead', hRead, Nameless.Mono.bind_bind]⟩
  · obtain ⟨hz₁, hRead⟩ := h.right z hz
    obtain ⟨hz₂, hRead'⟩ := h'.right z hz₁
    exact ⟨hz₂, by rw [hRead', hRead, Nameless.Mono.bind_bind]⟩

theorem Moves.covers (h : M.Moves f N) {t : Polytype} (ht : p.Covers t) : p₁.Covers t :=
  fun z hz => (h.left z (ht z hz)).1

theorem Moves.poly (h : M.Moves f N) {t : Polytype} (ht : p.Covers t) :
    t.nameless N.left = (t.nameless M.left).bind f := by
  rw [Polytype.nameless_bind]
  exact Polytype.nameless_congr fun z hz => (h.left z (ht z hz)).2

theorem Moves.poly_right (h : M.Moves f N) {t : Polytype} (ht : q.Covers t) :
    t.nameless N.right = (t.nameless M.right).bind f :=
  h.symm.poly ht

theorem Moves.mono (h : M.Moves f N) {t : Monotype} (ht : p.Covers t) :
    t.nameless N.left = (t.nameless M.left).bind f :=
  Nameless.mono.inj (h.poly ht)

theorem Moves.mono_right (h : M.Moves f N) {t : Monotype} (ht : q.Covers t) :
    t.nameless N.right = (t.nameless M.right).bind f :=
  h.symm.mono ht

/-- Pairs that are read alike stay so. -/
theorem Moves.pair (h : M.Moves f N) {a e b c : Monotype} (ha : p.Covers a) (he : p.Covers e)
    (hb : q.Covers b) (hc : q.Covers c)
    (hPair : s(a.nameless M.left, e.nameless M.left) = s(b.nameless M.right, c.nameless M.right)) :
    s(a.nameless N.left, e.nameless N.left) = s(b.nameless N.right, c.nameless N.right) := by
  rw [h.mono ha, h.mono he, h.mono_right hb, h.mono_right hc]
  exact congrArg (Sym2.map fun m => Nameless.Mono.bind f m) hPair

/-! ## Runs in step -/

/-- Two runs on types that are read as `A` and `E` end together. -/
inductive Ends (M : Matching p q) (A E : Nameless.Mono ℕ) : Outcome → Outcome → Prop
  | stuck : Ends M A E none none
  | ends {p₁ q₁ : Prefix} {ds ds' : List Diagnostic} (N : Matching p₁ q₁) (f : ℕ → Nameless.Mono ℕ)
    (hMoves : M.Moves f N) (hReports : ds = [] ↔ ds' = []) (hSame : ds = [] → A.bind f = E.bind f) :
    Ends M A E (some (p₁, ds)) (some (q₁, ds'))

/-- Two runs on types with quantifiers end together, with common instances that are read alike. -/
inductive PolyEnds (M : Matching p q) : Option (Prefix × List Diagnostic × Polytype) →
    Option (Prefix × List Diagnostic × Polytype) → Prop
  | stuck : PolyEnds M none none
  | ends {p₁ q₁ : Prefix} {ds ds' : List Diagnostic} {t u : Polytype} (N : Matching p₁ q₁)
    (f : ℕ → Nameless.Mono ℕ) (hMoves : M.Moves f N) (hReports : ds = [] ↔ ds' = [])
    (hSame : ds = [] → t.nameless N.left = u.nameless N.right) :
    PolyEnds M (some (p₁, ds, t)) (some (q₁, ds', u))

variable {A E : Nameless.Mono ℕ} {o o' : Outcome}

theorem Ends.after (h : N.Ends (A.bind f) (E.bind f) o o') (hMoves : M.Moves f N) :
    M.Ends A E o o' := by
  cases h with
  | stuck => exact .stuck
  | ends O g hNext hReports hSame =>
    refine .ends O _ (hMoves.trans hNext) hReports fun hds => ?_
    rw [← Nameless.Mono.bind_bind, ← Nameless.Mono.bind_bind, hSame hds]

theorem Ends.of_quiet (hp : p.Quiet p₁) (hq : q.Quiet q₁) (h : (M.quiet hp hq).Ends A E o o') :
    M.Ends A E o o' :=
  .after (f := .var) (by simpa using h) ((Moves.refl M).quiet hp hq)

theorem Ends.swap (h : M.Ends A E o o') : M.Ends E A o o' := by
  cases h with
  | stuck => exact .stuck
  | ends N f hMoves hReports hSame =>
    exact .ends N f hMoves hReports fun hds => (hSame hds).symm

/-- Both runs refuse. -/
theorem ends_refused (hp : p.Quiet p₁) (hq : q.Quiet q₁) (d d' : Diagnostic) :
    M.Ends A E (some (p₁, [d])) (some (q₁, [d'])) :=
  .ends (M.quiet hp hq) .var ((Moves.refl M).quiet hp hq) (by simp) (by simp)

/-- The types are equal. -/
theorem ends_same (hp : p.Quiet p₁) (hq : q.Quiet q₁) :
    M.Ends A A (some (p₁, [])) (some (q₁, [])) :=
  .ends (M.quiet hp hq) .var ((Moves.refl M).quiet hp hq) Iff.rfl fun _ => rfl

end Matching

/-- Runs from prefixes that match, on types that are read alike, are in step. The types are compared
as an unordered pair, so that one run may have them in the other order. -/
def Lockstep (R : Behavior) : Prop :=
  ∀ {p q : Prefix} {a e b c : Monotype} {o o' : Outcome} (M : Matching p q),
    p.Covers a → p.Covers e → q.Covers b → q.Covers c →
    s(a.nameless M.left, e.nameless M.left) = s(b.nameless M.right, c.nameless M.right) →
    R p a e o → R q b c o' → M.Ends (a.nameless M.left) (e.nameless M.left) o o'

/-! ## Types with quantifiers -/

end Unify

/-- Instances of two types, one after the other at a level of their own. -/
theorem Layout.Lays.openedPair {S : Layout} {ρ : Reading ℕ} {p : Prefix} (h : S.Lays ρ p)
    {a e : Polytype} (ha : p.Covers a) (he : p.Covers e) (haNormal : a.IsNormal)
    (heNormal : e.IsNormal) (haBottom : a ≠ .bottom) (heBottom : e ≠ .bottom) {is js : List ℕ}
    (his : S.Fresh is) (hjs : S.Fresh js) (hApart : ∀ j ∈ js, j ∉ is)
    (haLength : a.split.1.length ≤ is.length) (heLength : e.split.1.length ≤ js.length) :
    ∃ ρ', ((S.enter.opened is (a.nameless ρ)).opened js (e.nameless ρ)).Lays ρ'
        ((p.enter.opened a).2.opened e).2 ∧
      (∀ z, p.Binds z → ρ' z = ρ z) ∧
      (p.enter.opened a).1.nameless ρ' = (a.nameless ρ).opened is ∧
      ((p.enter.opened a).2.opened e).1.nameless ρ' = (e.nameless ρ).opened js := by
  have hPair := Unify.opensPair h.wellFormed ha he (closed_univ p) (fun _ _ => trivial)
    fun _ _ => trivial
  have hEnter {z : String} (hz : p.Binds z) : p.enter.Binds z := by rwa [Binds, find?_enter]
  have hBinds {z : String} (hz : p.Binds z) : (p.enter.opened a).2.Binds z :=
    hPair.first.narrows.binds (hEnter hz)
  have hLevel : 1 ≤ p.enter.level := one_le_level_enter p
  -- the first type is opened
  obtain ⟨ρ₁, hFirst, hOld, haRead⟩ := h.enter.opened hLevel haNormal haBottom
    (fun z hz => hEnter (ha z hz)) ⟨his.unused, his.nodup⟩ haLength
  -- the positions for the second are still free
  have hFresh : (S.enter.opened is (a.nameless ρ)).Fresh js :=
    ⟨fun j hj => by
      rw [opened_cell?_of_not_mem (hApart j hj)]
      exact hjs.unused j hj, hjs.nodup⟩
  obtain ⟨ρ₂, hSecond, hOld', heRead⟩ := hFirst.opened (hPair.first.narrows.one_le_level hLevel)
    heNormal heBottom (fun z hz => hBinds (he z hz)) hFresh heLength
  -- the second type is over names from before, which read as they did
  have heSame : e.nameless ρ₁ = e.nameless ρ :=
    Polytype.nameless_congr fun z hz => hOld z (hEnter (he z hz))
  rw [heSame] at hSecond heRead
  refine ⟨ρ₂, hSecond, fun z hz => ?_, ?_, heRead⟩
  · rw [hOld' z (hBinds hz), hOld z (hEnter hz)]
  · rw [← haRead]
    exact Monotype.nameless_congr fun z hz => hOld' z (hPair.first.covers z hz)

namespace Unify

open Layout

/-- Numbers for the quantifiers of two types. -/
theorem Matching.exists_fresh {p q : Prefix} (M : Matching p q) (n : ℕ) :
    ∃ is js : List ℕ, M.layout.Fresh is ∧ M.layout.Fresh js ∧ (∀ j ∈ js, j ∉ is) ∧
      is.length = n ∧ js.length = n := by
  obtain ⟨k, hk⟩ := M.laysLeft.exists_unused
  refine ⟨List.range' k n, List.range' (k + n) n, ⟨fun i hi => ?_, List.nodup_range'⟩,
    ⟨fun i hi => ?_, List.nodup_range'⟩, fun j hj hi => ?_, List.length_range', List.length_range'⟩
  · exact hk i (List.mem_range'_1.1 hi).1
  · exact hk i (by have := (List.mem_range'_1.1 hi).1; omega)
  · have hLow := (List.mem_range'_1.1 hj).1
    have hHigh := (List.mem_range'_1.1 hi).2
    omega

/-- Runs on two types other than the one without bounds, not both of them monotypes, take place at a
level of their own. -/
theorem PolyRun.of_opened {R : Behavior} {p : Prefix} {a e : Polytype}
    {o : Option (Prefix × List Diagnostic × Polytype)} (h : PolyRun R p a e o) (ha : a ≠ .bottom)
    (he : e ≠ .bottom) (hOpen : a.mono? = none ∨ e.mono? = none) :
    ∃ o₁, R ((p.enter.opened a).2.opened e).2 (p.enter.opened a).1
        ((p.enter.opened a).2.opened e).1 o₁ ∧
      o = o₁.map fun (q, ds) => ((q.generalize (p.enter.opened a).1).2.leave, ds,
        (q.generalize (p.enter.opened a).1).1) := by
  cases h with
  | left => exact absurd rfl ha
  | right => exact absurd rfl he
  -- two monotypes are unified without a level
  | monoStuck => simp [Polytype.mono?] at hOpen
  | mono => simp [Polytype.mono?] at hOpen
  | openedStuck _ _ h => exact ⟨none, h, rfl⟩
  | opened _ _ h => exact ⟨some _, h, rfl⟩

section

variable {R : Behavior} {p q : Prefix} {a e b c : Polytype}

/-- Instances of types that are read alike are read alike, whichever of them comes first. -/
theorem Matching.exists_opened (M : Matching p q) (ha : p.Covers a ∧ a.IsNormal ∧ a ≠ .bottom)
    (he : p.Covers e ∧ e.IsNormal ∧ e ≠ .bottom) (hb : q.Covers b ∧ b.IsNormal ∧ b ≠ .bottom)
    (hc : q.Covers c ∧ c.IsNormal ∧ c ≠ .bottom)
    (hPair : s(a.nameless M.left, e.nameless M.left) = s(b.nameless M.right, c.nameless M.right)) :
    ∃ N : Matching ((p.enter.opened a).2.opened e).2 ((q.enter.opened b).2.opened c).2,
      (∀ z, p.Binds z → N.left z = M.left z) ∧ (∀ z, q.Binds z → N.right z = M.right z) ∧
      s((p.enter.opened a).1.nameless N.left, ((p.enter.opened a).2.opened e).1.nameless N.left) =
        s((q.enter.opened b).1.nameless N.right,
          ((q.enter.opened b).2.opened c).1.nameless N.right) := by
  -- enough numbers for either type
  obtain ⟨is, js, his, hjs, hApart, hisLength, hjsLength⟩ := M.exists_fresh
    (max (max a.split.1.length e.split.1.length) (max b.split.1.length c.split.1.length))
  obtain ⟨ρ, hLeft, hOld, haRead, heRead⟩ := M.laysLeft.openedPair ha.1 he.1 ha.2.1 he.2.1 ha.2.2
    he.2.2 his hjs hApart (by omega) (by omega)
  rcases Sym2.eq_iff.1 hPair with ⟨hab, hec⟩ | ⟨hac, heb⟩
  · obtain ⟨ρ', hRight, hOld', hbRead, hcRead⟩ := M.laysRight.openedPair hb.1 hc.1 hb.2.1 hc.2.1
      hb.2.2 hc.2.2 his hjs hApart (by omega) (by omega)
    rw [← hab, ← hec] at hRight
    refine ⟨⟨_, ρ, ρ', hLeft, hRight⟩, hOld, hOld', ?_⟩
    rw [haRead, heRead, hbRead, hcRead, hab, hec]
  · -- the types change places, and so do the lists of numbers
    obtain ⟨ρ', hRight, hOld', hbRead, hcRead⟩ := M.laysRight.openedPair hb.1 hc.1 hb.2.1 hc.2.1
      hb.2.2 hc.2.2 hjs his (fun i hi hj => hApart i hj hi) (by omega) (by omega)
    rw [← hac, ← heb, opened_comm hApart] at hRight
    refine ⟨⟨_, ρ, ρ', hLeft, hRight⟩, hOld, hOld', ?_⟩
    rw [haRead, heRead, hbRead, hcRead, hac, heb, Sym2.eq_swap]

theorem bottom_eq_nameless {ρ : Reading ℕ} {t : Polytype} :
    .bottom = t.nameless ρ ↔ t = .bottom := by
  cases t <;> simp [Polytype.nameless]

/-- Runs on two types with quantifiers are in step. -/
theorem PolyRun.lockstep (hSafe : Safe R) (hLock : Lockstep R) (M : Matching p q)
    (ha : p.Covers a ∧ a.IsNormal) (he : p.Covers e ∧ e.IsNormal) (hb : q.Covers b ∧ b.IsNormal)
    (hc : q.Covers c ∧ c.IsNormal)
    (hPair : s(a.nameless M.left, e.nameless M.left) = s(b.nameless M.right, c.nameless M.right))
    (hOpen : a.mono? = none ∨ e.mono? = none) (hOpen' : b.mono? = none ∨ c.mono? = none)
    {o o' : Option (Prefix × List Diagnostic × Polytype)} (h : PolyRun R p a e o)
    (h' : PolyRun R q b c o') : M.PolyEnds o o' := by
  have hBottom : (a = .bottom ∨ e = .bottom) ↔ (b = .bottom ∨ c = .bottom) := by
    have hMem := congrArg (Nameless.bottom ∈ ·) hPair
    simpa only [Sym2.mem_iff, bottom_eq_nameless, eq_iff_iff] using hMem
  by_cases haBottom : a = .bottom ∨ e = .bottom
  · -- the answer is the type that goes with the one without bounds
    obtain ⟨t, rfl, ht⟩ := h.of_bottom haBottom
    obtain ⟨u, rfl, hu⟩ := h'.of_bottom (hBottom.1 haBottom)
    have htRead : s(a.nameless M.left, e.nameless M.left) = s(.bottom, t.nameless M.left) := by
      rcases ht with ⟨rfl, rfl⟩ | ⟨rfl, rfl⟩
      · rfl
      · exact Sym2.eq_swap
    have huRead : s(b.nameless M.right, c.nameless M.right) = s(.bottom, u.nameless M.right) := by
      rcases hu with ⟨rfl, rfl⟩ | ⟨rfl, rfl⟩
      · rfl
      · exact Sym2.eq_swap
    rw [htRead, huRead, Sym2.congr_right] at hPair
    exact .ends M .var (.refl M) Iff.rfl fun _ => hPair
  · have hbBottom := mt hBottom.2 haBottom
    rw [not_or] at haBottom hbBottom
    obtain ⟨o₁, hRun, rfl⟩ := h.of_opened haBottom.1 haBottom.2 hOpen
    obtain ⟨o₁', hRun', rfl⟩ := h'.of_opened hbBottom.1 hbBottom.2 hOpen'
    obtain ⟨N, hLeft, hRight, hInside⟩ := M.exists_opened ⟨ha.1, ha.2, haBottom.1⟩
      ⟨he.1, he.2, haBottom.2⟩ ⟨hb.1, hb.2, hbBottom.1⟩ ⟨hc.1, hc.2, hbBottom.2⟩ hPair
    have hOpens := opensPair M.laysLeft.wellFormed ha.1 he.1 (closed_univ p) (fun _ _ => trivial)
      fun _ _ => trivial
    have hOpens' := opensPair M.laysRight.wellFormed hb.1 hc.1 (closed_univ q) (fun _ _ => trivial)
      fun _ _ => trivial
    have hEnds := hLock N hOpens.coversActual hOpens.second.covers hOpens'.coversActual
      hOpens'.second.covers hInside hRun hRun'
    cases hEnds with
    | stuck => exact .stuck
    | @ends p₁ q₁ ds ds' N₁ f hMoves hReports hSame =>
      have hCovers := hMoves.covers hOpens.coversActual
      have hCovers' := hMoves.symm.covers hOpens'.coversActual
      have hLevel := (hOpens.run hSafe hRun).1.one_le_level (one_le_level_enter p)
      have hLevel' := (hOpens'.run hSafe hRun').1.one_le_level (one_le_level_enter q)
      have hKept := (h.narrows hSafe M.laysLeft.wellFormed ha.1 he.1 ha.2 he.2 (closed_univ p)
        (fun _ _ => trivial) (fun _ _ => trivial) 0).narrows
      have hKept' := (h'.narrows hSafe M.laysRight.wellFormed hb.1 hc.1 hb.2 hc.2 (closed_univ q)
        (fun _ _ => trivial) (fun _ _ => trivial) 0).narrows
      -- generalization leaves the prefix alone, so that leaving the level is all that happens to it
      have hBooks : (p₁.generalize (p.enter.opened a).1).2 = p₁ := by
        rw [generalize_eq N₁.laysLeft.wellFormed.scoping hCovers]
      have hBooks' : (q₁.generalize (q.enter.opened b).1).2 = q₁ := by
        rw [generalize_eq N₁.laysRight.wellFormed.scoping hCovers']
      simp only [Option.map_some, hBooks, hBooks'] at hKept hKept' ⊢
      refine .ends ⟨N₁.layout.leave, N₁.left, N₁.right, N₁.laysLeft.leave hLevel,
        N₁.laysRight.leave hLevel'⟩ f ⟨fun z hz => ⟨hKept.binds hz, ?_⟩,
        fun z hz => ⟨hKept'.binds hz, ?_⟩⟩ hReports fun hds => ?_
      · rw [(hMoves.left z (hOpens.narrows.binds hz)).2, hLeft z hz]
      · rw [(hMoves.right z (hOpens'.narrows.binds hz)).2, hRight z hz]
      · -- each side generalizes its first type, and the two types are equal by now
        refine generalize_alike N₁.laysLeft N₁.laysRight hCovers hCovers' ?_
        rw [hMoves.mono hOpens.coversActual, hMoves.mono_right hOpens'.coversActual]
        rcases Sym2.eq_iff.1 hInside with ⟨hab, -⟩ | ⟨-, heb⟩
        · rw [hab]
        · rw [hSame hds, heb]

end

/-! ## Ties -/

/-- What is checked before variables get their new bound: it leads to none of them, and a rigid one
has stood for it before. -/
structure Tie.Accepts (T : Tie) (p : Prefix) (t : Polytype) : Prop where
  apart : ∀ x ∈ T.vars, p.occurs x (T.target t) = false
  same : ∀ b ∈ T.bounds, b.kind = .rigid →
    (p.resolved (T.target t)).equivalent (p.resolved b.type) = true

/-- What a tie makes of the common instances. -/
inductive Tie.Concludes (T : Tie) :
    Option (Prefix × List Diagnostic × Polytype) → Outcome → Prop
  | stuck : Concludes T none none
  | failed {q : Prefix} {d : Diagnostic} {ds : List Diagnostic} {t : Polytype} :
    Concludes T (some (q, d :: ds, t)) (some (q, d :: ds))
  | rejected {q q' : Prefix} {d : Diagnostic} {t : Polytype} (hQuiet : q.Quiet q')
    (hNot : ¬ T.Accepts q' t) : Concludes T (some (q, [], t)) (some (q', [d]))
  | tied {q q' : Prefix} {t : Polytype} (hQuiet : q.Quiet q') (hAccepts : T.Accepts q' t) :
    Concludes T (some (q, [], t)) (some (T.finish q' t, []))

/-- A tie is refused by the first check, or it goes by the common instances and the last check. -/
theorem TieRun.course {R : Behavior} {p : Prefix} {T : Tie} {o : Outcome} (h : TieRun R p T o)
    (hp : p.Acyclic) :
    (¬ T.Begins p ∧ ∃ q d, p.Quiet q ∧ o = some (q, [d])) ∨
      (T.Begins p ∧ ∃ r, PolyRun R p T.actual T.expected r ∧ T.Concludes r o) := by
  cases h with
  -- refused at once: bounds that do not go together, or a circle
  | clash _ hBottom hQuiet _ hBounds =>
    have hNot : ¬ T.Begins p := fun hBegins => hBegins.movable ⟨hBottom.1, hBottom.2, hBounds⟩
    exact Or.inl ⟨hNot, _, _, hQuiet, rfl⟩
  | @cycle _ _ x hx hOccurs hQuiet _ =>
    refine Or.inl ⟨fun hBegins => ?_, _, _, hQuiet, rfl⟩
    obtain ⟨hActual, hExpected⟩ := hBegins.apart hp x hx
    simp [hActual, hExpected] at hOccurs
  | stuck h hBegins => exact Or.inr ⟨hBegins, _, h, .stuck⟩
  | failed h hBegins => exact Or.inr ⟨hBegins, _, h, .failed⟩
  -- refused at the end: a rigid bound would change, or there is a circle now
  | rigid h _ hDiffer hQuiet _ hBegins =>
    refine Or.inr ⟨hBegins, _, h, .rejected hQuiet fun hAccepts => ?_⟩
    obtain ⟨b, hb, hRigid, hFalse⟩ := hDiffer
    have hTrue := hAccepts.same b hb hRigid
    rw [hQuiet.resolved, hQuiet.resolved, hFalse] at hTrue
    cases hTrue
  | @knot _ _ _ _ x h hx hOccurs hQuiet _ hBegins =>
    refine Or.inr ⟨hBegins, _, h, .rejected hQuiet fun hAccepts => ?_⟩
    have hFalse := hAccepts.apart x hx
    rw [hQuiet.occurs, hOccurs] at hFalse
    cases hFalse
  | tied hBegins h hQuiet hFree hSame =>
    exact Or.inr ⟨hBegins, _, h, .tied hQuiet ⟨hFree, hSame⟩⟩

/-- What holds of one side when its variables are about to get their new bound. -/
structure Tie.Settled (T : Tie) (p q : Prefix) (t : Polytype) : Prop where
  kept : ∀ x ∈ T.vars, ∀ e, p.find? x = some e → q.find? x = some e
  covers : q.Covers (T.target t)
  normal : (T.target t).IsNormal

theorem Tie.Fits.settled {R : Behavior} (hSafe : Safe R) {T : Tie} {p q q' : Prefix}
    (hT : T.Fits p Set.univ) (hp : p.WellFormed) (hBegins : T.Begins p) {ds : List Diagnostic}
    {t : Polytype} (h : PolyRun R p T.actual T.expected (some (q, ds, t))) (hQuiet : q.Quiet q') :
    T.Settled p q' t := by
  have hPoly := hT.poly hSafe hp (closed_univ p) h 0
  refine ⟨fun x hx e he => ?_, hQuiet.covers (hT.target_safe hPoly).covers,
    (hT.target_safe hPoly).normal⟩
  rw [hQuiet.find?]
  exact hT.kept hSafe hp (hBegins.apart hp.acyclic) h hx he

theorem Tie.Fits.binds_finish {T : Tie} {p q : Prefix} {t : Polytype} (hT : T.Fits p Set.univ)
    (h : T.Settled p q t) (hAccepts : T.Accepts q t) (hq : q.WellFormed) {z : String}
    (hz : q.Binds z) : (T.finish q t).Binds z := by
  have hVars : ∀ x ∈ T.vars, q.Binds x ∧ x ∈ Set.univ := fun x hx => by
    obtain ⟨e, he⟩ := hT.binds x hx
    exact ⟨⟨e, h.kept x hx e he⟩, trivial⟩
  exact (hT.finish 0 hq hVars h.covers h.normal (fun _ _ => trivial) (closed_univ q)
    hAccepts.apart).binds hz

theorem Tie.Settled.unsolved {T : Tie} {p q : Prefix} {t : Polytype} (h : T.Settled p q t)
    {x : String} (hx : x ∈ T.vars) (hOpen : p.Unsolved x) : q.Unsolved x := by
  obtain ⟨e, he⟩ := hOpen.1
  exact (unsolved_iff (h.kept x hx e he)).2 ((unsolved_iff he).1 hOpen)

/-- Each member of either list has a partner in the other. -/
def Paired {α β : Type} (r : α → β → Prop) (xs : List α) (ys : List β) : Prop :=
  (∀ x ∈ xs, ∃ y ∈ ys, r x y) ∧ ∀ y ∈ ys, ∃ x ∈ xs, r x y

theorem Paired.flip {α β : Type} {r : α → β → Prop} {xs : List α} {ys : List β}
    (h : Paired r xs ys) : Paired (fun y x => r x y) ys xs := ⟨h.2, h.1⟩

theorem Paired.imp {α β : Type} {r r' : α → β → Prop} {xs : List α} {ys : List β}
    (h : Paired r xs ys) (hr : ∀ x ∈ xs, ∀ y ∈ ys, r x y → r' x y) : Paired r' xs ys := by
  refine ⟨fun x hx => ?_, fun y hy => ?_⟩
  · obtain ⟨y, hy, hxy⟩ := h.1 x hx
    exact ⟨y, hy, hr x hx y hy hxy⟩
  · obtain ⟨x, hx, hxy⟩ := h.2 y hy
    exact ⟨x, hx, hr x hx y hy hxy⟩

namespace Matching

variable {R : Behavior} {p q p₁ q₁ : Prefix} {M : Matching p q} {N : Matching p₁ q₁} {T T' : Tie}
  {x y : String} {t u : Polytype} {f : ℕ → Nameless.Mono ℕ}

/-- Two unsolved variables with one number. -/
def Alike (M : Matching p q) (x y : String) : Prop :=
  p.Unsolved x ∧ q.Unsolved y ∧ M.left x = M.right y

/-- Two bounds that are read alike. -/
def BoundsAlike (M : Matching p q) (b c : Bound) : Prop :=
  p.Covers b.type ∧ q.Covers c.type ∧ b.kind = c.kind ∧
    b.type.nameless M.left = c.type.nameless M.right

/-- Two ties that are read alike. -/
structure Ties (M : Matching p q) (T T' : Tie) : Prop where
  vars : Paired M.Alike T.vars T'.vars
  bounds : Paired M.BoundsAlike T.bounds T'.bounds
  types : s(T.actual.nameless M.left, T.expected.nameless M.left) =
    s(T'.actual.nameless M.right, T'.expected.nameless M.right)

theorem Alike.symm (h : M.Alike x y) : M.symm.Alike y x := ⟨h.2.1, h.1, h.2.2.symm⟩

theorem BoundsAlike.symm {b c : Bound} (h : M.BoundsAlike b c) : M.symm.BoundsAlike c b :=
  ⟨h.2.1, h.1, h.2.2.1.symm, h.2.2.2.symm⟩

theorem Ties.symm (h : M.Ties T T') : M.symm.Ties T' T :=
  ⟨h.vars.flip.imp fun _ _ _ _ => Alike.symm, h.bounds.flip.imp fun _ _ _ _ => BoundsAlike.symm,
    h.types.symm⟩

/-- Variables with one number are led to alike. -/
theorem Alike.occurs (h : M.Alike x y) (ht : p.Covers t) (hu : q.Covers u)
    (hRead : t.nameless M.left = u.nameless M.right) : p.occurs x t = q.occurs y u := by
  obtain ⟨i, hi⟩ := M.laysLeft.exists_var h.1
  rw [Bool.eq_iff_iff, M.laysLeft.occurs_iff ht h.1 hi,
    M.laysRight.occurs_iff hu h.2.1 (h.2.2.symm.trans hi), hRead]

/-- The first check has one answer for ties that are read alike: bottoms, rigid bounds and the
search for a variable are all seen by the reading. -/
theorem Ties.begins (h : M.Ties T T') (ha : p.Covers T.actual) (he : p.Covers T.expected)
    (ha' : q.Covers T'.actual) (he' : q.Covers T'.expected) (hBegins : T.Begins p) :
    T'.Begins q := by
  refine ⟨fun ⟨hActual, hExpected, hRigid⟩ => hBegins.movable ?_, fun _ y hy => ?_⟩
  · have hTypes := h.types
    rw [hActual, hExpected] at hTypes
    have hBottoms : .bottom = T.actual.nameless M.left ∧ .bottom = T.expected.nameless M.left := by
      rcases Sym2.eq_iff.1 hTypes with ⟨hA, hE⟩ | ⟨hA, hE⟩
      · exact ⟨hA.symm, hE.symm⟩
      · exact ⟨hA.symm, hE.symm⟩
    refine ⟨bottom_eq_nameless.1 hBottoms.1, bottom_eq_nameless.1 hBottoms.2, fun b hb => ?_⟩
    obtain ⟨c, hc, -, -, hKind, -⟩ := h.bounds.1 b hb
    rw [hKind, hRigid c hc]
  · -- a variable is looked for in both types, so their order does not matter
    obtain ⟨x, hx, hxy⟩ := h.vars.2 y hy
    obtain ⟨hActual, hExpected⟩ := hBegins.apart M.laysLeft.wellFormed.acyclic x hx
    rcases Sym2.eq_iff.1 h.types with ⟨hA, hE⟩ | ⟨hA, hE⟩
    · rw [← hxy.occurs ha ha' hA, ← hxy.occurs he he' hE]
      exact ⟨hActual, hExpected⟩
    · rw [← hxy.occurs he ha' hE, ← hxy.occurs ha he' hA]
      exact ⟨hExpected, hActual⟩

theorem Ties.accepts (h : M.Ties T T') (ht : p.Covers (T.target t)) (hu : q.Covers (T'.target u))
    (hRead : (T.target t).nameless M.left = (T'.target u).nameless M.right)
    (hAccepts : T.Accepts p t) : T'.Accepts q u := by
  refine ⟨fun y hy => ?_, fun c hc hRigid => ?_⟩
  · obtain ⟨x, hx, hxy⟩ := h.vars.2 y hy
    rw [← hxy.occurs ht hu hRead]
    exact hAccepts.apart x hx
  · obtain ⟨b, hb, hbCovers, hcCovers, hKind, hBound⟩ := h.bounds.2 c hc
    have hSame := hAccepts.same b hb (hKind.trans hRigid)
    rw [M.laysLeft.equivalent_iff ht hbCovers, hRead, hBound] at hSame
    exact (M.laysRight.equivalent_iff hu hcCovers).2 hSame

/-- Ties stay alike as long as their variables are left alone. -/
theorem Ties.moves (h : M.Ties T T') (ha : p.Covers T.actual) (he : p.Covers T.expected)
    (ha' : q.Covers T'.actual) (he' : q.Covers T'.expected) (hMoves : M.Moves f N)
    (hKept : ∀ x ∈ T.vars, p.Unsolved x → p₁.Unsolved x)
    (hKept' : ∀ x ∈ T'.vars, q.Unsolved x → q₁.Unsolved x) : N.Ties T T' where
  vars := h.vars.imp fun x hx y hy ⟨hxOpen, hyOpen, hRead⟩ => by
    refine ⟨hKept x hx hxOpen, hKept' y hy hyOpen, ?_⟩
    rw [(hMoves.left x hxOpen.1).2, (hMoves.right y hyOpen.1).2, hRead]
  bounds := h.bounds.imp fun b _ c _ ⟨hb, hc, hKind, hRead⟩ => by
    refine ⟨hMoves.covers hb, hMoves.symm.covers hc, hKind, ?_⟩
    rw [hMoves.poly hb, hMoves.poly_right hc, hRead]
  types := by
    rw [hMoves.poly ha, hMoves.poly he, hMoves.poly_right ha', hMoves.poly_right he']
    exact congrArg (Sym2.map fun t => Nameless.bind f t) h.types

end Matching

namespace Matching

variable {R : Behavior} {p q : Prefix} {T T' : Tie} {o o' : Outcome} {A E : Nameless.Mono ℕ}

/-- Runs that tie variables are in step, if their last steps are. -/
theorem tie_lockstep (hSafe : Safe R) (hLock : Lockstep R) {M : Matching p q}
    (hT : T.Fits p Set.univ) (hT' : T'.Fits q Set.univ) (hTies : M.Ties T T')
    (hOpen : T.actual.mono? = none ∨ T.expected.mono? = none)
    (hOpen' : T'.actual.mono? = none ∨ T'.expected.mono? = none)
    (hTarget : ∀ {p₁ q₁ : Prefix} {f : ℕ → Nameless.Mono ℕ} {t u : Polytype} {N : Matching p₁ q₁},
      M.Moves f N → t.nameless N.left = u.nameless N.right →
      (T.target t).nameless N.left = (T'.target u).nameless N.right)
    (hFinish : ∀ {p₁ q₁ : Prefix} {f : ℕ → Nameless.Mono ℕ} {t u : Polytype} {N : Matching p₁ q₁},
      M.Moves f N → T.Settled p p₁ t → T'.Settled q q₁ u → T.Accepts p₁ t → T'.Accepts q₁ u →
      t.nameless N.left = u.nameless N.right →
      ∃ (S : Layout) (g : ℕ → Nameless.Mono ℕ),
        S.Lays (fun z => (N.left z).bind g) (T.finish p₁ t) ∧
        S.Lays (fun z => (N.right z).bind g) (T'.finish q₁ u) ∧
        (A.bind f).bind g = (E.bind f).bind g)
    (h : TieRun R p T o) (h' : TieRun R q T' o') : M.Ends A E o o' := by
  have hp := M.laysLeft.wellFormed
  have hq := M.laysRight.wellFormed
  -- the first check has one answer
  have hBegin : T.Begins p ↔ T'.Begins q :=
    ⟨hTies.begins hT.actual.1 hT.expected.1 hT'.actual.1 hT'.expected.1,
      hTies.symm.begins hT'.actual.1 hT'.expected.1 hT.actual.1 hT.expected.1⟩
  rcases h.course hp.acyclic with ⟨hNot, p₁, d, hQuiet, rfl⟩ | ⟨hBegins, r, hr, hEnd⟩
  · rcases h'.course hq.acyclic with ⟨-, q₁, d', hQuiet', rfl⟩ | ⟨hBegins', -⟩
    · exact ends_refused hQuiet hQuiet' d d'
    · exact absurd (hBegin.2 hBegins') hNot
  rcases h'.course hq.acyclic with ⟨hNot, -⟩ | ⟨hBegins', r', hr', hEnd'⟩
  · exact absurd (hBegin.1 hBegins) hNot
  cases hr.lockstep hSafe hLock M ⟨hT.actual.1, hT.actual.2.1⟩ ⟨hT.expected.1, hT.expected.2.1⟩
      ⟨hT'.actual.1, hT'.actual.2.1⟩ ⟨hT'.expected.1, hT'.expected.2.1⟩ hTies.types hOpen hOpen'
      hr' with
  | stuck =>
    cases hEnd
    cases hEnd'
    exact .stuck
  | @ends p₁ q₁ ds ds' t u N f hMoves hReports hRead =>
    -- the last check has one answer
    have hLast {p₂ q₂ : Prefix} (hds : ds = []) (hQuiet : p₁.Quiet p₂) (hQuiet' : q₁.Quiet q₂) :
        T.Accepts p₂ t ↔ T'.Accepts q₂ u := by
      have hSettled := hT.settled hSafe hp hBegins hr hQuiet
      have hSettled' := hT'.settled hSafe hq hBegins' hr' hQuiet'
      have hMoves' := hMoves.quiet hQuiet hQuiet'
      have hTies' := hTies.moves hT.actual.1 hT.expected.1 hT'.actual.1 hT'.expected.1 hMoves'
        (fun x hx => hSettled.unsolved hx) fun x hx => hSettled'.unsolved hx
      have hTargets := hTarget hMoves' (hRead hds)
      exact ⟨hTies'.accepts hSettled.covers hSettled'.covers hTargets,
        hTies'.symm.accepts hSettled'.covers hSettled.covers hTargets.symm⟩
    cases hEnd with
    | failed =>
      cases hEnd' with
      | failed => exact .ends N f hMoves (by simp) (by simp)
      | rejected => simp at hReports
      | tied => simp at hReports
    | rejected hQuiet hNot =>
      cases hEnd' with
      | failed => simp at hReports
      | rejected hQuiet' _ => exact .ends _ f (hMoves.quiet hQuiet hQuiet') (by simp) (by simp)
      | tied hQuiet' hAccepts => exact absurd ((hLast rfl hQuiet hQuiet').2 hAccepts) hNot
    | tied hQuiet hAccepts =>
      cases hEnd' with
      | failed => simp at hReports
      | rejected hQuiet' hNot => exact absurd ((hLast rfl hQuiet hQuiet').1 hAccepts) hNot
      | tied hQuiet' hAccepts' =>
        have hMoves' := hMoves.quiet hQuiet hQuiet'
        have hSettled := hT.settled hSafe hp hBegins hr hQuiet
        have hSettled' := hT'.settled hSafe hq hBegins' hr' hQuiet'
        obtain ⟨S, g, hLeft, hRight, hSame⟩ :=
          hFinish hMoves' hSettled hSettled' hAccepts hAccepts' (hRead rfl)
        refine .ends ⟨S, _, _, hLeft, hRight⟩ _ (hMoves'.trans (g := g)
          ⟨fun z hz => ⟨?_, rfl⟩, fun z hz => ⟨?_, rfl⟩⟩) Iff.rfl fun _ => by simpa using hSame
        · -- the names in play before the last step are in play after it
          exact hT.binds_finish hSettled hAccepts (N.quiet hQuiet hQuiet').laysLeft.wellFormed hz
        · exact hT'.binds_finish hSettled' hAccepts'
            (N.quiet hQuiet hQuiet').laysRight.wellFormed hz

/-! ## The two ways to tie variables -/

/-- Variables with one number have entries that are read alike. -/
theorem Alike.entries {M : Matching p q} {x y : String} {ex ey : Entry} (h : M.Alike x y)
    (hx : p.find? x = some ex) (hy : q.find? y = some ey) :
    ex.level = ey.level ∧ M.BoundsAlike ex.bound ey.bound := by
  obtain ⟨i, hi⟩ := M.laysLeft.exists_var h.1
  have hCell := M.laysLeft.cell_of_var hx h.1 hi
  rw [M.laysRight.cell_of_var hy h.2.1 (h.2.2.symm.trans hi), Option.some.injEq,
    Cell.mk.injEq] at hCell
  obtain ⟨hLevel, hKind, hBound⟩ := hCell
  exact ⟨hLevel.symm, fun z hz => M.laysLeft.wellFormed.scoping.binds ⟨ex, hx, hz⟩,
    fun z hz => M.laysRight.wellFormed.scoping.binds ⟨ey, hy, hz⟩, hKind.symm, hBound.symm⟩

end Matching

theorem paired_singleton {α β : Type} {r : α → β → Prop} {x : α} {y : β} (h : r x y) :
    Paired r [x] [y] := by
  simpa [Paired] using h

theorem paired_pair {α β : Type} {r : α → β → Prop} {x x' : α} {y y' : β}
    (h : (r x y ∧ r x' y') ∨ (r x y' ∧ r x' y)) : Paired r [x, x'] [y, y'] := by
  simp only [Paired, List.mem_cons, List.not_mem_nil, or_false, exists_eq_or_imp, exists_eq_left,
    forall_eq_or_imp, forall_eq]
  tauto

/-- A run that solves the variable with a number by a type. -/
inductive Solves (R : Behavior) (ρ : Reading ℕ) (p : Prefix) (i : ℕ) (A : Nameless.Mono ℕ)
    (o : Outcome) : Prop
  | intro {x : String} {ex : Entry} {t : Monotype} {swapped : Bool} (hx : p.find? x = some ex)
    (hOpen : p.Unsolved x) (hi : ρ x = .var i) (ht : p.Covers t) (hA : t.nameless ρ = A)
    (h : TieRun R p (.solve x ex.bound t swapped) o)

/-- A run that makes the variables with two numbers one. -/
inductive Merges (R : Behavior) (ρ : Reading ℕ) (p : Prefix) (i j : ℕ) (o : Outcome) : Prop
  | intro {x y : String} {ex ey : Entry} (hx : p.find? x = some ex) (hy : p.find? y = some ey)
    (hxOpen : p.Unsolved x) (hyOpen : p.Unsolved y) (hne : x ≠ y)
    (hNumbers : s(ρ x, ρ y) = s(.var i, .var j))
    (h : TieRun R p (.merge x y ex.bound ey.bound) o)

theorem solve_types (ρ : Reading ℕ) (x : String) (b : Bound) (t : Monotype) (swapped : Bool) :
    s((Tie.solve x b t swapped).actual.nameless ρ, (Tie.solve x b t swapped).expected.nameless ρ) =
      s(b.type.nameless ρ, .mono (t.nameless ρ)) := by
  cases swapped with
  | true => exact Sym2.eq_swap
  | false => rfl

theorem solve_open {b : Bound} (hb : b.type.mono? = none) (x : String) (t : Monotype)
    (swapped : Bool) : (Tie.solve x b t swapped).actual.mono? = none ∨
      (Tie.solve x b t swapped).expected.mono? = none := by
  cases swapped with
  | true => exact Or.inr hb
  | false => exact Or.inl hb

/-- Runs that solve variables with one number by types that are read alike are in step. -/
theorem solve_lockstep {R : Behavior} (hSafe : Safe R) (hLock : Lockstep R) {p q : Prefix}
    {M : Matching p q} {i : ℕ} {A : Nameless.Mono ℕ} {o o' : Outcome}
    (h : Solves R M.left p i A o) (h' : Solves R M.right q i A o') : M.Ends (.var i) A o o' := by
  obtain @⟨x, ex, t, swapped, hx, hxOpen, hxi, ht, htRead, hRun⟩ := h
  obtain @⟨y, ey, u, swapped', hy, hyOpen, hyi, hu, huRead, hRun'⟩ := h'
  have hAlike : M.Alike x y := ⟨hxOpen, hyOpen, hxi.trans hyi.symm⟩
  have hRead : t.nameless M.left = u.nameless M.right := htRead.trans huRead.symm
  obtain ⟨hLevel, hBounds⟩ := hAlike.entries hx hy
  -- the type is read alike at every later point
  have hTypes {p₁ q₁ : Prefix} {f : ℕ → Nameless.Mono ℕ} {N : Matching p₁ q₁}
      (hMoves : M.Moves f N) : t.nameless N.left = u.nameless N.right := by
    rw [hMoves.mono ht, hRead, hMoves.mono_right hu]
  refine Matching.tie_lockstep hSafe hLock
    (Tie.solve_fits M.laysLeft.wellFormed hx ht swapped (closed_univ p) trivial fun _ _ => trivial)
    (Tie.solve_fits M.laysRight.wellFormed hy hu swapped' (closed_univ q) trivial
      fun _ _ => trivial)
    ⟨paired_singleton hAlike, paired_singleton hBounds, ?_⟩
    (solve_open ((unsolved_iff hx).1 hxOpen) x t swapped)
    (solve_open ((unsolved_iff hy).1 hyOpen) y u swapped')
    (fun hMoves _ => congrArg Nameless.mono (hTypes hMoves)) ?_ hRun hRun'
  · rw [solve_types, solve_types, hBounds.2.2.2, hRead]
  · intro p₁ q₁ f v w N hMoves hSettled hSettled' hAccepts hAccepts' _
    -- the variable has the bound that it had, so that both sides still give it one number
    have hx₁ := hSettled.kept x (List.mem_singleton_self x) ex hx
    have hy₁ := hSettled'.kept y (List.mem_singleton_self y) ey hy
    obtain ⟨j, hj⟩ := N.laysLeft.exists_var (hSettled.unsolved (List.mem_singleton_self x) hxOpen)
    have hSame : N.left x = N.right y := by
      rw [(hMoves.left x hxOpen.1).2, (hMoves.right y hyOpen.1).2, hAlike.2.2]
    have hLeft := N.laysLeft.solve hx₁ ((unsolved_iff hx).1 hxOpen) hj ex.bound.kind
      (hMoves.covers ht) (hAccepts.apart x (List.mem_singleton_self x))
    have hRight := N.laysRight.solve hy₁ ((unsolved_iff hy).1 hyOpen) (hSame.symm.trans hj)
      ey.bound.kind (hMoves.symm.covers hu) (hAccepts'.apart y (List.mem_singleton_self y))
    rw [← hTypes hMoves, ← hLevel] at hRight
    refine ⟨_, _, hLeft, hRight, ?_⟩
    -- a solved variable is read as its solution, in the layout at the end
    obtain ⟨l, hNew, -⟩ := (update_updates ⟨ex, hx₁⟩ ⟨ex.bound.kind, .mono t⟩).bound x ex hx₁
    have hSolved := hLeft.solved x t (solution?_eq_some.2 ⟨_, hNew, by rw [if_pos rfl]⟩)
    rw [← Monotype.nameless_bind] at hSolved
    rw [← htRead, ← hMoves.mono ht, ← hxi, ← (hMoves.left x hxOpen.1).2]
    exact hSolved

/-- Runs that make variables with the same two numbers one are in step. -/
theorem merge_lockstep {R : Behavior} (hSafe : Safe R) (hLock : Lockstep R) {p q : Prefix}
    {M : Matching p q} {i j : ℕ} {o o' : Outcome} (h : Merges R M.left p i j o)
    (h' : Merges R M.right q i j o') : M.Ends (.var i) (.var j) o o' := by
  obtain @⟨x, y, ex, ey, hx, hy, hxOpen, hyOpen, hne, hNumbers, hRun⟩ := h
  obtain @⟨x', y', ex', ey', hx', hy', hxOpen', hyOpen', hne', hNumbers', hRun'⟩ := h'
  -- the variables have partners in the same order or in the other one
  have hAlike : (M.Alike x x' ∧ M.Alike y y') ∨ (M.Alike x y' ∧ M.Alike y x') := by
    rcases Sym2.eq_iff.1 (hNumbers.trans hNumbers'.symm) with ⟨hxx, hyy⟩ | ⟨hxy, hyx⟩
    · exact Or.inl ⟨⟨hxOpen, hxOpen', hxx⟩, hyOpen, hyOpen', hyy⟩
    · exact Or.inr ⟨⟨hxOpen, hyOpen', hxy⟩, hyOpen, hxOpen', hyx⟩
  have hEntries : (M.BoundsAlike ex.bound ex'.bound ∧ M.BoundsAlike ey.bound ey'.bound) ∨
      (M.BoundsAlike ex.bound ey'.bound ∧ M.BoundsAlike ey.bound ex'.bound) :=
    hAlike.imp (fun ⟨hxx, hyy⟩ => ⟨(hxx.entries hx hx').2, (hyy.entries hy hy').2⟩)
      fun ⟨hxy, hyx⟩ => ⟨(hxy.entries hx hy').2, (hyx.entries hy hx').2⟩
  have hLevels : min ex.level ey.level = min ex'.level ey'.level := by
    rcases hAlike with ⟨hxx, hyy⟩ | ⟨hxy, hyx⟩
    · rw [(hxx.entries hx hx').1, (hyy.entries hy hy').1]
    · rw [(hxy.entries hx hy').1, (hyx.entries hy hx').1, Nat.min_comm]
  have hKinds : (ex.bound.kind = .rigid ∨ ey.bound.kind = .rigid) ↔
      (ex'.bound.kind = .rigid ∨ ey'.bound.kind = .rigid) := by
    rcases hEntries with ⟨hxx, hyy⟩ | ⟨hxy, hyx⟩
    · rw [hxx.2.2.1, hyy.2.2.1]
    · rw [hxy.2.2.1, hyx.2.2.1, or_comm]
  have hxIn : x ∈ [x, y] := List.mem_cons_self
  have hyIn : y ∈ [x, y] := List.mem_cons_of_mem x (List.mem_singleton_self y)
  have hxIn' : x' ∈ [x', y'] := List.mem_cons_self
  have hyIn' : y' ∈ [x', y'] := List.mem_cons_of_mem x' (List.mem_singleton_self y')
  refine Matching.tie_lockstep hSafe hLock
    (Tie.merge_fits M.laysLeft.wellFormed hne hx hy (closed_univ p) trivial trivial)
    (Tie.merge_fits M.laysRight.wellFormed hne' hx' hy' (closed_univ q) trivial trivial)
    ⟨paired_pair hAlike, paired_pair hEntries, ?_⟩ (Or.inl ((unsolved_iff hx).1 hxOpen))
    (Or.inl ((unsolved_iff hx').1 hxOpen')) (fun _ hRead => hRead) ?_ hRun hRun'
  · exact Sym2.eq_iff.2 (hEntries.imp (fun ⟨hxx, hyy⟩ => ⟨hxx.2.2.2, hyy.2.2.2⟩)
      fun ⟨hxy, hyx⟩ => ⟨hxy.2.2.2, hyx.2.2.2⟩)
  · intro p₁ q₁ f v w N hMoves hSettled hSettled' hAccepts hAccepts' hRead
    have hxOpen₁ := hSettled.unsolved hxIn hxOpen
    have hyOpen₁ := hSettled.unsolved hyIn hyOpen
    obtain ⟨k, hk⟩ := N.laysLeft.exists_var hxOpen₁
    obtain ⟨l, hl⟩ := N.laysLeft.exists_var hyOpen₁
    -- the numbers after the runs on the bounds, again as an unordered pair
    have hNumbers₁ : s(.var k, .var l) = s(N.right x', N.right y') := by
      rw [← hk, ← hl, (hMoves.left x hxOpen.1).2, (hMoves.left y hyOpen.1).2,
        (hMoves.right x' hxOpen'.1).2, (hMoves.right y' hyOpen'.1).2]
      exact congrArg (Sym2.map fun m => Nameless.Mono.bind f m) (hNumbers.trans hNumbers'.symm)
    have hLeft := N.laysLeft.merge (t := v) (hSettled.kept x hxIn ex hx)
      (hSettled.kept y hyIn ey hy) hxOpen₁ hyOpen₁ hne (Or.inl ⟨hk, hl⟩)
      (if ex.bound.kind = .rigid ∨ ey.bound.kind = .rigid then .rigid else .flexible)
      hSettled.normal hSettled.covers (hAccepts.apart x hxIn) (hAccepts.apart y hyIn)
    have hRight := N.laysRight.merge (t := w) (hSettled'.kept x' hxIn' ex' hx')
      (hSettled'.kept y' hyIn' ey' hy') (hSettled'.unsolved hxIn' hxOpen')
      (hSettled'.unsolved hyIn' hyOpen') hne' (Sym2.eq_iff.1 hNumbers₁.symm)
      (if ex'.bound.kind = .rigid ∨ ey'.bound.kind = .rigid then .rigid else .flexible)
      hSettled'.normal hSettled'.covers (hAccepts'.apart x' hxIn') (hAccepts'.apart y' hyIn')
    -- both numbers are replaced by the same, whichever of them is kept
    have hJoins : joining k l (v.nameless N.left) k = joining k l (v.nameless N.left) l :=
      (joining_left k l _).trans (joining_right k l _).symm
    refine ⟨_, joining k l (v.nameless N.left), hLeft, ?_, ?_⟩
    · rw [hLevels, if_congr hKinds rfl rfl, hRead]
      exact hRight
    · -- the two types of the run are these two variables, in some order
      have hSides : s((Nameless.Mono.var i).bind f, (Nameless.Mono.var j).bind f) =
          s(.var k, .var l) := by
        rw [← hk, ← hl, (hMoves.left x hxOpen.1).2, (hMoves.left y hyOpen.1).2]
        exact congrArg (Sym2.map fun m => Nameless.Mono.bind f m) hNumbers.symm
      rcases Sym2.eq_iff.1 hSides with ⟨hi, hj⟩ | ⟨hi, hj⟩
      · rw [hi, hj]
        exact hJoins
      · rw [hi, hj]
        exact hJoins.symm

end Unify

end Mlf
