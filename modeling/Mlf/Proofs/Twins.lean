import Mathlib
import Mlf.Proofs.OpenedChains
import Mlf.Proofs.QuantifierOrder
import Mlf.Proofs.UnifyCompleteness

/-!
# Variables and their twins

A type is unified with a copy of itself. The variables of the copy are twins of those of the type, and
as long as nothing has happened to a pair, the bound of the twin is a copy of the bound of the
original. Unification then makes the pair one: the twin stands for the original, which gets the common
instances of the two bounds as its bound. These are what the bound was, with its quantifiers listed
anew. So the new bound is in order, and if the old one was, the two agree.

Main results:

* `Twins`, `Tidies` — pairs of variables, and what happens to them;
* `Twins.join` — a pair that is made one;
* `Unfolds.leave` — pairs at a level of their own, as the level is left.
-/

namespace Mlf

open Relation Polytype

variable {s : Prefix} {x y : String}

namespace Prefix

variable {p q : Prefix} {σ τ : String → String}

/-- A name that has a twin, which stands for it. -/
def TiedTo (p : Prefix) (σ : String → String) (x : String) : Prop :=
  ∃ y, y ≠ x ∧ σ y = x ∧ p.solution? y = some (.var x)

/-- The bounds of a variable and its twin as long as nothing has happened to them. -/
structure Alike (σ : String → String) (b c : Bound) : Prop where
  kind : c.kind = .flexible
  flexible : b.type.Flexible ∧ c.type.Flexible
  copies : c.type.Copies σ b.type
  paired : ∀ w ∈ c.type.freeVars, σ w ≠ w

/-- The bounds of a variable and its twin once the two are one. -/
structure Joined (p : Prefix) (σ : String → String) (x : String) (b c : Bound) : Prop where
  solution : c.type = mono (.var x)
  inOrder : b.type.InOrder
  names : ∀ w ∈ b.type.freeVars, p.TiedTo σ w

/-- The entries of a variable and of its twin `y`. -/
structure Pair (p : Prefix) (σ : String → String) (y : String) (ex ey : Entry) : Prop where
  original : p.find? (σ y) = some ex
  twin : p.find? y = some ey
  level : ey.level = ex.level
  kind : ex.bound.kind = .flexible
  unsolved : ex.bound.type.mono? = none
  state : Alike σ ex.bound ey.bound ∨ Joined p σ (σ y) ex.bound ey.bound

/-- The names that `σ` moves are twins, and it takes them to their originals. -/
structure Twins (p : Prefix) (σ : String → String) : Prop where
  fixed : ∀ y, σ (σ y) = σ y
  injective : ∀ y z, σ y ≠ y → σ z ≠ z → σ y = σ z → y = z
  pairs : ∀ y, σ y ≠ y → ∃ ex ey, p.Pair σ y ex ey

/-- A step that only makes pairs one: the originals keep their levels, and also their bounds if these
were in order. -/
structure Tidies (σ : String → String) (p q : Prefix) : Prop where
  twins : q.Twins σ
  bounds : ∀ y, σ y ≠ y → ∀ ex, p.find? (σ y) = some ex → ∃ b, q.find? (σ y) = some ⟨ex.level, b⟩ ∧
    (ex.bound.type.InOrder → b.type.shape = ex.bound.type.shape)
  tied : ∀ x, p.TiedTo σ x → q.TiedTo σ x

theorem Alike.mono? {b c : Bound} (h : Alike σ b c) (hb : b.type.mono? = none) :
    c.type.mono? = none := by
  have hCopy := h.copies.mono?
  rwa [hb, eq_comm, Option.map_eq_none_iff] at hCopy

theorem Twins.eq_of_unbound (h : p.Twins σ) (hy : ¬ p.Binds y) : σ y = y := by
  by_contra hMoved
  obtain ⟨ex, ey, hPair⟩ := h.pairs y hMoved
  exact hy ⟨ey, hPair.twin⟩

/-- An original is no twin. -/
theorem Twins.ne_original (h : p.Twins σ) (hy : σ y ≠ y) (z : String) : y ≠ σ z := by
  rintro rfl
  exact hy (h.fixed z)

/-- The original of a tied pair is not solved, its bound is in order, and so on with the names in
the bound. -/
theorem Twins.tied (h : p.Twins σ) (hx : p.TiedTo σ x) :
    ∃ e, p.find? x = some e ∧ e.bound.kind = .flexible ∧ e.bound.type.mono? = none ∧
      e.bound.type.InOrder ∧ ∀ w ∈ e.bound.type.freeVars, p.TiedTo σ w := by
  obtain ⟨y, hne, rfl, hSolution⟩ := hx
  obtain ⟨ex, ey, hPair⟩ := h.pairs y hne.symm
  obtain ⟨e, he, hType⟩ := solution?_eq_some.1 hSolution
  obtain rfl := Option.some.inj (hPair.twin.symm.trans he)
  rcases hPair.state with hAlike | hJoined
  · -- a twin that stands for something is not as it was
    have hNotMono := hAlike.mono? hPair.unsolved
    rw [hType] at hNotMono
    cases hNotMono
  · exact ⟨ex, hPair.original, hPair.kind, hPair.unsolved, hJoined.inOrder, hJoined.names⟩

theorem Twins.closed_tied (h : p.Twins σ) : p.Closed {x | p.TiedTo σ x} := by
  rintro x hx w ⟨e, he, hw⟩
  obtain ⟨e', he', -, -, -, hNames⟩ := h.tied hx
  obtain rfl := Option.some.inj (he.symm.trans he')
  exact hNames w hw

/-! ## Keeping books -/

theorem TiedTo.mono (h : ∀ y m, p.solution? y = some m → q.solution? y = some m)
    (hx : p.TiedTo σ x) : q.TiedTo σ x := by
  obtain ⟨y, hne, hy, hSolution⟩ := hx
  exact ⟨y, hne, hy, h y _ hSolution⟩

theorem Pair.congr {ex ey : Entry} (h : p.Pair σ y ex ey) (hFind : ∀ x, q.find? x = p.find? x) :
    q.Pair σ y ex ey where
  original := by rw [hFind, h.original]
  twin := by rw [hFind, h.twin]
  level := h.level
  kind := h.kind
  unsolved := h.unsolved
  state := h.state.imp_right fun hJoined =>
    ⟨hJoined.solution, hJoined.inOrder, fun w hw =>
      (hJoined.names w hw).mono fun y m hm => by rwa [solution?, hFind]⟩

theorem Twins.congr (h : p.Twins σ) (hFind : ∀ x, q.find? x = p.find? x) : q.Twins σ where
  fixed := h.fixed
  injective := h.injective
  pairs y hy := by
    obtain ⟨ex, ey, hPair⟩ := h.pairs y hy
    exact ⟨ex, ey, hPair.congr hFind⟩

theorem Twins.tidies_of_quiet (h : p.Twins σ) (hQuiet : p.Quiet q) : Tidies σ p q where
  twins := h.congr hQuiet.find?
  bounds y _ ex hex := ⟨ex.bound, by rw [hQuiet.find?, hex], fun _ => rfl⟩
  tied x hx := hx.mono fun y m hm => by rwa [hQuiet.solution?]

theorem Tidies.trans (h : Tidies σ p q) (h' : Tidies σ q s) : Tidies σ p s where
  twins := h'.twins
  bounds y hy ex hex := by
    obtain ⟨b, hb, hSame⟩ := h.bounds y hy ex hex
    obtain ⟨c, hc, hSame'⟩ := h'.bounds y hy ⟨ex.level, b⟩ hb
    refine ⟨c, hc, fun hInOrder => ?_⟩
    have hShape := hSame hInOrder
    exact (hSame' ((inOrder_iff_of_shape_eq hShape).2 hInOrder)).trans hShape
  tied x hx := h'.tied x (h.tied x hx)

/-! ## Making a pair one -/

/-- Making two variables of one level one, with a new bound over variables that are no younger. -/
theorem find?_merge_of_le (hp : p.Scoped) {ex ey : Entry} (hx : p.find? x = some ex)
    (hy : p.find? y = some ey) (hne : x ≠ y) (hLevel : ey.level = ex.level) {b : Bound}
    (hb : ∀ z ∈ b.type.freeVars, ∃ e, p.find? z = some e ∧ e.level ≤ ex.level) (z : String) :
    (p.merge x y b).2.find? z =
      if z = y then some ⟨ey.level, ⟨.flexible, mono (.var x)⟩⟩
      else if z = x then some ⟨ex.level, b⟩ else p.find? z := by
  have hContains : (p.entries.contains x && p.entries.contains y) = true := by
    have hx' := hx
    have hy' := hy
    rw [find?] at hx' hy'
    simp [NameMap.contains, hx', hy']
  -- of two variables of one level the first survives
  have hMerge : (p.merge x y b).2 = (p.update x b).update y ⟨.flexible, mono (.var x)⟩ := by
    rw [merge_def, survivor]
    rw [if_pos hContains, hx, hy]
    simp [hLevel]
  -- no level changes, since what the new bound mentions is no younger than the two
  have hFirst := find?_update_of_le hp hx hb
  have hyFirst : (p.update x b).find? y = some ey := by rw [hFirst, if_neg hne.symm, hy]
  have hSecond := find?_update_of_le (b := ⟨.flexible, mono (.var x)⟩) (hp.rebound hx hb hFirst)
    hyFirst (by
      intro w hw
      obtain rfl : w = x := by simpa [Polytype.freeVars, Monotype.freeVars] using hw
      exact ⟨⟨ex.level, b⟩, by rw [hFirst, if_pos rfl], hLevel.ge⟩) z
  rw [hMerge, hSecond, hFirst]

/-- A pair becomes one: the twin stands for the original, which has a new bound in order. -/
theorem Twins.join (h : p.Twins σ) (hy : σ y ≠ y) {ex ey : Entry} (hPair : p.Pair σ y ex ey)
    (hOpen : ey.bound.type.mono? = none) {t : Polytype}
    (hFind : ∀ z, q.find? z = if z = y then some ⟨ey.level, ⟨.flexible, mono (.var (σ y))⟩⟩
      else if z = σ y then some ⟨ex.level, ⟨.flexible, t⟩⟩ else p.find? z)
    (hNotMono : t.mono? = none) (hInOrder : t.InOrder) (hNames : ∀ w ∈ t.freeVars, p.TiedTo σ w)
    (hSame : ex.bound.type.InOrder → t.shape = ex.bound.type.shape) :
    Tidies σ p q ∧ q.TiedTo σ (σ y) := by
  have hTwin : q.find? y = some ⟨ey.level, ⟨.flexible, mono (.var (σ y))⟩⟩ := by
    rw [hFind, if_pos rfl]
  have hOriginal : q.find? (σ y) = some ⟨ex.level, ⟨.flexible, t⟩⟩ := by
    rw [hFind, if_neg hy, if_pos rfl]
  -- the other pairs have nothing to do with the two
  have hOther {z : String} (hz : z ≠ y) (hMoved : σ z ≠ z) :
      q.find? z = p.find? z ∧ q.find? (σ z) = p.find? (σ z) := by
    have hOriginals : σ z ≠ σ y := fun hEq => hz (h.injective z y hMoved hy hEq)
    rw [hFind, if_neg hz, if_neg (h.ne_original hMoved y), hFind,
      if_neg (h.ne_original hy z).symm, if_neg hOriginals]
    exact ⟨rfl, rfl⟩
  have hTied (x : String) (hx : p.TiedTo σ x) : q.TiedTo σ x := by
    obtain ⟨z, hne, rfl, hSolution⟩ := hx
    -- the pair at hand was not tied before
    have hzy : z ≠ y := by
      rintro rfl
      obtain ⟨e, he, hType⟩ := solution?_eq_some.1 hSolution
      obtain rfl := Option.some.inj (hPair.twin.symm.trans he)
      rw [hType] at hOpen
      cases hOpen
    exact ⟨z, hne, rfl, by rwa [solution?, (hOther hzy hne.symm).1]⟩
  refine ⟨⟨⟨h.fixed, h.injective, fun z hz => ?_⟩, fun z hz e he => ?_, hTied⟩, y, hy.symm, rfl, ?_⟩
  · -- the pair at hand is tied now
    by_cases hzy : z = y
    · subst hzy
      exact ⟨_, _, hOriginal, hTwin, hPair.level, rfl, hNotMono,
        Or.inr ⟨rfl, hInOrder, fun w hw => hTied w (hNames w hw)⟩⟩
    · obtain ⟨ez, ez', hOld⟩ := h.pairs z hz
      obtain ⟨hSameTwin, hSameOriginal⟩ := hOther hzy hz
      refine ⟨ez, ez', hSameOriginal.trans hOld.original, hSameTwin.trans hOld.twin, hOld.level,
        hOld.kind, hOld.unsolved, hOld.state.imp_right fun hJoined => ?_⟩
      exact ⟨hJoined.solution, hJoined.inOrder, fun w hw => hTied w (hJoined.names w hw)⟩
  · by_cases hzy : z = y
    · subst hzy
      -- the original keeps its level, and its bound if that was in order
      obtain rfl := Option.some.inj (hPair.original.symm.trans he)
      exact ⟨_, hOriginal, hSame⟩
    · exact ⟨e.bound, (hOther hzy hz).2.trans he, fun _ => rfl⟩
  · exact solution?_eq_some.2 ⟨_, hTwin, rfl⟩

/-! ## Pairs at a level of their own -/

/-- New variables of a level of their own, `xs` for a type and `ys` for its copy, where `τ` takes the
new names of the copy to those of the type, and all other names where `σ` does. -/
structure Unfolds (p q : Prefix) (σ τ : String → String) (xs ys : List Binding) : Prop where
  agree : ∀ z, (∀ c ∈ ys, c.name ≠ z) → τ z = σ z
  names : xs.map (·.name) = ys.map fun c => τ c.name
  nodup : (xs.map (·.name)).Nodup
  old : ∀ z, p.Binds z → q.find? z = p.find? z
  original : ∀ d ∈ xs, ¬ p.Binds d.name ∧ τ d.name = d.name ∧
    q.find? d.name = some ⟨p.level + 1, d.bound⟩
  twin : ∀ c ∈ ys, ¬ p.Binds c.name ∧ τ c.name ≠ c.name ∧
    q.find? c.name = some ⟨p.level + 1, c.bound⟩

variable {xs ys : List Binding}

/-- Instances of a type and of its copy have new variables in pairs. -/
theorem Twins.unfolds (h : p.Twins σ) {p₁ p₂ : Prefix} (hFirst : p.enter.Adds p₁ xs)
    (hSecond : p₁.Adds p₂ ys) (hAgree : ∀ z, (∀ c ∈ ys, c.name ≠ z) → τ z = σ z)
    (hNames : xs.map (·.name) = ys.map fun c => τ c.name) : p.Unfolds p₂ σ τ xs ys := by
  have hLevel : p₁.level = p.level + 1 := hFirst.level
  have hOld {z : String} (hz : p.Binds z) : p₁.Binds z := hFirst.binds (binds_enter.2 hz)
  have hNew {d : Binding} (hd : d ∈ xs) : p₁.Binds d.name := ⟨_, hFirst.new d hd⟩
  -- the originals are there before the twins
  have hApart {z : String} (hz : p₁.Binds z) : ∀ c ∈ ys, c.name ≠ z := by
    rintro c hc rfl
    exact hSecond.fresh c hc hz
  have hFresh {d : Binding} (hd : d ∈ xs) : ¬ p.Binds d.name :=
    fun hb => hFirst.fresh d hd (binds_enter.2 hb)
  refine ⟨hAgree, hNames, ?_, fun z hz => ?_, fun d hd => ⟨hFresh hd, ?_, ?_⟩,
    fun c hc => ⟨fun hb => hSecond.fresh c hc (hOld hb), ?_, ?_⟩⟩
  · exact List.pairwise_map.2 (hFirst.ordered.pairwise.imp fun hbc => hbc.1)
  · rw [hSecond.find?_of_binds (hOld hz), hFirst.find?_of_binds (binds_enter.2 hz), find?_enter]
  · rw [hAgree _ (hApart (hNew hd))]
    exact h.eq_of_unbound (hFresh hd)
  · rw [hSecond.find?_of_binds (hNew hd), hFirst.new d hd]
    rfl
  · have hName : τ c.name ∈ xs.map (·.name) := by
      rw [hNames]
      exact List.mem_map_of_mem (f := fun c => τ c.name) hc
    obtain ⟨d, hd, hEq⟩ := List.mem_map.1 hName
    rw [← hEq]
    exact (hApart (hNew hd) c hc).symm
  · rw [hSecond.new c hc, hLevel]

theorem Unfolds.exists_original (h : p.Unfolds q σ τ xs ys) {c : Binding} (hc : c ∈ ys) :
    ∃ d ∈ xs, d.name = τ c.name := by
  have hName : τ c.name ∈ xs.map (·.name) := by
    rw [h.names]
    exact List.mem_map_of_mem (f := fun c => τ c.name) hc
  exact List.mem_map.1 hName

theorem Unfolds.exists_twin (h : p.Unfolds q σ τ xs ys) {d : Binding} (hd : d ∈ xs) :
    ∃ c ∈ ys, τ c.name = d.name := by
  have hName : d.name ∈ ys.map fun c => τ c.name := by
    rw [← h.names]
    exact List.mem_map_of_mem (f := fun d => d.name) hd
  exact List.mem_map.1 hName

/-- Old names are moved as before. -/
theorem Unfolds.eq_of_binds (h : p.Unfolds q σ τ xs ys) {z : String} (hz : p.Binds z) : τ z = σ z := by
  refine h.agree z fun c hc hcz => ?_
  exact (h.twin c hc).1 (hcz ▸ hz)

/-- A name that is moved is the twin of a new pair or of an old one. -/
theorem Unfolds.moved (h : p.Unfolds q σ τ xs ys) (hy : τ y ≠ y) :
    (∃ c ∈ ys, c.name = y) ∨ (τ y = σ y ∧ σ y ≠ y) := by
  by_cases hNew : ∃ c ∈ ys, c.name = y
  · exact Or.inl hNew
  · have hEq := h.agree y fun c hc hcy => hNew ⟨c, hc, hcy⟩
    exact Or.inr ⟨hEq, hEq ▸ hy⟩

/-- The names of a copy are twins, those of new variables among them. -/
theorem Unfolds.paired (h : p.Unfolds q σ τ xs ys) {t : Polytype}
    (hPaired : ∀ w ∈ (chain ys t).freeVars, σ w ≠ w) {w : String}
    (hw : (∃ c ∈ ys, w ∈ c.bound.type.freeVars) ∨ w ∈ t.freeVars) : τ w ≠ w := by
  by_cases hNew : ∃ c ∈ ys, c.name = w
  · obtain ⟨c, hc, rfl⟩ := hNew
    exact (h.twin c hc).2.1
  · have hNames : ∀ c ∈ ys, c.name ≠ w := fun c hc hcw => hNew ⟨c, hc, hcw⟩
    rw [h.agree w hNames]
    refine hPaired w ?_
    rcases hw with ⟨c, hc, hw⟩ | hw
    · exact mem_freeVars_chain_of_bound hc hw hNames
    · exact mem_freeVars_chain_of_body hw hNames

theorem Twins.binds (h : p.Twins σ) (hy : σ y ≠ y) : p.Binds (σ y) ∧ p.Binds y := by
  obtain ⟨ex, ey, hPair⟩ := h.pairs y hy
  exact ⟨⟨ex, hPair.original⟩, ⟨ey, hPair.twin⟩⟩

/-- A copy over twins, and what it is a copy of. -/
theorem Twins.covers (h : p.Twins σ) {e : Monotype} (he : ∀ y ∈ e.freeVars, σ y ≠ y) :
    p.Covers (e.rename σ) ∧ p.Covers e := by
  refine ⟨fun x hx => ?_, fun y hy => (h.binds (he y hy)).2⟩
  obtain ⟨y, hy, rfl⟩ := Monotype.exists_of_mem_freeVars_rename hx
  exact (h.binds (he y hy)).1

theorem Unfolds.fixed (h : p.Unfolds q σ τ xs ys) (hTwins : p.Twins σ) (y : String) :
    τ (τ y) = τ y := by
  by_cases hy : τ y = y
  · rw [hy, hy]
  · rcases h.moved hy with ⟨c, hc, rfl⟩ | ⟨hEq, hMoved⟩
    · obtain ⟨d, hd, hName⟩ := h.exists_original hc
      rw [← hName, (h.original d hd).2.1]
    · rw [hEq, h.eq_of_binds (hTwins.binds hMoved).1, hTwins.fixed]

theorem Unfolds.injective (h : p.Unfolds q σ τ xs ys) (hTwins : p.Twins σ) {z : String}
    (hy : τ y ≠ y) (hz : τ z ≠ z) (hEq : τ y = τ z) : y = z := by
  -- the original of an old pair is old, and that of a new pair is new
  have hMixed {c : Binding} (hc : c ∈ ys) {z : String} (hz : σ z ≠ z) : τ c.name ≠ σ z := by
    intro hEq
    obtain ⟨d, hd, hName⟩ := h.exists_original hc
    exact (h.original d hd).1 (hName ▸ hEq ▸ (hTwins.binds hz).1)
  have hNodup : (ys.map fun c => τ c.name).Nodup := h.names ▸ h.nodup
  rcases h.moved hy with ⟨c, hc, rfl⟩ | ⟨hEqy, hMovedy⟩
  · rcases h.moved hz with ⟨c', hc', rfl⟩ | ⟨hEqz, hMovedz⟩
    · rw [List.inj_on_of_nodup_map hNodup hc hc' hEq]
    · exact absurd (hEq.trans hEqz) (hMixed hc hMovedz)
  · rcases h.moved hz with ⟨c', hc', rfl⟩ | ⟨hEqz, hMovedz⟩
    · exact absurd (hEq.symm.trans hEqy) (hMixed hc' hMovedy)
    · exact hTwins.injective y z hMovedy hMovedz (hEqy.symm.trans (hEq.trans hEqz))

theorem Unfolds.tiedTo (h : p.Unfolds q σ τ xs ys) (hTwins : p.Twins σ) (hx : p.TiedTo σ x) :
    q.TiedTo τ x := by
  obtain ⟨y, hne, rfl, hSolution⟩ := hx
  have hy : p.Binds y := (hTwins.binds hne.symm).2
  exact ⟨y, hne, h.eq_of_binds hy, by rwa [solution?, h.old y hy]⟩

/-- A new name for names that are the same where a bound looks. -/
theorem Alike.congr {b c : Bound} (h : Alike σ b c) (hSame : ∀ w ∈ c.type.freeVars, τ w = σ w) :
    Alike τ b c where
  kind := h.kind
  flexible := h.flexible
  copies := (nameless_congr fun w hw => by rw [hSame w hw]).trans h.copies
  paired w hw := by
    rw [hSame w hw]
    exact h.paired w hw

/-- The pairs after instances of a type and of its copy are those before and the new ones. -/
theorem Unfolds.twins (h : p.Unfolds q σ τ xs ys) (hTwins : p.Twins σ) (hp : p.Scoped)
    (hNew : ∀ c ∈ ys, ∃ d ∈ xs, d.name = τ c.name ∧ d.bound.kind = .flexible ∧
      d.bound.type.mono? = none ∧ Alike τ d.bound c.bound) : q.Twins τ where
  fixed := h.fixed hTwins
  injective _ _ := h.injective hTwins
  pairs y hy := by
    rcases h.moved hy with ⟨c, hc, rfl⟩ | ⟨hEq, hMoved⟩
    · obtain ⟨d, hd, hName, hKind, hNotMono, hAlike⟩ := hNew c hc
      exact ⟨⟨p.level + 1, d.bound⟩, ⟨p.level + 1, c.bound⟩, hName ▸ (h.original d hd).2.2,
        (h.twin c hc).2.2, rfl, hKind, hNotMono, Or.inl hAlike⟩
    · obtain ⟨ex, ey, hPair⟩ := hTwins.pairs y hMoved
      obtain ⟨hOriginal, hTwin⟩ := hTwins.binds hMoved
      refine ⟨ex, ey, by rw [hEq, h.old _ hOriginal, hPair.original], (h.old y hTwin).trans hPair.twin,
        hPair.level, hPair.kind, hPair.unsolved, ?_⟩
      -- bounds of old variables mention old names, which are paired as before
      rcases hPair.state with hAlike | hJoined
      · exact Or.inl (hAlike.congr fun w hw => h.eq_of_binds (hp.binds ⟨ey, hPair.twin, hw⟩))
      · exact Or.inr ⟨hEq ▸ hJoined.solution, hJoined.inOrder,
          fun w hw => h.tiedTo hTwins (hJoined.names w hw)⟩

/-! ## As the level is left -/

/-- The new variables stay at their level, as long as pairs are only made one. -/
theorem Unfolds.level (h : p.Unfolds q σ τ xs ys) (hTidies : Tidies τ q s) {c : Binding}
    (hc : c ∈ ys) {e : Entry} (he : s.find? c.name = some e) : e.level = p.level + 1 := by
  obtain ⟨d, hd, hName⟩ := h.exists_original hc
  have hMoved := (h.twin c hc).2.1
  obtain ⟨ex, ey, hPair⟩ := hTidies.twins.pairs c.name hMoved
  obtain ⟨b, hb, -⟩ := hTidies.bounds c.name hMoved _ (hName ▸ (h.original d hd).2.2)
  obtain rfl := Option.some.inj (hPair.twin.symm.trans he)
  obtain rfl := Option.some.inj (hPair.original.symm.trans hb)
  exact hPair.level

/-- Names of older levels are moved as before. -/
theorem Unfolds.eq_of_level (h : p.Unfolds q σ τ xs ys) (hTidies : Tidies τ q s) {z : String}
    {e : Entry} (he : s.find? z = some e) (hLevel : e.level ≤ p.level) : τ z = σ z := by
  refine h.agree z fun c hc hcz => ?_
  have hNew := h.level hTidies hc (hcz ▸ he)
  omega

/-- The older pairs as the level is left. -/
theorem Unfolds.tiedTo_leave (h : p.Unfolds q σ τ xs ys) (hTidies : Tidies τ q s)
    (hs : s.WellFormed) (hLevel : s.level = p.level + 1) {e : Entry} (he : s.find? x = some e)
    (hOlder : e.level ≤ p.level) (hx : s.TiedTo τ x) : s.leave.TiedTo σ x := by
  obtain ⟨y, hne, rfl, hSolution⟩ := hx
  obtain ⟨ex, ey, hPair⟩ := hTidies.twins.pairs y hne.symm
  obtain rfl := Option.some.inj (hPair.original.symm.trans he)
  have hyLevel : ey.level ≤ p.level := hPair.level.trans_le hOlder
  have hLeave : s.leave.find? y = some ey :=
    (hs.owned.find?_leave (by omega) y ey).2 ⟨hPair.twin, by omega⟩
  refine ⟨y, hne, (h.eq_of_level hTidies hPair.twin hyLevel).symm, ?_⟩
  rwa [solution?, hLeave, ← hPair.twin]

/-- Making pairs one at a level of their own makes pairs one. -/
theorem Unfolds.leave (h : p.Unfolds q σ τ xs ys) (hTidies : Tidies τ q s) (hTwins : p.Twins σ)
    (hp : p.WellFormed) (hs : s.WellFormed) (hLevel : s.level = p.level + 1) :
    Tidies σ p s.leave := by
  have hOld {z : String} {e : Entry} (he : s.find? z = some e) (hLe : e.level ≤ p.level) :
      s.leave.find? z = some e := (hs.owned.find?_leave (by omega) z e).2 ⟨he, by omega⟩
  -- an old original keeps its level
  have hOriginal {y : String} (hy : σ y ≠ y) {ex : Entry} (hex : p.find? (σ y) = some ex) :
      ∃ b, s.find? (σ y) = some ⟨ex.level, b⟩ ∧ ex.level ≤ p.level ∧
        (ex.bound.type.InOrder → b.type.shape = ex.bound.type.shape) := by
    have hBinds := hTwins.binds hy
    have hEq := h.eq_of_binds hBinds.2
    have hMoved : τ y ≠ y := by rwa [hEq]
    obtain ⟨b, hb, hSame⟩ := hTidies.bounds y hMoved ex (by rw [hEq, h.old _ hBinds.1, hex])
    exact ⟨b, hEq ▸ hb, hp.owned.level_le hex, hSame⟩
  refine ⟨⟨hTwins.fixed, hTwins.injective, fun y hy => ?_⟩, fun y hy ex hex => ?_, fun x hx => ?_⟩
  · -- the older pairs are pairs still, in the state that they have come to on the level
    obtain ⟨e₀, _, hPair₀⟩ := hTwins.pairs y hy
    obtain ⟨b, hb, hLe, -⟩ := hOriginal hy hPair₀.original
    have hEq := h.eq_of_binds (hTwins.binds hy).2
    obtain ⟨ex, ey, hPair⟩ := hTidies.twins.pairs y (by rwa [hEq])
    have hx : s.find? (σ y) = some ex := hEq ▸ hPair.original
    obtain rfl := Option.some.inj (hx.symm.trans hb)
    have hyLe : ey.level ≤ p.level := hPair.level.trans_le hLe
    refine ⟨_, ey, hOld hx hLe, hOld hPair.twin hyLe, hPair.level, hPair.kind, hPair.unsolved, ?_⟩
    rcases hPair.state with hAlike | hJoined
    · -- the bound of an old variable mentions old names only, which `τ` moves as `σ` does
      refine Or.inl (hAlike.congr fun w hw => ?_)
      obtain ⟨ew, hew, hwLe⟩ := hs.scoping y ey hPair.twin w hw
      exact (h.eq_of_level hTidies hew (hwLe.trans hyLe)).symm
    · refine Or.inr ⟨hEq ▸ hJoined.solution, hJoined.inOrder, fun w hw => ?_⟩
      obtain ⟨ew, hew, hwLe⟩ := hs.scoping _ _ hx w hw
      exact h.tiedTo_leave hTidies hs hLevel hew (hwLe.trans hLe) (hJoined.names w hw)
  · obtain ⟨b, hb, hLe, hSame⟩ := hOriginal hy hex
    exact ⟨b, hOld hb hLe, hSame⟩
  · obtain ⟨y, hne, rfl, hSolution⟩ := hx
    obtain ⟨e₀, _, hPair₀⟩ := hTwins.pairs y hne.symm
    obtain ⟨b, hb, hLe, -⟩ := hOriginal hne.symm hPair₀.original
    -- pairs that were tied before are tied still
    exact h.tiedTo_leave hTidies hs hLevel hb hLe
      (hTidies.tied _ (h.tiedTo hTwins ⟨y, hne, rfl, hSolution⟩))

end Prefix

end Mlf
