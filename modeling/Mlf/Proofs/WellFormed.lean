import Mlf.Prefix.Generalize
import Mlf.Proofs.Reachability

/-!
# Well-formed prefixes

Four things make a prefix fit for use. Each variable is owned by the level that its entry names, and
by no other. A bound mentions variables in play only, and none that belongs to a younger level than
the variable itself, so leaving a level leaves no bound behind that mentions a forgotten name. No
variable is reached from its own bound. And all bounds are in normal form.

The operations on a prefix keep it well-formed when they are used by the rules: new variables get
bounds over the variables in play, and a variable is given a new bound that does not reach it.

Main results:

* `WellFormed.enter`, `WellFormed.leave` — levels;
* `WellFormed.add`, `WellFormed.newType` — new variables, with `Grows`, which says what changes;
* `WellFormed.update` — new bounds, with `Updates`, which says what changes.
-/

namespace Mlf

open Relation

variable {p q : Prefix} {b : Bound} {e : Entry} {x y : String}

theorem NameMap.find?_foldl_erase {α : Type} (xs : List String) (m : NameMap α) (y : String) :
    (xs.foldl NameMap.erase m).find? y = if y ∈ xs then none else m.find? y := by
  induction xs generalizing m with
  | nil => simp
  | cons x xs ih =>
    rw [List.foldl_cons, ih, NameMap.find?_erase]
    by_cases hx : y = x
    · simp [hx]
    · simp [hx]

namespace Prefix

/-- The level with number `l` owns a name. -/
def Owns (p : Prefix) (l : Nat) (x : String) : Prop :=
  l ≤ p.level ∧ ∃ names, p.levels[p.levelIndex l]? = some names ∧ x ∈ names

/-- Each variable is owned by the level of its entry, and by no other. -/
def Owned (p : Prefix) : Prop := ∀ x l, p.Owns l x ↔ ∃ e, p.find? x = some e ∧ e.level = l

/-- Bounds mention variables in play only, and none of a level younger than that of the variable. -/
def Scoped (p : Prefix) : Prop :=
  ∀ x e, p.find? x = some e → ∀ y ∈ e.bound.type.freeVars,
    ∃ e', p.find? y = some e' ∧ e'.level ≤ e.level

/-- A prefix that is fit for use. -/
structure WellFormed (p : Prefix) : Prop where
  owned : p.Owned
  scoping : p.Scoped
  acyclic : p.Acyclic
  normal : ∀ x e, p.find? x = some e → e.bound.type.IsNormal

/-- Whether all free names of a type are in play. -/
def Covers (p : Prefix) (t : Polytype) : Prop := ∀ x ∈ t.freeVars, p.Binds x

instance (p : Prefix) (t : Polytype) : Decidable (p.Covers t) :=
  inferInstanceAs (Decidable (∀ x ∈ t.freeVars.toList, p.Binds x))

/-- A variable that may be added: there is a level for it, its name is not in play, and its bound is
in normal form and over names in play. -/
structure Admits (p : Prefix) (x : String) (b : Bound) : Prop where
  level : 1 ≤ p.level
  fresh : ¬ p.Binds x
  normal : b.type.IsNormal
  covers : p.Covers b.type

instance (p : Prefix) (x : String) (b : Bound) : Decidable (p.Admits x b) :=
  decidable_of_iff (1 ≤ p.level ∧ ¬ p.Binds x ∧ b.type.IsNormal ∧ p.Covers b.type)
    ⟨fun ⟨hLevel, hFresh, hNormal, hCovers⟩ => ⟨hLevel, hFresh, hNormal, hCovers⟩,
      fun h => ⟨h.level, h.fresh, h.normal, h.covers⟩⟩

/-! ## What the parts of a prefix are good for -/

theorem Owned.level_pos (h : p.Owned) (he : p.find? x = some e) : 1 ≤ e.level := by
  obtain ⟨-, names, hNames, -⟩ := (h x e.level).2 ⟨e, he, rfl⟩
  obtain ⟨hIndex, -⟩ := List.getElem?_eq_some_iff.1 hNames
  simp only [levelIndex, level] at hIndex
  omega

theorem Owned.level_le (h : p.Owned) (he : p.find? x = some e) : e.level ≤ p.level :=
  ((h x e.level).2 ⟨e, he, rfl⟩).1

theorem Scoped.binds (h : p.Scoped) (hxy : p.Mentions x y) : p.Binds y := by
  obtain ⟨e, he, hy⟩ := hxy
  obtain ⟨e', he', -⟩ := h x e he y hy
  exact ⟨e', he'⟩

theorem Scoped.reaches_binds (h : p.Scoped) (hx : p.Binds x) (hxy : p.Reaches x y) : p.Binds y := by
  induction hxy with
  | refl => exact hx
  | tail _ hMentions _ => exact h.binds hMentions

/-- What a variable reaches is at most as young as the variable. -/
theorem Scoped.reaches_level (h : p.Scoped) {e' : Entry} (he : p.find? x = some e)
    (hxy : p.Reaches x y) (he' : p.find? y = some e') : e'.level ≤ e.level := by
  induction hxy generalizing e' with
  | refl =>
    obtain rfl : e = e' := Option.some.inj (he.symm.trans he')
    exact Nat.le_refl _
  | @tail a b _ hMentions ih =>
    obtain ⟨ea, ha, hb⟩ := hMentions
    -- one more bound, which mentions nothing younger
    obtain ⟨eb, hb', hLevel⟩ := h a ea ha b hb
    obtain rfl : e' = eb := Option.some.inj (he'.symm.trans hb')
    exact Nat.le_trans hLevel (ih ha)

theorem find?_congr (h : q.entries = p.entries) (x : String) : q.find? x = p.find? x := by
  rw [find?, find?, h]

theorem mentions_congr (h : ∀ x, q.find? x = p.find? x) : q.Mentions = p.Mentions := by
  ext x y
  rw [Mentions, Mentions, h x]

theorem owns_congr (h : q.levels = p.levels) (l : Nat) (x : String) : q.Owns l x ↔ p.Owns l x := by
  simp only [Owns, level, levelIndex, h]

theorem Owned.congr (h : p.Owned) (hEntries : q.entries = p.entries)
    (hLevels : q.levels = p.levels) : q.Owned := by
  intro x l
  rw [owns_congr hLevels, find?_congr hEntries]
  exact h x l

/-- A new bound for a variable leaves the owners as they are. -/
theorem Owned.rebound (h : p.Owned) (hx : p.find? x = some e)
    (hFind : ∀ y, q.find? y = if y = x then some ⟨e.level, b⟩ else p.find? y)
    (hLevels : q.levels = p.levels) : q.Owned := by
  intro y l
  rw [owns_congr hLevels, h y l, hFind]
  split_ifs with hyx
  · subst hyx
    simp [hx]
  · rfl

/-- Well-formedness is a matter of the variables and their owners. -/
theorem WellFormed.congr (h : p.WellFormed) (hEntries : q.entries = p.entries)
    (hLevels : q.levels = p.levels) : q.WellFormed := by
  have hFind := find?_congr hEntries
  refine ⟨h.owned.congr hEntries hLevels, fun x e he y hy => ?_, ?_, fun x e he => ?_⟩
  · rw [hFind] at he ⊢
    exact h.scoping x e he y hy
  · rw [Acyclic, mentions_congr hFind]
    exact h.acyclic
  · rw [hFind] at he
    exact h.normal x e he

theorem WellFormed.reaches_binds (h : p.WellFormed) (hx : p.Binds x) (hxy : p.Reaches x y) :
    p.Binds y := h.scoping.reaches_binds hx hxy

theorem not_binds_empty (x : String) : ¬ empty.Binds x := by
  rintro ⟨e, he⟩
  cases he

theorem wellFormed_empty : empty.WellFormed where
  owned x l := by simp [Owns, empty, find?]
  scoping x e he := by simp [empty, find?] at he
  acyclic x h := by
    obtain ⟨y, hxy, -⟩ := TransGen.head'_iff.1 h
    obtain ⟨e, he⟩ := hxy.binds
    simp [empty, find?] at he
  normal x e he := by simp [empty, find?] at he

/-! ## Notes and misuses -/

@[simp] theorem level_note (p : Prefix) (e : Event) : (p.note e).level = p.level := rfl
@[simp] theorem failures_note (p : Prefix) (e : Event) : (p.note e).failures = p.failures := rfl
@[simp] theorem find?_note (p : Prefix) (e : Event) (x : String) :
    (p.note e).find? x = p.find? x := rfl

@[simp] theorem failAll_nil (p : Prefix) : p.failAll [] = p := rfl

theorem entries_failAll (p : Prefix) (fs : List Failure) : (p.failAll fs).entries = p.entries := by
  induction fs generalizing p with
  | nil => rfl
  | cons f fs ih => exact ih (p.fail f)

theorem levels_failAll (p : Prefix) (fs : List Failure) : (p.failAll fs).levels = p.levels := by
  induction fs generalizing p with
  | nil => rfl
  | cons f fs ih => exact ih (p.fail f)

theorem failures_failAll (p : Prefix) (fs : List Failure) :
    (p.failAll fs).failures = p.failures ++ fs := by
  induction fs generalizing p with
  | nil => simp
  | cons f fs ih =>
    have hFail : (p.fail f).failures = p.failures ++ [f] := rfl
    rw [show p.failAll (f :: fs) = (p.fail f).failAll fs from rfl, ih, hFail]
    simp

theorem WellFormed.note (h : p.WellFormed) (e : Event) : (p.note e).WellFormed :=
  h.congr rfl rfl

/-! ## Owners -/

/-- Changing what one level owns. -/
theorem owns_modify {k : Nat} {f : NameSet → NameSet} (hPos : 1 ≤ k) (hk : k ≤ p.level)
    (hLevels : q.levels = p.levels.modify (p.levelIndex k) f) (l : Nat) (x : String) :
    q.Owns l x ↔ if l = k then ∃ names, p.levels[p.levelIndex k]? = some names ∧ x ∈ f names
      else p.Owns l x := by
  have hLevel : q.level = p.level := by simp [level, hLevels]
  have hIndex : q.levelIndex l = p.levelIndex l := by simp [levelIndex, hLevel]
  rw [Owns, hLevel, hIndex, hLevels, List.getElem?_modify]
  by_cases hl : l = k
  · subst hl
    simp only [hk, true_and, if_true]
    cases p.levels[p.levelIndex l]? <;> simp
  · rw [if_neg hl, Owns]
    refine and_congr_right fun hle => ?_
    -- another level has another place
    have hNe : p.levelIndex k ≠ p.levelIndex l := by
      simp only [levelIndex]
      omega
    simp [hNe]

@[simp] theorem level_disown (p : Prefix) (x : String) : (p.disown x).level = p.level := by
  unfold disown
  split <;> simp [level]

/-- Taking a name from its level takes it from everywhere, since no other level owns it. -/
theorem Owned.owns_disown (h : p.Owned) (x : String) (l : Nat) (y : String) :
    (p.disown x).Owns l y ↔ p.Owns l y ∧ y ≠ x := by
  unfold disown
  split
  · next hNone =>
    refine ⟨fun hy => ⟨hy, ?_⟩, And.left⟩
    rintro rfl
    obtain ⟨e, he, -⟩ := (h y l).1 hy
    rw [hNone] at he
    cases he
  · next e he =>
    -- only the level of the entry changes, and there the name goes
    rw [owns_modify (h.level_pos he) (h.level_le he) rfl]
    split_ifs with hl
    · subst hl
      simp only [NameSet.mem_erase]
      constructor
      · rintro ⟨names, hNames, hne, hy⟩
        exact ⟨⟨h.level_le he, names, hNames, hy⟩, hne⟩
      · rintro ⟨⟨-, names, hNames, hy⟩, hne⟩
        exact ⟨names, hNames, hne, hy⟩
    · refine ⟨fun hy => ⟨hy, ?_⟩, And.left⟩
      rintro rfl
      obtain ⟨e', he', hl'⟩ := (h y l).1 hy
      obtain rfl : e = e' := Option.some.inj (he.symm.trans he')
      exact hl hl'.symm

@[simp] theorem find?_place (p : Prefix) (x : String) (e : Entry) (y : String) :
    (p.place x e).find? y = if y = x then some e else p.find? y := by
  rw [find?, entries_place, NameMap.find?_insert]
  rfl

@[simp] theorem level_place (p : Prefix) (x : String) (e : Entry) :
    (p.place x e).level = p.level := by
  have := level_disown p x
  simp only [level] at this
  simp [place, level, this]

theorem counter_place (p : Prefix) (x : String) (e : Entry) :
    (p.place x e).counter = p.counter := by
  unfold place disown
  split <;> rfl

theorem failures_place (p : Prefix) (x : String) (e : Entry) :
    (p.place x e).failures = p.failures := by
  unfold place disown
  split <;> rfl

/-- A name is placed at a level that exists. -/
theorem Owned.place (h : p.Owned) (hPos : 1 ≤ e.level) (hLe : e.level ≤ p.level) :
    (p.place x e).Owned := by
  intro y l
  have hOwns : (p.place x e).Owns l y ↔ (p.disown x).Owns l y ∨ (y = x ∧ l = e.level) := by
    have hIndex : (p.disown x).levelIndex e.level = p.levelIndex e.level := by simp [levelIndex]
    rw [owns_modify (p := p.disown x) hPos (by simpa using hLe) (by rw [hIndex]; rfl)]
    split_ifs with hl
    · subst hl
      -- the level exists, so there is a set of names to put the name into
      have hSome : ∃ names, (p.disown x).levels[(p.disown x).levelIndex e.level]? = some names := by
        have hLength := level_disown p x
        simp only [level] at hLength hLe
        refine ⟨_, List.getElem?_eq_getElem ?_⟩
        simp only [levelIndex, level]
        omega
      obtain ⟨names, hNames⟩ := hSome
      simp [Owns, hNames, hLe, or_comm]
    · simp [hl]
  rw [hOwns, h.owns_disown, find?_place, h y l]
  by_cases hyx : y = x
  · simp [hyx, eq_comm]
  · simp [hyx]

/-! ## Levels -/

@[simp] theorem find?_enter (p : Prefix) (x : String) : p.enter.find? x = p.find? x := rfl
@[simp] theorem level_enter (p : Prefix) : p.enter.level = p.level + 1 := by simp [enter, level]

theorem one_le_level_enter (p : Prefix) : 1 ≤ p.enter.level := Nat.succ_le_succ (Nat.zero_le _)

theorem owns_enter (p : Prefix) (l : Nat) (x : String) : p.enter.Owns l x ↔ p.Owns l x := by
  simp only [Owns, levelIndex, level_enter]
  rcases Nat.lt_or_ge p.level l with hl | hl
  · -- the new level owns nothing
    have hIndex : p.level + 1 - l = 0 := by omega
    simp only [hIndex, enter, List.getElem?_cons_zero, Option.some.injEq]
    constructor
    · rintro ⟨-, names, rfl, hx⟩
      simp at hx
    · rintro ⟨hle, -⟩
      omega
  · have hIndex : p.level + 1 - l = p.level - l + 1 := by omega
    simp only [hIndex, enter, List.getElem?_cons_succ]
    exact and_congr_left fun _ => ⟨fun _ => hl, fun _ => by omega⟩

theorem Owned.enter (h : p.Owned) : p.enter.Owned := by
  intro x l
  rw [owns_enter, find?_enter]
  exact h x l

theorem WellFormed.enter (h : p.WellFormed) : p.enter.WellFormed := by
  have hMentions : p.enter.Mentions = p.Mentions := mentions_congr fun _ => rfl
  refine ⟨h.owned.enter, h.scoping, ?_, h.normal⟩
  rw [Acyclic, hMentions]
  exact h.acyclic

/-- Leaving a level forgets the variables of that level and no others. -/
theorem Owned.find?_leave (h : p.Owned) (hLevel : 1 ≤ p.level) (x : String) (e : Entry) :
    p.leave.find? x = some e ↔ p.find? x = some e ∧ e.level < p.level := by
  have hTop := h x p.level
  unfold leave
  split
  · next hNil => simp [level, hNil] at hLevel
  · next top rest hLevels =>
    have hOwns : p.Owns p.level x ↔ x ∈ top := by simp [Owns, levelIndex, hLevels]
    rw [find?, NameMap.find?_foldl_erase]
    rw [hOwns] at hTop
    by_cases hx : x ∈ top
    · -- a name of the current level is erased, and its entry says so too
      obtain ⟨e', he', hLevel'⟩ := hTop.1 hx
      simp only [NameSet.mem_toList, hx, if_true, he', Option.some.injEq, reduceCtorEq, false_iff]
      rintro ⟨rfl, hLt⟩
      omega
    · simp only [NameSet.mem_toList, hx, if_false]
      refine ⟨fun he => ⟨he, ?_⟩, And.left⟩
      have hLe := h.level_le he
      have hNe : e.level ≠ p.level := fun hEq => hx (hTop.2 ⟨e, he, hEq⟩)
      omega

theorem level_leave : p.leave.level = p.level - 1 := by
  unfold leave
  split
  · next hNil => simp [level, fail, hNil]
  · next hLevels => simp [level, hLevels]

theorem failures_leave (hLevel : 1 ≤ p.level) : p.leave.failures = p.failures := by
  unfold leave
  split
  · next hNil => simp [level, hNil] at hLevel
  · rfl

/-- The levels that are left own what they owned. -/
theorem owns_leave (hLevel : 1 ≤ p.level) (l : Nat) (x : String) :
    p.leave.Owns l x ↔ p.Owns l x ∧ l < p.level := by
  have hLess := level_leave (p := p)
  -- there is a level to leave
  obtain ⟨top, rest, hLevels⟩ : ∃ top rest, p.levels = top :: rest := by
    cases hp : p.levels with
    | nil => simp [level, hp] at hLevel
    | cons top rest => exact ⟨top, rest, rfl⟩
  have hRest : p.leave.levels = rest := by
    unfold leave
    rw [hLevels]
  simp only [Owns, levelIndex, hLess, hRest, hLevels]
  constructor
  · rintro ⟨hl, names, hNames, hx⟩
    -- one place further down than without the current level
    have hIndex : p.level - l = p.level - 1 - l + 1 := by omega
    refine ⟨⟨by omega, names, ?_, hx⟩, by omega⟩
    rw [hIndex, List.getElem?_cons_succ]
    exact hNames
  · rintro ⟨⟨-, names, hNames, hx⟩, hl⟩
    have hIndex : p.level - l = p.level - 1 - l + 1 := by omega
    rw [hIndex, List.getElem?_cons_succ] at hNames
    exact ⟨by omega, names, hNames, hx⟩

theorem Owned.leave (h : p.Owned) (hLevel : 1 ≤ p.level) : p.leave.Owned := by
  intro x l
  rw [owns_leave hLevel, h x l]
  simp only [h.find?_leave hLevel]
  constructor
  · rintro ⟨⟨e, he, rfl⟩, hl⟩
    exact ⟨e, ⟨he, hl⟩, rfl⟩
  · rintro ⟨e, ⟨he, hl⟩, rfl⟩
    exact ⟨⟨e, he, rfl⟩, hl⟩

/-- What a bound mentions is no younger than its variable, so it stays as long. -/
theorem Scoped.leave (h : p.Scoped) (hOwned : p.Owned) (hLevel : 1 ≤ p.level) : p.leave.Scoped := by
  intro x e he y hy
  have hFind := hOwned.find?_leave hLevel
  obtain ⟨he, hl⟩ := (hFind x e).1 he
  obtain ⟨e', he', hLe⟩ := h x e he y hy
  exact ⟨e', (hFind y e').2 ⟨he', by omega⟩, hLe⟩

theorem WellFormed.leave (h : p.WellFormed) (hLevel : 1 ≤ p.level) : p.leave.WellFormed := by
  have hFind := h.owned.find?_leave hLevel
  refine ⟨h.owned.leave hLevel, h.scoping.leave h.owned hLevel, fun x hx => ?_, fun x e he => ?_⟩
  · -- a circle of what is left would have been one before
    refine h.acyclic x (TransGen.mono (fun a b hab => ?_) _ _ hx)
    obtain ⟨e, he, hb⟩ := hab
    exact ⟨e, ((hFind a e).1 he).1, hb⟩
  · exact h.normal x e ((hFind x e).1 he).1

/-! ## New variables -/

theorem add_eq_place (hLevel : 1 ≤ p.level) (x : String) (b : Bound) :
    p.add x b = p.place x ⟨p.level, b⟩ := by
  rw [add_def, if_neg (by omega)]

theorem Owned.add (h : p.Owned) (x : String) (b : Bound) : (p.add x b).Owned := by
  rw [Prefix.add_def]
  split_ifs with hLevel
  · exact h.congr rfl rfl
  · exact h.place (Nat.one_le_iff_ne_zero.2 hLevel) (Nat.le_refl _)

theorem level_add (p : Prefix) (x : String) (b : Bound) : (p.add x b).level = p.level := by
  rw [add_def]
  split_ifs
  · rfl
  · exact level_place p x _

theorem counter_add (p : Prefix) (x : String) (b : Bound) : (p.add x b).counter = p.counter := by
  rw [add_def]
  unfold place disown
  split_ifs
  · rfl
  · split <;> rfl

theorem find?_add (p : Prefix) (x : String) (b : Bound) (y : String) :
    (p.add x b).find? y = if p.level ≠ 0 ∧ y = x then some ⟨p.level, b⟩ else p.find? y := by
  rw [add_def]
  by_cases hLevel : p.level = 0
  · rw [if_pos hLevel, if_neg (by simp [hLevel])]
    rfl
  · rw [if_neg hLevel, find?_place]
    simp [hLevel]

/-- A variable that may be added keeps a prefix well-formed. -/
theorem WellFormed.add (h : p.WellFormed) (hAdmits : p.Admits x b) : (p.add x b).WellFormed := by
  obtain ⟨hLevel, hFresh, hNormal, hCovers⟩ := hAdmits
  rw [add_eq_place hLevel]
  have hNew : p.find? x = none := Option.eq_none_iff_forall_ne_some.2 fun e he => hFresh ⟨e, he⟩
  refine ⟨h.owned.place hLevel (Nat.le_refl _), fun y e he z hz => ?_, ?_, fun y e he => ?_⟩
  · rw [find?_place] at he
    -- the new name is mentioned nowhere
    have hOld {e' : Entry} (he' : p.find? z = some e') :
        (p.place x ⟨p.level, b⟩).find? z = some e' := by
      rw [find?_place, if_neg, he']
      rintro rfl
      exact hFresh ⟨e', he'⟩
    split_ifs at he with hyx
    · obtain rfl := Option.some.inj he
      obtain ⟨e', he'⟩ := hCovers z hz
      exact ⟨e', hOld he', h.owned.level_le he'⟩
    · obtain ⟨e', he', hLe⟩ := h.scoping y e he z hz
      exact ⟨e', hOld he', hLe⟩
  · -- nothing mentions the new name, so its bound does not lead back to it
    refine acyclic_of_redirect (x := x) h.acyclic (fun a c hax hac => ?_) fun c hc hReach => ?_
    · obtain ⟨e, he, hc⟩ := hac
      rw [find?_place, if_neg hax] at he
      exact ⟨e, he, hc⟩
    · obtain ⟨e, he, hc⟩ := hc
      rw [find?_place, if_pos rfl] at he
      obtain rfl := Option.some.inj he
      exact hFresh (h.reaches_binds (hCovers c hc) hReach)
  · rw [find?_place] at he
    split_ifs at he with hyx
    · obtain rfl := Option.some.inj he
      exact hNormal
    · exact h.normal y e he

/-- What making up a variable does: a name that was not in play is bound at the current level, and
nothing else changes. -/
structure Grows (p q : Prefix) (x : String) (b : Bound) : Prop where
  fresh : ¬ p.Binds x
  find? : ∀ y, q.find? y = if y = x then some ⟨p.level, b⟩ else p.find? y
  level : q.level = p.level
  failures : q.failures = p.failures

theorem add_grows (hLevel : 1 ≤ p.level) (hFresh : ¬ p.Binds x) (b : Bound) :
    p.Grows (p.add x b) x b := by
  rw [add_eq_place hLevel]
  exact ⟨hFresh, find?_place p x _, level_place p x _, failures_place p x _⟩

theorem newType_grows (hLevel : 1 ≤ p.level) (b : Bound) :
    p.Grows (p.newType b).2 (p.newType b).1 b := by
  have hFresh := Supply.firstFree_not_mem Supply.numbered_injective p.entries.keys p.counter
  have hAdd := add_eq_place (p := { p with
    counter := (Supply.numbered.firstFree p.entries.keys p.counter).2 }) hLevel
    (Supply.numbered.firstFree p.entries.keys p.counter).1 b
  rw [newType_def]
  refine ⟨fun hb => hFresh (mem_keys_iff.2 hb), fun y => ?_, ?_, ?_⟩
  · simp only [find?_note, hAdd, find?_place]
    rfl
  · simp only [level_note, hAdd, level_place]
    rfl
  · simp only [failures_note, hAdd, failures_place]

theorem WellFormed.newType (h : p.WellFormed) (hLevel : 1 ≤ p.level) (hNormal : b.type.IsNormal)
    (hCovers : p.Covers b.type) : (p.newType b).2.WellFormed := by
  have hFresh := (newType_grows hLevel b).fresh
  have hSame : ({ p with counter := (Supply.numbered.firstFree p.entries.keys p.counter).2 } :
    Prefix).WellFormed := h.congr rfl rfl
  exact (hSame.add ⟨hLevel, hFresh, hNormal, hCovers⟩).note _

/-! ## Moving variables to an older level -/

theorem lower_keeps {β : Type} {f : Prefix → β} (h : ∀ p x e, f (place p x e) = f p) (p : Prefix)
    (l : Nat) (todo : List String) : f (p.lower l todo) = f p := by
  induction p, todo using lower_induct l with
  | nil p => rw [lower_nil]
  | unknown p x rest hNone ih => rw [lower_unknown rest hNone, ih]
  | moved p x rest e he hl ih => rw [lower_moved rest he hl, ih, h]
  | kept p x rest e he hl ih => rw [lower_kept rest he hl, ih]

theorem level_lower (p : Prefix) (l : Nat) (todo : List String) :
    (p.lower l todo).level = p.level :=
  lower_keeps level_place p l todo

theorem failures_lower (p : Prefix) (l : Nat) (todo : List String) :
    (p.lower l todo).failures = p.failures :=
  lower_keeps failures_place p l todo

theorem Owned.lower (h : p.Owned) {l : Nat} (hPos : 1 ≤ l) (hLe : l ≤ p.level)
    (todo : List String) : (p.lower l todo).Owned := by
  induction p, todo using lower_induct l with
  | nil p =>
    rw [lower_nil]
    exact h
  | unknown p x rest hNone ih =>
    rw [lower_unknown rest hNone]
    exact ih h hLe
  | moved p x rest e he hl ih =>
    rw [lower_moved rest he hl]
    exact ih (h.place hPos hLe) (by rwa [level_place])
  | kept p x rest e he hl ih =>
    rw [lower_kept rest he hl]
    exact ih h hLe

theorem mentions_place (he : p.find? x = some e) (l : Nat) :
    (p.place x ⟨l, e.bound⟩).Mentions = p.Mentions := by
  ext a b
  by_cases ha : a = x
  · subst ha
    rw [mentions_iff he, mentions_iff (find?_place p a ⟨l, e.bound⟩ a |>.trans (if_pos rfl))]
  · simp [Mentions, ha]

/-- Moving variables changes levels only: a variable keeps its level, or it moves down to the given
one and is reached from the names to do. -/
theorem find?_lower (p : Prefix) (l : Nat) (todo : List String) (y : String) :
    (p.find? y = none ∧ (p.lower l todo).find? y = none) ∨
    ∃ e l', p.find? y = some e ∧ (p.lower l todo).find? y = some ⟨l', e.bound⟩ ∧
      (l' = e.level ∨ (l' = l ∧ l < e.level ∧ ∃ z ∈ todo, p.Reaches z y)) := by
  induction p, todo using lower_induct l with
  | nil p =>
    rw [lower_nil]
    cases hy : p.find? y with
    | none => exact Or.inl ⟨rfl, rfl⟩
    | some e => exact Or.inr ⟨e, e.level, rfl, rfl, Or.inl rfl⟩
  | unknown p x rest hNone ih =>
    rw [lower_unknown rest hNone]
    refine ih.imp_right ?_
    rintro ⟨e, l', he, he', hl'⟩
    refine ⟨e, l', he, he', hl'.imp_right ?_⟩
    rintro ⟨rfl, hlt, z, hz, hReach⟩
    exact ⟨rfl, hlt, z, by simp [hz], hReach⟩
  | moved p x rest e hx hl ih =>
    rw [lower_moved rest hx hl]
    -- bounds stay as they are, so names reach what they did
    simp only [Reaches, mentions_place hx] at ih
    rcases ih with ⟨hNone, hNone'⟩ | ⟨e', l', he', hLower, hl'⟩
    · rw [find?_place] at hNone
      split_ifs at hNone
      exact Or.inl ⟨hNone, hNone'⟩
    · rw [find?_place] at he'
      split_ifs at he' with hyx
      · -- the variable that has just moved stays where it is
        subst hyx
        obtain rfl := Option.some.inj he'
        refine Or.inr ⟨e, l', hx, hLower, Or.inr ⟨?_, hl, y, by simp, .refl⟩⟩
        rcases hl' with rfl | ⟨rfl, -, -⟩ <;> rfl
      · refine Or.inr ⟨e', l', he', hLower, hl'.imp_right ?_⟩
        rintro ⟨rfl, hlt, z, hz, hReach⟩
        rcases List.mem_append.1 hz with hz | hz
        · -- reached by way of the variable that has moved
          exact ⟨rfl, hlt, x, by simp, .head ⟨e, hx, hz⟩ hReach⟩
        · exact ⟨rfl, hlt, z, by simp [hz], hReach⟩
  | kept p x rest e hx hl ih =>
    rw [lower_kept rest hx hl]
    refine ih.imp_right ?_
    rintro ⟨e, l', he, he', hl'⟩
    refine ⟨e, l', he, he', hl'.imp_right ?_⟩
    rintro ⟨rfl, hlt, z, hz, hReach⟩
    exact ⟨rfl, hlt, z, by simp [hz], hReach⟩

/-- Bounds mention no younger variables, except for names still to do, which are mentioned at level
`l` or younger. -/
def ScopedBut (p : Prefix) (l : Nat) (todo : List String) : Prop :=
  ∀ x e, p.find? x = some e → ∀ y ∈ e.bound.type.freeVars,
    ∃ e', p.find? y = some e' ∧ (e'.level ≤ e.level ∨ (l ≤ e.level ∧ y ∈ todo))

/-- Moving variables mends the scoping. -/
theorem ScopedBut.lower {l : Nat} {todo : List String} (h : p.ScopedBut l todo) :
    (p.lower l todo).Scoped := by
  induction p, todo using lower_induct l with
  | nil p =>
    rw [lower_nil]
    simpa [ScopedBut, Scoped] using h
  | unknown p x rest hNone ih =>
    rw [lower_unknown rest hNone]
    refine ih fun z e he y hy => ?_
    obtain ⟨e', he', hLevel⟩ := h z e he y hy
    refine ⟨e', he', hLevel.imp_right fun ⟨hl, hTodo⟩ => ⟨hl, ?_⟩⟩
    rcases List.mem_cons.1 hTodo with rfl | hRest
    · -- a name that is not in play is mentioned by nothing
      rw [hNone] at he'
      cases he'
    · exact hRest
  | moved p x rest ex hx hl ih =>
    rw [lower_moved rest hx hl]
    refine ih fun z e he y hy => ?_
    simp only [find?_place] at he ⊢
    by_cases hzx : z = x
    · -- what the moved variable mentions is on the list now
      subst hzx
      rw [if_pos rfl] at he
      obtain rfl := Option.some.inj he
      obtain ⟨e', he', -⟩ := h z ex hx y hy
      by_cases hyz : y = z
      · exact ⟨⟨l, ex.bound⟩, by rw [if_pos hyz], Or.inl (Nat.le_refl _)⟩
      · exact ⟨e', by rw [if_neg hyz, he'], Or.inr ⟨Nat.le_refl _, List.mem_append_left _ hy⟩⟩
    · rw [if_neg hzx] at he
      obtain ⟨e', he', hLevel⟩ := h z e he y hy
      -- the variable that moves is older now than those that mention it
      by_cases hyx : y = x
      · subst hyx
        obtain rfl : ex = e' := Option.some.inj (hx.symm.trans he')
        refine ⟨⟨l, ex.bound⟩, by rw [if_pos rfl], Or.inl ?_⟩
        rcases hLevel with hLe | ⟨hLe, -⟩
        · exact Nat.le_trans (Nat.le_of_lt hl) hLe
        · exact hLe
      · refine ⟨e', by rw [if_neg hyx, he'], hLevel.imp_right fun ⟨hLe, hTodo⟩ => ⟨hLe, ?_⟩⟩
        exact List.mem_append_right _ ((List.mem_cons.1 hTodo).resolve_left hyx)
  | kept p x rest ex hx hl ih =>
    rw [lower_kept rest hx hl]
    refine ih fun z e he y hy => ?_
    obtain ⟨e', he', hLevel⟩ := h z e he y hy
    refine ⟨e', he', ?_⟩
    rcases hLevel with hLe | ⟨hLe, hTodo⟩
    · exact Or.inl hLe
    · rcases List.mem_cons.1 hTodo with rfl | hRest
      · obtain rfl : ex = e' := Option.some.inj (hx.symm.trans he')
        exact Or.inl (by omega)
      · exact Or.inr ⟨hLe, hRest⟩

/-! ## New bounds -/

/-- What a new bound for a variable does: the bound of the variable is the new one and all other
bounds stay; a variable keeps its level, or it moves down to that of the changed one, which then
reaches it. -/
structure Updates (p q : Prefix) (x : String) (b : Bound) : Prop where
  level : q.level = p.level
  failures : q.failures = p.failures
  bound : ∀ y e, p.find? y = some e →
    ∃ l, q.find? y = some ⟨l, if y = x then b else e.bound⟩ ∧
      (l = e.level ∨ (l < e.level ∧ q.Reaches x y ∧ ∃ e', p.find? x = some e' ∧ l = e'.level))
  binds : ∀ y, q.Binds y ↔ p.Binds y

/-- An update sets the bound and then moves what the bound reaches. -/
theorem update_eq (hx : p.find? x = some e) (b : Bound) :
    ∃ q : Prefix, (∀ y, q.find? y = if y = x then some ⟨e.level, b⟩ else p.find? y) ∧
      q.levels = p.levels ∧ q.failures = p.failures ∧
      p.update x b = (q.lower e.level b.type.freeVars.toList).note (.update x b) := by
  refine ⟨{ p with entries := p.entries.insert x ⟨e.level, b⟩ }, fun y => ?_, rfl, rfl, ?_⟩
  · exact NameMap.find?_insert p.entries x y ⟨e.level, b⟩
  · rw [update_def, hx]

theorem mentions_lower (p : Prefix) (l : Nat) (todo : List String) :
    (p.lower l todo).Mentions = p.Mentions := by
  ext a b
  rcases find?_lower p l todo a with ⟨hNone, hNone'⟩ | ⟨e, l', he, he', -⟩
  · simp [Mentions, hNone, hNone']
  · simp [Mentions, he, he']

/-- A bound over variables that are no younger keeps bounds to older names. -/
theorem Scoped.rebound (hp : p.Scoped) (hx : p.find? x = some e)
    (hb : ∀ y ∈ b.type.freeVars, ∃ e', p.find? y = some e' ∧ e'.level ≤ e.level)
    (hFind : ∀ y, q.find? y = if y = x then some ⟨e.level, b⟩ else p.find? y) : q.Scoped := by
  -- every variable has the level that it had
  have hKept {y : String} {e' : Entry} (hy : p.find? y = some e') :
      ∃ e'', q.find? y = some e'' ∧ e''.level = e'.level := by
    rw [hFind]
    split_ifs with hyx
    · subst hyx
      exact ⟨_, rfl, by rw [Option.some.inj (hx.symm.trans hy)]⟩
    · exact ⟨e', hy, rfl⟩
  intro w ew hw y hy
  rw [hFind] at hw
  split_ifs at hw with hwx
  · -- the new bound, and then all others
    obtain rfl := Option.some.inj hw
    obtain ⟨e', he', hLe⟩ := hb y hy
    obtain ⟨e'', he'', hLevel⟩ := hKept he'
    exact ⟨e'', he'', hLevel.trans_le hLe⟩
  · obtain ⟨e', he', hLe⟩ := hp w ew hw y hy
    obtain ⟨e'', he'', hLevel⟩ := hKept he'
    exact ⟨e'', he'', hLevel.trans_le hLe⟩

/-- A new bound over variables that are no younger moves none of them. -/
theorem find?_update_of_le (hp : p.Scoped) (hx : p.find? x = some e)
    (hb : ∀ y ∈ b.type.freeVars, ∃ e', p.find? y = some e' ∧ e'.level ≤ e.level) (z : String) :
    (p.update x b).find? z = if z = x then some ⟨e.level, b⟩ else p.find? z := by
  obtain ⟨q, hFind, -, -, hEq⟩ := update_eq hx b
  have hScoped := hp.rebound hx hb hFind
  rw [hEq, find?_note, ← hFind]
  rcases find?_lower q e.level b.type.freeVars.toList z with ⟨hNone, hNone'⟩ | ⟨ez, l, hz, hz', hl⟩
  · rw [hNone, hNone']
  · rcases hl with rfl | ⟨rfl, hlt, y, hy, hReach⟩
    · rw [hz, hz']
    · -- what the new bound reaches is no younger than what it mentions
      obtain ⟨ey, hey, hLe⟩ := hScoped x ⟨e.level, b⟩ (by rw [hFind, if_pos rfl]) y hy
      have hOlder := hScoped.reaches_level hey hReach hz
      have hYounger : ez.level ≤ e.level := hOlder.trans hLe
      omega

/-- A new bound does what `Updates` says. -/
theorem update_updates (hx : p.Binds x) (b : Bound) : p.Updates (p.update x b) x b := by
  obtain ⟨ex, hx⟩ := hx
  obtain ⟨q, hFind, hLevels, hFailures, hEq⟩ := update_eq hx b
  have hLower := find?_lower q ex.level b.type.freeVars.toList
  rw [hEq]
  refine ⟨?_, ?_, fun y e he => ?_, fun y => ?_⟩
  · rw [level_note, level_lower, level, level, hLevels]
  · rw [failures_note, failures_lower, hFailures]
  · -- the entry of `y` before anything is moved
    have hStart : q.find? y = some ⟨e.level, if y = x then b else e.bound⟩ := by
      rw [hFind]
      split_ifs with hyx
      · subst hyx
        rw [Option.some.inj (hx.symm.trans he)]
      · rw [he]
    rcases hLower y with ⟨hNone, -⟩ | ⟨e', l, he', hNew, hl⟩
    · rw [hStart] at hNone
      cases hNone
    · obtain rfl := Option.some.inj (hStart.symm.trans he')
      refine ⟨l, hNew, hl.imp_right ?_⟩
      rintro ⟨rfl, hlt, z, hz, hReach⟩
      -- what moved is reached from the new bound, and so from the variable
      refine ⟨hlt, ?_, ex, hx, rfl⟩
      have hMentions : q.Mentions x z := ⟨⟨ex.level, b⟩, by rw [hFind, if_pos rfl], hz⟩
      rw [← mentions_lower q ex.level b.type.freeVars.toList] at hMentions
      simp only [Reaches, ← mentions_lower q ex.level b.type.freeVars.toList] at hReach
      exact .head hMentions hReach
  · have hBinds : q.Binds y ↔ p.Binds y := by
      rw [Binds, hFind]
      split_ifs with hyx
      · exact ⟨fun _ => ⟨ex, hyx ▸ hx⟩, fun _ => ⟨_, rfl⟩⟩
      · rfl
    rw [← hBinds]
    rcases hLower y with ⟨hNone, hNone'⟩ | ⟨e', l, he', hNew, -⟩
    · simp [Binds, hNone, hNone']
    · simp [Binds, he', hNew]

theorem Updates.mentions {p q : Prefix} {x : String} {b : Bound} (h : p.Updates q x b)
    (hx : p.Binds x) (y z : String) :
    q.Mentions y z ↔ if y = x then z ∈ b.type.freeVars else p.Mentions y z := by
  by_cases hy : p.Binds y
  · obtain ⟨e, he⟩ := hy
    obtain ⟨l, hNew, -⟩ := h.bound y e he
    rw [mentions_iff hNew]
    split_ifs with hyx
    · rfl
    · exact (mentions_iff he).symm
  · -- a name that is not in play mentions nothing, before and after
    have hyx : y ≠ x := fun hEq => hy (hEq ▸ hx)
    rw [if_neg hyx]
    exact ⟨fun hMentions => absurd ((h.binds y).1 hMentions.binds) hy,
      fun hMentions => absurd hMentions.binds hy⟩

/-- What does not reach a changed variable reaches the same as before. -/
theorem Updates.reaches_of_not (h : p.Updates q x b) (hx : p.Binds x) {z : String}
    (hyx : ¬ p.Reaches y x) (hyz : q.Reaches y z) : p.Reaches y z := by
  induction hyz with
  | refl => exact .refl
  | @tail a c _ hac ih =>
    -- only the changed variable mentions something else, and the way does not pass it
    rw [h.mentions hx, if_neg] at hac
    · exact ih.tail hac
    · rintro rfl
      exact hyx ih

theorem Updates.reaches_of_old (h : p.Updates q x b) (hx : p.Binds x) {z : String}
    (hyx : ¬ p.Reaches y x) (hyz : p.Reaches y z) : q.Reaches y z := by
  induction hyz with
  | refl => exact .refl
  | @tail a c hya hac ih =>
    have hax : a ≠ x := by
      rintro rfl
      exact hyx hya
    exact ih.tail ((h.mentions hx a c).2 (by rwa [if_neg hax]))

/-- A new bound that does not lead back to its variable keeps a prefix well-formed. -/
theorem WellFormed.update (h : p.WellFormed) (hx : p.Binds x) (hNormal : b.type.IsNormal)
    (hCovers : p.Covers b.type) (hApart : ∀ y ∈ b.type.freeVars, ¬ p.Reaches y x) :
    (p.update x b).WellFormed := by
  have hUpdates := update_updates hx b
  obtain ⟨ex, hxe⟩ := hx
  obtain ⟨q, hFind, hLevels, -, hEq⟩ := update_eq hxe b
  have hOwned := h.owned.rebound hxe hFind hLevels
  -- only what the new bound mentions may be too young
  have hScoped : q.ScopedBut ex.level b.type.freeVars.toList := by
    intro y e he z hz
    -- names that are in play stay so, and keep their levels for now
    have hKept {e' : Entry} (he' : p.find? z = some e') :
        ∃ e'', q.find? z = some e'' ∧ e''.level = e'.level := by
      rw [hFind]
      split_ifs with hzx
      · subst hzx
        exact ⟨_, rfl, by rw [Option.some.inj (hxe.symm.trans he')]⟩
      · exact ⟨e', he', rfl⟩
    rw [hFind] at he
    split_ifs at he with hyx
    · obtain rfl := Option.some.inj he
      obtain ⟨e', he'⟩ := hCovers z hz
      obtain ⟨e'', he'', -⟩ := hKept he'
      exact ⟨e'', he'', Or.inr ⟨Nat.le_refl _, hz⟩⟩
    · obtain ⟨e', he', hLe⟩ := h.scoping y e he z hz
      obtain ⟨e'', he'', hLevel⟩ := hKept he'
      exact ⟨e'', he'', Or.inl (by omega)⟩
  have hLe : ex.level ≤ q.level := by
    rw [level, hLevels]
    exact h.owned.level_le hxe
  refine ⟨?_, ?_, ?_, fun y e he => ?_⟩
  · rw [hEq]
    have hLowered := hOwned.lower (h.owned.level_pos hxe) hLe b.type.freeVars.toList
    intro y l
    exact hLowered y l
  · rw [hEq]
    exact hScoped.lower
  · -- the new bound does not lead to the variable
    refine acyclic_of_redirect (x := x) h.acyclic (fun a c hax hac => ?_) fun c hc => hApart c ?_
    · rwa [hUpdates.mentions ⟨ex, hxe⟩, if_neg hax] at hac
    · rwa [hUpdates.mentions ⟨ex, hxe⟩, if_pos rfl] at hc
  · obtain ⟨e₀, he₀⟩ := (hUpdates.binds y).1 ⟨e, he⟩
    obtain ⟨l, hNew, -⟩ := hUpdates.bound y e₀ he₀
    obtain rfl := Option.some.inj (hNew.symm.trans he)
    split_ifs
    · exact hNormal
    · exact h.normal y e₀ he₀

/-- Making two variables one gives the bound to the one that is no younger, and makes the other one
stand for it. -/
theorem merge_cases {ex ey : Entry} (hx : p.find? x = some ex) (hy : p.find? y = some ey)
    (b : Bound) :
    (ex.level ≤ ey.level ∧
      (p.merge x y b).2 = (p.update x b).update y ⟨.flexible, .mono (.var x)⟩) ∨
    (ey.level ≤ ex.level ∧
      (p.merge x y b).2 = (p.update y b).update x ⟨.flexible, .mono (.var y)⟩) := by
  have hContains : (p.entries.contains x && p.entries.contains y) = true := by
    have hx' := hx
    have hy' := hy
    rw [find?] at hx' hy'
    simp [NameMap.contains, hx', hy']
  rw [merge_def, if_pos hContains, survivor, hx, hy]
  -- the older one survives, and the first of two of the same level
  by_cases hLevel : ey.level < ex.level
  · exact Or.inr ⟨Nat.le_of_lt hLevel, by simp [hLevel]⟩
  · exact Or.inl ⟨Nat.le_of_not_lt hLevel, by simp [hLevel]⟩

theorem merge_eq (hx : p.Binds x) (hy : p.Binds y) (b : Bound) :
    ∃ stays goes, ((stays = x ∧ goes = y) ∨ (stays = y ∧ goes = x)) ∧
      (p.merge x y b).2 = (p.update stays b).update goes ⟨.flexible, .mono (.var stays)⟩ := by
  obtain ⟨ex, hx⟩ := hx
  obtain ⟨ey, hy⟩ := hy
  rcases merge_cases hx hy b with ⟨-, hEq⟩ | ⟨-, hEq⟩
  · exact ⟨x, y, Or.inl ⟨rfl, rfl⟩, hEq⟩
  · exact ⟨y, x, Or.inr ⟨rfl, rfl⟩, hEq⟩

/-- After a variable got a bound that leads to neither of two variables, it does not lead to the
other one either. -/
theorem Updates.not_reaches (h : p.Updates q x b) (hx : p.Binds x) (hne : x ≠ y)
    (hApart : ∀ z ∈ b.type.freeVars, ¬ p.Reaches z x ∧ ¬ p.Reaches z y) : ¬ q.Reaches x y := by
  intro hReach
  rcases hReach.cases_head with hEq | ⟨z, hz, hzy⟩
  · exact hne hEq
  · rw [h.mentions hx, if_pos rfl] at hz
    obtain ⟨hzx, hzy'⟩ := hApart z hz
    exact hzy' (h.reaches_of_not hx hzx hzy)

end Prefix

end Mlf
