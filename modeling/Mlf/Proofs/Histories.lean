import Mlf.Proofs.FreshNames
import Mlf.Proofs.Partition

/-!
# Histories of the variables in play

A history lists the states that the variables in play go through, so that it can be said when a name
is in play and when it is forgotten. A name is born where it comes into play, and it may be born
again after it was forgotten. A name that is born once has one life: it is in play from its birth
until the level that owns it is left, and never after.

What a part of a run does to a history is a passage. It leaves the levels as they were, loses no
name that was in play when it began, not even for a while, and bears the names that it makes up and
the names that are written in the program, each as often as it is introduced.

Main results:

* `inPlay_between` — a name that is born once has one life;
* `Pops.unique` — and is forgotten once at most;
* `Passage.trans`, `Passage.atLevel` — passages one after the other, and at a level of their own;
* `Advance` — what one operation does, with a lemma for each of them.
-/

namespace Mlf

variable {p q : Prefix} {x : String} {k : Nat}
/-- The states that the variables in play have gone through, the latest first. -/
abbrev History := List Prefix

namespace History

/-- The state at a time. Times are counted from 0. -/
def at? (h : History) (k : Nat) : Option Prefix := h.reverse[k]?

/-- A name is in play at a time. -/
def InPlay (h : History) (k : Nat) (x : String) : Prop := ∃ p, h.at? k = some p ∧ p.Binds x

/-- The level that owns a name is left at a time, and the name is forgotten with its entry. -/
def Pops (h : History) (k : Nat) (x : String) (e : Entry) : Prop :=
  ∃ p, h.at? k = some p ∧ h.at? (k + 1) = some p.leave ∧ p.find? x = some e ∧ e.level = p.level ∧
    ¬ p.leave.Binds x

/-- How many times a name comes into play. -/
def births (x : String) : History → Nat
  | [] => 0
  | p :: h =>
    births x h + if p.entries.contains x ∧ h.head?.all fun q => !q.entries.contains x then 1 else 0

/-! ## Times -/

theorem at?_append {h : History} (hk : k < h.length) (later : History) :
    (later ++ h).at? k = h.at? k := by
  rw [at?, at?, List.reverse_append, List.getElem?_append_left (by simpa using hk)]

theorem at?_now (p : Prefix) (h : History) : at? (p :: h) h.length = some p := by
  simp [at?]

theorem lt_length_of_at? {h : History} (hk : h.at? k = some p) : k < h.length := by
  obtain ⟨hLt, -⟩ := List.getElem?_eq_some_iff.1 hk
  simpa using hLt

theorem at?_append_of_some {h : History} (hk : h.at? k = some p) (later : History) :
    (later ++ h).at? k = some p := by
  rw [at?_append (lt_length_of_at? hk), hk]

theorem InPlay.append {h : History} (hx : h.InPlay k x) (later : History) :
    InPlay (later ++ h) k x := by
  obtain ⟨p, hp, hBinds⟩ := hx
  exact ⟨p, at?_append_of_some hp later, hBinds⟩

theorem Pops.append {h : History} {e : Entry} (hPops : h.Pops k x e) (later : History) :
    Pops (later ++ h) k x e := by
  obtain ⟨p, hp, hLeave, hEntry⟩ := hPops
  exact ⟨p, at?_append_of_some hp later, at?_append_of_some hLeave later, hEntry⟩

/-- A state parts a history into what was before and what came later. -/
theorem exists_split {h : History} (hk : h.at? k = some p) :
    ∃ later before, h = later ++ p :: before ∧ before.length = k := by
  obtain ⟨hLt, hGet⟩ := List.getElem?_eq_some_iff.1 hk
  refine ⟨(h.reverse.drop (k + 1)).reverse, (h.reverse.take k).reverse, ?_, ?_⟩
  · have hParts : h.reverse = h.reverse.take k ++ p :: h.reverse.drop (k + 1) := by
      rw [← hGet, List.getElem_cons_drop, List.take_append_drop]
    have hBack := congrArg List.reverse hParts
    simpa using hBack
  · simp only [List.length_reverse, List.length_take] at hLt ⊢
    omega

theorem at?_of_lt {later before : History} (hk : k ≤ before.length)
    (hq : at? (later ++ p :: before) k = some q) : q ∈ p :: before := by
  rw [at?_append (by simpa using Nat.lt_succ_of_le hk)] at hq
  exact List.mem_reverse.1 (List.mem_of_getElem? hq)

theorem at?_of_gt {later before : History} (hk : before.length < k)
    (hq : at? (later ++ p :: before) k = some q) : q ∈ later := by
  rw [at?, List.reverse_append,
    List.getElem?_append_right (by simpa using Nat.succ_le_of_lt hk)] at hq
  exact List.mem_reverse.1 (List.mem_of_getElem? hq)

/-! ## Births -/

theorem births_cons_of_not (hx : ¬ p.Binds x) (h : History) : births x (p :: h) = births x h := by
  have hContains : p.entries.contains x = false := by
    rw [Bool.eq_false_iff, Ne, ← NameMap.mem_keys]
    exact fun hMem => hx (Prefix.mem_keys_iff.1 hMem)
  simp [births, hContains]

theorem births_cons_of_binds {h : History} (hHead : h.head? = some q) (hx : q.Binds x) :
    births x (p :: h) = births x h := by
  have hContains : q.entries.contains x = true := NameMap.mem_keys.1 (Prefix.mem_keys_iff.2 hx)
  simp [births, hHead, hContains]

theorem births_cons_of_born {h : History} (hHead : h.head? = some q) (hx : p.Binds x)
    (hNew : ¬ q.Binds x) : births x (p :: h) = births x h + 1 := by
  have hContains : p.entries.contains x = true := NameMap.mem_keys.1 (Prefix.mem_keys_iff.2 hx)
  have hNot : q.entries.contains x = false := by
    rw [Bool.eq_false_iff, Ne, ← NameMap.mem_keys]
    exact fun hMem => hNew (Prefix.mem_keys_iff.1 hMem)
  simp [births, hHead, hContains, hNot]

theorem births_le_cons (x : String) (p : Prefix) (h : History) :
    births x h ≤ births x (p :: h) := by
  rw [births]
  exact Nat.le_add_right _ _

theorem births_cons_le (x : String) (p : Prefix) (h : History) :
    births x (p :: h) ≤ births x h + 1 := by
  rw [births]
  split_ifs <;> omega

theorem births_le_append (x : String) (later h : History) :
    births x h ≤ births x (later ++ h) := by
  induction later with
  | nil => exact Nat.le_refl _
  | cons p later ih => exact Nat.le_trans ih (births_le_cons x p (later ++ h))

/-- A name that is in play was born. -/
theorem one_le_births {h : History} (hp : p ∈ h) (hx : p.Binds x) : 1 ≤ births x h := by
  induction h generalizing p with
  | nil => cases hp
  | cons q h ih =>
    rcases List.mem_cons.1 hp with rfl | hp
    · cases h with
      | nil =>
        have hContains : p.entries.contains x = true := NameMap.mem_keys.1 (Prefix.mem_keys_iff.2 hx)
        simp [births, hContains]
      | cons q h =>
        -- in play one state earlier, or born here
        by_cases hq : q.Binds x
        · exact Nat.le_trans (ih (by simp) hq) (births_le_cons x p _)
        · rw [births_cons_of_born rfl hx hq]
          omega
    · exact Nat.le_trans (ih hp hx) (births_le_cons x q h)

/-- A name that comes back into play is born again. -/
theorem births_lt_append {later before : History} (hp : ¬ p.Binds x) (hq : q ∈ later)
    (hx : q.Binds x) : births x (p :: before) < births x (later ++ p :: before) := by
  induction later generalizing q with
  | nil => cases hq
  | cons r later ih =>
    by_cases hLater : ∃ q' ∈ later, q'.Binds x
    · obtain ⟨q', hq', hx'⟩ := hLater
      exact Nat.lt_of_lt_of_le (ih hq' hx') (births_le_cons x r _)
    · -- then it comes back in the latest state
      obtain rfl : q = r := by
        rcases List.mem_cons.1 hq with rfl | hq
        · rfl
        · exact absurd ⟨q, hq, hx⟩ hLater
      have hBorn : births x (q :: (later ++ p :: before)) = births x (later ++ p :: before) + 1 := by
        cases later with
        | nil => exact births_cons_of_born rfl hx hp
        | cons r' later => exact births_cons_of_born rfl hx fun hr' => hLater ⟨r', by simp, hr'⟩
      have hLe := births_le_append x later (p :: before)
      show births x (p :: before) < births x (q :: (later ++ p :: before))
      omega

/-- A name that is born once is in play all the time between any two times when it is. -/
theorem inPlay_between {h : History} (hOnce : births x h ≤ 1) {i j : Nat} (hi : h.InPlay i x)
    (hk : h.InPlay k x) (hij : i ≤ j) (hjk : j ≤ k) : h.InPlay j x := by
  obtain ⟨q, hq, hqx⟩ := hi
  obtain ⟨r, hr, hrx⟩ := hk
  have hLt : j < h.length := Nat.lt_of_le_of_lt hjk (lt_length_of_at? hr)
  obtain ⟨p, hp⟩ : ∃ p, h.at? j = some p := ⟨_, List.getElem?_eq_getElem (by simpa using hLt)⟩
  by_contra hNot
  have hpx : ¬ p.Binds x := fun hx => hNot ⟨p, hp, hx⟩
  -- otherwise there is a birth before the gap, and another one after it
  obtain ⟨later, before, rfl, rfl⟩ := exists_split hp
  have hBefore : 1 ≤ births x (p :: before) := one_le_births (at?_of_lt hij hq) hqx
  have hne : before.length ≠ k := by
    rintro rfl
    rw [hp] at hr
    exact hpx (Option.some.inj hr ▸ hrx)
  have hAgain : births x (p :: before) < births x (later ++ p :: before) :=
    births_lt_append hpx (at?_of_gt (by omega) hr) hrx
  omega

theorem Pops.inPlay {h : History} {e : Entry} (hPops : h.Pops k x e) :
    h.InPlay k x ∧ ¬ h.InPlay (k + 1) x := by
  obtain ⟨p, hp, hLeave, hEntry, -, hGone⟩ := hPops
  refine ⟨⟨p, hp, e, hEntry⟩, ?_⟩
  rintro ⟨q, hq, hBinds⟩
  rw [hLeave] at hq
  exact hGone (Option.some.inj hq ▸ hBinds)

/-- A name that is born once is forgotten once at most. -/
theorem Pops.unique {h : History} (hOnce : births x h ≤ 1) {k' : Nat} {e e' : Entry}
    (hPops : h.Pops k x e) (hPops' : h.Pops k' x e') : e' = e := by
  -- a name that was forgotten would have to come back to be forgotten again
  have never {i j : Nat} {f g : Entry} (hi : h.Pops i x f) (hj : h.Pops j x g) : ¬ i < j :=
    fun hlt => hi.inPlay.2 (inPlay_between hOnce hi.inPlay.1 hj.inPlay.1 (by omega) (by omega))
  have hTimes : k = k' := by
    have hLe := never hPops hPops'
    have hGe := never hPops' hPops
    omega
  subst hTimes
  obtain ⟨p, hp, -, hEntry, -⟩ := hPops
  obtain ⟨p', hp', -, hEntry', -⟩ := hPops'
  rw [hp] at hp'
  obtain rfl := Option.some.inj hp'
  exact Option.some.inj (hEntry'.symm.trans hEntry)

end History

namespace Prefix

/-! ## One operation -/

/-- How many of the names between the counters of two states are `x`. -/
def made (x : String) (p q : Prefix) : Nat :=
  ((List.range' p.counter (q.counter - p.counter)).map Supply.numbered).count x

theorem made_trans (x : String) {r : Prefix} (hpq : p.counter ≤ q.counter)
    (hqr : q.counter ≤ r.counter) : made x p q + made x q r = made x p r := by
  unfold made
  rw [← List.count_append, ← List.map_append]
  have hRange := @List.range'_append_1 p.counter (q.counter - p.counter) (r.counter - q.counter)
  have hStart : p.counter + (q.counter - p.counter) = q.counter := by omega
  have hLength : q.counter - p.counter + (r.counter - q.counter) = r.counter - p.counter := by omega
  rw [hStart, hLength] at hRange
  rw [hRange]

theorem made_le_one (x : String) (p q : Prefix) : made x p q ≤ 1 :=
  List.nodup_iff_count_le_one.1 ((List.nodup_range' ..).map Supply.numbered_injective) x

theorem made_eq_zero (hx : ∀ i, x ≠ Supply.numbered i) (p q : Prefix) : made x p q = 0 := by
  refine List.count_eq_zero.2 fun hMem => ?_
  obtain ⟨i, -, hi⟩ := List.mem_map.1 hMem
  exact hx i hi.symm

/-- What an operation does that keeps the levels: it loses no name and makes none younger, and the
names that it brings into play are made up or among the names counted by `born`. -/
structure Advance (born : String → Nat) (p q : Prefix) : Prop where
  owned : q.Owned
  level : q.level = p.level
  counter : p.counter ≤ q.counter
  kept : ∀ x e, p.find? x = some e → ∃ e', q.find? x = some e' ∧ e'.level ≤ e.level
  new : ∀ x, q.Binds x → ¬ p.Binds x → 1 ≤ born x + made x p q

section

variable {p q r : Prefix} {born : String → Nat}

theorem Advance.of_same (h : p.Owned) (hEntries : q.entries = p.entries)
    (hLevels : q.levels = p.levels) (hCounter : q.counter = p.counter) : Advance born p q where
  owned := h.congr hEntries hLevels
  level := by rw [Prefix.level, hLevels, ← Prefix.level]
  counter := hCounter.ge
  kept x e he := ⟨e, by rw [find?_congr hEntries, he], Nat.le_refl _⟩
  new x hq hp := by
    obtain ⟨e, he⟩ := hq
    rw [find?_congr hEntries] at he
    exact absurd ⟨e, he⟩ hp

theorem Advance.refl (h : p.Owned) : Advance born p p := .of_same h rfl rfl rfl

theorem Advance.trans (h : Advance 0 p q) (h' : Advance born q r) : Advance born p r where
  owned := h'.owned
  level := h'.level.trans h.level
  counter := Nat.le_trans h.counter h'.counter
  kept x e he := by
    obtain ⟨e₁, he₁, hLe₁⟩ := h.kept x e he
    obtain ⟨e₂, he₂, hLe₂⟩ := h'.kept x e₁ he₁
    exact ⟨e₂, he₂, Nat.le_trans hLe₂ hLe₁⟩
  new x hr hp := by
    have hMade := made_trans x h.counter h'.counter
    -- new with the first operation, or with the second
    by_cases hq : q.Binds x
    · have hNew : 1 ≤ 0 + made x p q := h.new x hq hp
      omega
    · have hNew := h'.new x hr hq
      omega

theorem counter_failAll (p : Prefix) (fs : List Failure) : (p.failAll fs).counter = p.counter := by
  induction fs generalizing p with
  | nil => rfl
  | cons f fs ih => exact ih (p.fail f)

theorem counter_leave (p : Prefix) : p.leave.counter = p.counter := by
  unfold leave
  split <;> rfl

theorem counter_lower (p : Prefix) (l : Nat) (todo : List String) :
    (p.lower l todo).counter = p.counter :=
  lower_keeps counter_place p l todo

theorem advance_failAll (h : p.Owned) (fs : List Failure) : Advance born p (p.failAll fs) :=
  .of_same h (entries_failAll p fs) (levels_failAll p fs) (counter_failAll p fs)

theorem advance_resolveTop (h : p.Owned) (t : Monotype) : Advance born p (p.resolveTop t).2 := by
  unfold resolveTop
  split
  · exact .refl h
  · exact .of_same h rfl rfl rfl

/-- A variable that is made up gets a name between the old counter and the new one. -/
theorem advance_newType (h : p.Owned) (b : Bound) : Advance 0 p (p.newType b).2 := by
  obtain ⟨i, hSearch, -⟩ := Supply.firstFree_congr_mem Supply.numbered p.entries.nodup p.entries.nodup
    (fun _ => Iff.rfl) p.counter
  obtain ⟨j, hLe, hName, hFree⟩ := Supply.firstFree_spec Supply.numbered_injective p.entries.keys
    p.counter
  change Supply.numbered.firstFree p.entries.keys p.counter = _ at hSearch
  -- where the search ends, told in two ways
  obtain rfl : i = j := by
    rw [hSearch] at hName
    exact Supply.numbered_injective hName
  have hCounter : (p.newType b).2.counter = i + 1 := by
    show (add _ _ b).counter = i + 1
    rw [counter_add, hSearch]
  have hLevel : (p.newType b).2.level = p.level := level_add _ _ b
  -- where there is a level, the new variable belongs to it
  have hFind (y : String) : (p.newType b).2.find? y =
      if p.level ≠ 0 ∧ y = Supply.numbered i then some ⟨p.level, b⟩ else p.find? y := by
    show (add _ (Supply.numbered.firstFree p.entries.keys p.counter).1 b).find? y = _
    rw [find?_add, hName]
    rfl
  refine ⟨h.newType b, hLevel, by omega, fun x e he => ?_, fun x hq hp => ?_⟩
  · -- the name was free
    have hne : x ≠ Supply.numbered i := by
      rintro rfl
      exact hFree (mem_keys_iff.2 ⟨e, he⟩)
    rw [hFind, if_neg (by simp [hne])]
    exact ⟨e, he, Nat.le_refl _⟩
  · obtain ⟨e, he⟩ := hq
    rw [hFind] at he
    split_ifs at he with hNew
    · -- the new name is one of those between the counters
      have hMem : x ∈ (List.range' p.counter ((p.newType b).2.counter - p.counter)).map
          Supply.numbered := by
        refine List.mem_map.2 ⟨i, ?_, hNew.2.symm⟩
        rw [List.mem_range'_1, hCounter]
        omega
      have hCount : 1 ≤ made x p (p.newType b).2 := List.count_pos_iff.2 hMem
      exact Nat.le_trans hCount (Nat.le_add_left _ _)
    · exact absurd ⟨e, he⟩ hp

theorem advance_instantiateWith (h : p.Owned) (s : Subst) (bs : List Binding) :
    Advance 0 p (p.instantiateWith s bs).2 := by
  induction bs generalizing p s with
  | nil => exact .refl h
  | cons b bs ih =>
    have hFirst := advance_newType h ⟨b.bound.kind, b.bound.type.subst s⟩
    exact hFirst.trans (ih hFirst.owned _)

/-- A new bound brings in no names, and may make names older that it mentions. -/
theorem advance_update (h : p.Owned) (x : String) (b : Bound) : Advance 0 p (p.update x b) := by
  cases hx : p.find? x with
  | none =>
    have hFail : p.update x b = p.fail (.unknownUpdate x) := by
      rw [update_def]
      rw [hx]
    rw [hFail]
    exact .of_same h rfl rfl rfl
  | some ex =>
    have hUpdates := update_updates ⟨ex, hx⟩ b
    -- the counter, the levels of old names, and that there are no new names
    refine ⟨h.update x b, hUpdates.level, ?_, fun y e he => ?_, fun y hq hp => ?_⟩
    · rw [update_def]
      rw [hx]
      show p.counter ≤ (lower { p with entries := p.entries.insert x ⟨ex.level, b⟩ } _ _).counter
      rw [counter_lower]
    · obtain ⟨l, hNew, hl⟩ := hUpdates.bound y e he
      refine ⟨_, hNew, ?_⟩
      rcases hl with rfl | ⟨hlt, -⟩
      · exact Nat.le_refl _
      · exact Nat.le_of_lt hlt
    · exact absurd ((hUpdates.binds y).1 hq) hp

theorem advance_merge (h : p.Owned) (x y : String) (b : Bound) :
    Advance 0 p (p.merge x y b).2 := by
  rw [merge_def]
  split_ifs
  · have hFirst := advance_update h (p.survivor x y).1 b
    exact hFirst.trans (advance_update hFirst.owned _ _)
  · exact .of_same h rfl rfl rfl

end

end Prefix

/-! ## Passages -/

open Prefix

/-- What a part of a run does to a history that ends with the state `p`: it goes on from there,
keeps all names that are in play in `p` there all the time, and ends with the state `q` at the same
level. A name is born at most as often as `born` counts and as it is made up. -/
structure Passage (born : String → Nat) (h h' : History) (p q : Prefix) : Prop where
  steady : ∃ later, h' = later ++ h ∧ ∀ r ∈ later, ∀ x, p.Binds x → r.Binds x
  last : h'.head? = some q
  owned : q.Owned
  level : q.level = p.level
  counter : p.counter ≤ q.counter
  kept : ∀ x e, p.find? x = some e → ∃ e', q.find? x = some e' ∧ e'.level ≤ e.level
  births : ∀ x, h'.births x ≤ h.births x + born x + made x p q

namespace Passage

variable {born born' : String → Nat} {h h' h'' : History} {p q r : Prefix}

theorem refl (hHead : h.head? = some p) (hOwned : p.Owned) : Passage born h h p p where
  steady := ⟨[], rfl, by simp⟩
  last := hHead
  owned := hOwned
  level := rfl
  counter := Nat.le_refl _
  kept x e he := ⟨e, he, Nat.le_refl _⟩
  births x := by omega

theorem mono (hPass : Passage born h h' p q) (hBorn : ∀ x, born x ≤ born' x) :
    Passage born' h h' p q where
  steady := hPass.steady
  last := hPass.last
  owned := hPass.owned
  level := hPass.level
  counter := hPass.counter
  kept := hPass.kept
  births x := by
    have hOld := hPass.births x
    have hLe := hBorn x
    omega

theorem binds (hPass : Passage born h h' p q) (hx : p.Binds x) : q.Binds x := by
  obtain ⟨e, he⟩ := hx
  obtain ⟨e', he', -⟩ := hPass.kept x e he
  exact ⟨e', he'⟩

/-- Two passages, one after the other. -/
theorem trans (hPass : Passage born h h' p q) (hPass' : Passage born' h' h'' q r) :
    Passage (fun x => born x + born' x) h h'' p r where
  steady := by
    obtain ⟨later, rfl, hSteady⟩ := hPass.steady
    obtain ⟨later', rfl, hSteady'⟩ := hPass'.steady
    refine ⟨later' ++ later, (List.append_assoc ..).symm, fun s hs x hx => ?_⟩
    rcases List.mem_append.1 hs with hs | hs
    · exact hSteady' s hs x (hPass.binds hx)
    · exact hSteady s hs x hx
  last := hPass'.last
  owned := hPass'.owned
  level := hPass'.level.trans hPass.level
  counter := Nat.le_trans hPass.counter hPass'.counter
  kept x e he := by
    obtain ⟨e₁, he₁, hLe₁⟩ := hPass.kept x e he
    obtain ⟨e₂, he₂, hLe₂⟩ := hPass'.kept x e₁ he₁
    exact ⟨e₂, he₂, Nat.le_trans hLe₂ hLe₁⟩
  births x := by
    have hFirst := hPass.births x
    have hSecond := hPass'.births x
    -- births by name and made-up names both add up
    have hMade := made_trans x hPass.counter hPass'.counter
    omega

/-- One operation is a passage. -/
theorem of_advance (hHead : h.head? = some p) (hStep : Advance born p q) :
    Passage born h (q :: h) p q where
  steady := by
    refine ⟨[q], rfl, fun s hs x hx => ?_⟩
    obtain rfl := List.mem_singleton.1 hs
    obtain ⟨e, he⟩ := hx
    obtain ⟨e', he', -⟩ := hStep.kept x e he
    exact ⟨e', he'⟩
  last := rfl
  owned := hStep.owned
  level := hStep.level
  counter := hStep.counter
  kept := hStep.kept
  births x := by
    -- a name that is still in play was so before, or the operation has brought it in
    by_cases hq : q.Binds x
    · by_cases hp : p.Binds x
      · rw [History.births_cons_of_binds hHead hp]
        omega
      · have hNew := hStep.new x hq hp
        rw [History.births_cons_of_born hHead hq hp]
        omega
    · rw [History.births_cons_of_not hq]
      omega

/-- A name that is in play at the start is not born on the way. -/
theorem births_eq (hPass : Passage born h h' p q) (hHead : h.head? = some p) (hx : p.Binds x) :
    h'.births x = h.births x := by
  obtain ⟨later, rfl, hSteady⟩ := hPass.steady
  clear hPass
  induction later with
  | nil => rfl
  | cons s later ih =>
    have hLater : ∀ r ∈ later, ∀ x, p.Binds x → r.Binds x := fun r hr => hSteady r (by simp [hr])
    rw [← ih hLater]
    -- the state before has the name too
    cases later with
    | nil => exact History.births_cons_of_binds hHead hx
    | cons s' later => exact History.births_cons_of_binds rfl (hLater s' (by simp) x hx)

/-- A passage at a level of its own. -/
theorem atLevel (hHead : h.head? = some p) (hOwned : p.Owned)
    (hPass : Passage born (p.enter :: h) h' p.enter q) :
    Passage born h (q.leave :: h') p q.leave := by
  have hLevel : q.level = p.level + 1 := hPass.level.trans (level_enter p)
  have hLeave := hPass.owned.find?_leave (by omega)
  -- what was in play before belongs to an older level
  have hKept (x : String) (e : Entry) (he : p.find? x = some e) :
      ∃ e', q.leave.find? x = some e' ∧ e'.level ≤ e.level := by
    obtain ⟨e', he', hLe⟩ := hPass.kept x e he
    have hOld := hOwned.level_le he
    exact ⟨e', (hLeave x e').2 ⟨he', by omega⟩, hLe⟩
  refine ⟨?_, rfl, hPass.owned.leave (by omega), ?_, ?_, hKept, fun x => ?_⟩
  · obtain ⟨later, rfl, hSteady⟩ := hPass.steady
    refine ⟨q.leave :: (later ++ [p.enter]), by simp, fun s hs x hx => ?_⟩
    rcases List.mem_cons.1 hs with rfl | hs
    · obtain ⟨e, he⟩ := hx
      obtain ⟨e', he', -⟩ := hKept x e he
      exact ⟨e', he'⟩
    · rcases List.mem_append.1 hs with hs | hs
      · exact hSteady s hs x hx
      · obtain rfl := List.mem_singleton.1 hs
        exact hx
  · rw [level_leave, hLevel]
    omega
  · rw [counter_leave]
    exact hPass.counter
  · -- neither entering nor leaving brings a name into play
    have hEnter : History.births x (p.enter :: h) = h.births x := by
      by_cases hx : p.Binds x
      · exact History.births_cons_of_binds hHead hx
      · exact History.births_cons_of_not hx h
    have hAfter : History.births x (q.leave :: h') = h'.births x := by
      by_cases hx : q.leave.Binds x
      · obtain ⟨e, he⟩ := hx
        exact History.births_cons_of_binds hPass.last ⟨e, ((hLeave x e).1 he).1⟩
      · exact History.births_cons_of_not hx h'
    have hMade : made x p q.leave = made x p.enter q := by
      unfold made
      rw [counter_leave]
      rfl
    have hInner := hPass.births x
    rw [hAfter, hMade]
    omega

end Passage

end Mlf
