import Mlf.Proofs.Messages

/-!
# Prefixes under other names

Two prefixes with the same variables under other names: the names are changed by a function that
keeps different names apart and moves the names that inference makes up by a fixed distance, levels
are the same, and bounds are copies. Each operation on the variables in play does the same to both,
so what was alike before is so after.

Nothing else is asked of the two prefixes but that each variable has one owner. In particular their
bounds may lead in circles, and may mention names that are not in play.

Main results:

* `Copies` — two prefixes that are alike, with `Copies.newType`, `Copies.update`, `Copies.merge`,
  `Copies.enter` and `Copies.leave` for the operations that change them;
* `Copies.occurs`, `Copies.resolve`, `Copies.resolveTop` — what is looked up;
* `Copies.opened`, `gather_copies`, `Copies.generalize` — instances, and the way back.
-/

namespace Mlf

variable {t u : Polytype} {b b' : Bound}
/-- A change of names that keeps different names apart and moves the names that inference makes up by
a fixed distance. -/
structure Shifts (f : String → String) (c : Nat) : Prop where
  injective : Function.Injective f
  numbered : ∀ i, f (Supply.numbered i) = Supply.numbered (i + c)

/-- Entries whose bounds are copies, the second one `δ` levels deeper. -/
structure Entry.Copies (f : String → String) (δ : Nat) (e e' : Entry) : Prop where
  level : e'.level = e.level + δ
  bound : e.bound.Copies f e'.bound

variable {f : String → String} {c ℓ δ : Nat}

theorem Bound.copies_unbounded : Bound.unbounded.Copies f Bound.unbounded :=
  ⟨rfl, Polytype.copies_bottom.2 rfl⟩

theorem Bound.Copies.eq_iff_of_bottom (h : b.Copies f b') (k : BoundKind) :
    b' = ⟨k, .bottom⟩ ↔ b = ⟨k, .bottom⟩ := by
  obtain ⟨kind, t⟩ := b
  obtain ⟨kind', t'⟩ := b'
  obtain ⟨hKind, hType⟩ := h
  dsimp only at hKind hType
  subst hKind
  have hBottom : t' = .bottom ↔ t = .bottom := by
    cases t with
    | mono m => rw [Polytype.copies_mono.1 hType]; simp
    | bottom => rw [Polytype.copies_bottom.1 hType]
    | all x k b t =>
      obtain ⟨y, d, v, rfl, -⟩ := Polytype.copies_all hType
      simp
  simp [hBottom]

namespace Prefix

/-- The second prefix is the first one under other names and `δ` levels deeper. Both are at a level,
which is `ℓ` for the first one. -/
structure Copies (f : String → String) (c ℓ δ : Nat) (p p' : Prefix) : Prop where
  counter : p'.counter = p.counter + c
  pos : 1 ≤ ℓ
  level : p.level = ℓ
  level' : p'.level = ℓ + δ
  owned : p.Owned
  owned' : p'.Owned
  absent : ∀ x, p.find? x = none → p'.find? (f x) = none
  present : ∀ x e, p.find? x = some e → ∃ e', p'.find? (f x) = some e' ∧ e.Copies f δ e'
  named : ∀ y, p'.Binds y → ∃ x, f x = y

variable {p p' : Prefix}

/-- Prefixes without variables are copies of each other. -/
theorem copies_of_unbound (h : p.Owned) (h' : p'.Owned) (hPos : 1 ≤ p.level)
    (hCounter : p'.counter = p.counter + c) (hLevel : p'.level = p.level + δ)
    (hNone : ∀ x, ¬ p.Binds x) (hNone' : ∀ x, ¬ p'.Binds x) : Copies f c p.level δ p p' := by
  refine ⟨hCounter, hPos, rfl, hLevel, h, h', fun x _ => ?_, fun x e he => ?_, fun y hy => ?_⟩
  · exact Option.eq_none_iff_forall_ne_some.2 fun e he => hNone' _ ⟨e, he⟩
  · exact absurd ⟨e, he⟩ (hNone x)
  · exact absurd hy (hNone' y)

namespace Copies

theorem binds_iff (h : Copies f c ℓ δ p p') (x : String) : p'.Binds (f x) ↔ p.Binds x := by
  cases hx : p.find? x with
  | none => simp [Binds, hx, h.absent x hx]
  | some e =>
    obtain ⟨e', he', -⟩ := h.present x e hx
    simp [Binds, hx, he']

theorem contains (h : Copies f c ℓ δ p p') (x : String) :
    p'.entries.contains (f x) = p.entries.contains x := by
  have hBinds := h.binds_iff x
  rw [← mem_keys_iff, ← mem_keys_iff, NameMap.mem_keys, NameMap.mem_keys] at hBinds
  exact Bool.eq_iff_iff.2 hBinds

/-- Notes and misuses make no difference. -/
theorem congr (h : Copies f c ℓ δ p p') {q q' : Prefix} (hCounter : q.counter = p.counter)
    (hEntries : q.entries = p.entries) (hLevels : q.levels = p.levels)
    (hCounter' : q'.counter = p'.counter) (hEntries' : q'.entries = p'.entries)
    (hLevels' : q'.levels = p'.levels) : Copies f c ℓ δ q q' where
  counter := by rw [hCounter, hCounter', h.counter]
  pos := h.pos
  level := by rw [Prefix.level, hLevels, ← h.level, Prefix.level]
  level' := by rw [Prefix.level, hLevels', ← h.level', Prefix.level]
  owned := h.owned.congr hEntries hLevels
  owned' := h.owned'.congr hEntries' hLevels'
  absent x hx := by
    rw [find?_congr hEntries] at hx
    rw [find?_congr hEntries', h.absent x hx]
  present x e hx := by
    rw [find?_congr hEntries] at hx
    rw [find?_congr hEntries']
    exact h.present x e hx
  named y := by
    rw [Binds, find?_congr hEntries']
    exact h.named y

theorem note (h : Copies f c ℓ δ p p') (event event' : Event) :
    Copies f c ℓ δ (p.note event) (p'.note event') :=
  h.congr rfl rfl rfl rfl rfl rfl

theorem fail (h : Copies f c ℓ δ p p') (failure failure' : Failure) :
    Copies f c ℓ δ (p.fail failure) (p'.fail failure') :=
  h.congr rfl rfl rfl rfl rfl rfl

theorem failAll (h : Copies f c ℓ δ p p') (fs fs' : List Failure) :
    Copies f c ℓ δ (p.failAll fs) (p'.failAll fs') := by
  have hCounter (p : Prefix) (fs : List Failure) : (p.failAll fs).counter = p.counter := by
    induction fs generalizing p with
    | nil => rfl
    | cons failure fs ih => exact ih (p.fail failure)
  exact h.congr (hCounter p fs) (entries_failAll p fs) (levels_failAll p fs) (hCounter p' fs')
    (entries_failAll p' fs') (levels_failAll p' fs')

/-! ## Levels -/

theorem enter (h : Copies f c ℓ δ p p') : Copies f c (ℓ + 1) δ p.enter p'.enter where
  counter := h.counter
  pos := Nat.le_add_left 1 ℓ
  level := by rw [level_enter, h.level]
  level' := by rw [level_enter, h.level', Nat.add_right_comm]
  owned := h.owned.enter
  owned' := h.owned'.enter
  absent := h.absent
  present := h.present
  named := h.named

/-- The same variables go with the current level on both sides. -/
theorem leave (h : Copies f c (ℓ + 1) δ p p') (hPos : 1 ≤ ℓ) : Copies f c ℓ δ p.leave p'.leave := by
  have hCounter (p : Prefix) : p.leave.counter = p.counter := by
    unfold Prefix.leave
    split <;> rfl
  have hLevel := h.level
  have hLevel' := h.level'
  have hFind := h.owned.find?_leave (by omega)
  have hFind' := h.owned'.find?_leave (by omega)
  refine ⟨by rw [hCounter, hCounter, h.counter], hPos, by rw [level_leave]; omega,
    by rw [level_leave]; omega, h.owned.leave (by omega), h.owned'.leave (by omega), fun x hx => ?_,
    fun x e he => ?_, fun y hy => ?_⟩
  · -- a variable that is left over would be so in both
    rw [Option.eq_none_iff_forall_ne_some]
    intro e' he'
    obtain ⟨he', hl⟩ := (hFind' (f x) e').1 he'
    obtain ⟨e, he⟩ := (h.binds_iff x).1 ⟨e', he'⟩
    obtain ⟨e'', he'', hCopies⟩ := h.present x e he
    obtain rfl := Option.some.inj (he'.symm.trans he'')
    rw [hCopies.level] at hl
    rw [(hFind x e).2 ⟨he, by omega⟩] at hx
    cases hx
  · obtain ⟨he, hl⟩ := (hFind x e).1 he
    obtain ⟨e', he', hCopies⟩ := h.present x e he
    exact ⟨e', (hFind' (f x) e').2 ⟨he', by rw [hCopies.level]; omega⟩, hCopies⟩
  · obtain ⟨e', he'⟩ := hy
    exact h.named y ⟨e', ((hFind' y e').1 he').1⟩

/-! ## New variables and new bounds -/

/-- A variable is put to a level as its copy is. -/
theorem place (hf : Function.Injective f) (h : Copies f c ℓ δ p p') {e e' : Entry}
    (hCopies : e.Copies f δ e') (hPos : 1 ≤ e.level) (hLe : e.level ≤ p.level) (x : String) :
    Copies f c ℓ δ (p.place x e) (p'.place (f x) e') := by
  have hEntry := hCopies.level
  have hLevel := h.level
  have hLevel' := h.level'
  refine ⟨by rw [counter_place, counter_place, h.counter], h.pos, by rw [level_place, hLevel],
    by rw [level_place, hLevel'], h.owned.place hPos hLe, h.owned'.place (by omega) (by omega),
    fun y hy => ?_, fun y d hd => ?_, fun y hy => ?_⟩
  · -- a name other than the one that is placed
    rw [find?_place] at hy ⊢
    split_ifs at hy with hyx
    rw [if_neg (hf.ne hyx), h.absent y hy]
  · rw [find?_place] at hd ⊢
    split_ifs at hd with hyx
    · obtain rfl := Option.some.inj hd
      exact ⟨e', if_pos (by rw [hyx]), hCopies⟩
    · rw [if_neg (hf.ne hyx)]
      exact h.present y d hd
  · obtain ⟨d, hd⟩ := hy
    rw [find?_place] at hd
    split_ifs at hd with hyx
    · exact ⟨x, hyx.symm⟩
    · exact h.named y ⟨d, hd⟩

theorem add (hf : Function.Injective f) (h : Copies f c ℓ δ p p') (hCopies : b.Copies f b')
    (x : String) : Copies f c ℓ δ (p.add x b) (p'.add (f x) b') := by
  have hPos := h.pos
  have hLevel := h.level
  have hLevel' := h.level'
  rw [add_eq_place (by omega), add_eq_place (by omega), hLevel, hLevel']
  exact h.place hf ⟨rfl, hCopies⟩ hPos hLevel.ge x

/-- The names that are made up next are copies, too. -/
theorem newType (hf : Shifts f c) (h : Copies f c ℓ δ p p') (hCopies : b.Copies f b') :
    (p'.newType b').1 = f (p.newType b).1 ∧ Copies f c ℓ δ (p.newType b).2 (p'.newType b').2 := by
  -- a number is taken on one side if the shifted one is taken on the other
  have hTaken (i : Nat) : Supply.numbered i ∈ p.entries.keys ↔
      Supply.numbered (i + c) ∈ p'.entries.keys := by
    rw [mem_keys_iff, mem_keys_iff, ← hf.numbered, h.binds_iff]
  have hSame (i j : Nat) : Supply.numbered i = Supply.numbered j ↔
      Supply.numbered (i + c) = Supply.numbered (j + c) := by
    rw [Supply.numbered_injective.eq_iff, Supply.numbered_injective.eq_iff, Nat.add_right_cancel_iff]
  have hNodup (p : Prefix) : p.entries.keys.Nodup := p.entries.nodup
  obtain ⟨i, hFirst, hFirst'⟩ :=
    Supply.firstFree_congr hSame (hNodup p) (hNodup p') hTaken p.counter
  -- so that the searches end at numbers with that distance
  have hSearch : Supply.numbered.firstFree p'.entries.keys p'.counter =
      (f (Supply.numbered i), i + 1 + c) := by
    rw [h.counter, Supply.firstFree_shift, hf.numbered]
    exact congrArg (fun out => (out.1, out.2 + c)) hFirst'
  rw [newType_def, newType_def, hFirst, hSearch]
  refine ⟨rfl, .note ?_ _ _⟩
  have hNext : Copies f c ℓ δ { p with counter := i + 1 } { p' with counter := i + 1 + c } :=
    ⟨rfl, h.pos, h.level, h.level', h.owned, h.owned', h.absent, h.present, h.named⟩
  exact hNext.add hf.injective hCopies _

theorem lower (hf : Function.Injective f) (h : Copies f c ℓ δ p p') {l : Nat} (hPos : 1 ≤ l)
    (hLe : l ≤ p.level) (todo : List String) :
    Copies f c ℓ δ (p.lower l todo) (p'.lower (l + δ) (todo.map f)) := by
  induction p, todo using lower_induct l generalizing p' with
  | nil p => rwa [List.map_nil, lower_nil, lower_nil]
  | unknown p x rest hNone ih =>
    rw [List.map_cons, lower_unknown rest hNone, lower_unknown _ (h.absent x hNone)]
    exact ih h hLe
  -- the copy is as far from the level, so it is moved too
  | moved p x rest e he hl ih =>
    obtain ⟨d, hd, hCopies⟩ := h.present x e he
    rw [List.map_cons, lower_moved rest he hl, lower_moved _ hd (by rw [hCopies.level]; omega),
      hCopies.bound.type.freeVars hf, ← List.map_append]
    have hEntry : Entry.Copies f δ ⟨l, e.bound⟩ ⟨l + δ, d.bound⟩ := ⟨rfl, hCopies.bound⟩
    exact ih (h.place hf hEntry hPos hLe x) (by rwa [level_place])
  | kept p x rest e he hl ih =>
    obtain ⟨d, hd, hCopies⟩ := h.present x e he
    rw [List.map_cons, lower_kept rest he hl, lower_kept _ hd (by rw [hCopies.level]; omega)]
    exact ih h hLe

/-- A variable and its copy get new bounds that are copies. -/
theorem rebound (hf : Function.Injective f) (h : Copies f c ℓ δ p p') {x : String} {e : Entry}
    (hx : p.find? x = some e) (hCopies : b.Copies f b') :
    Copies f c ℓ δ { p with entries := p.entries.insert x ⟨e.level, b⟩ }
      { p' with entries := p'.entries.insert (f x) ⟨e.level + δ, b'⟩ } := by
  obtain ⟨e', hx', hEntry⟩ := h.present x e hx
  -- what the changed variables have as their entries
  have hFind (p : Prefix) (x : String) (e : Entry) (y : String) :
      ({ p with entries := p.entries.insert x e } : Prefix).find? y =
        if y = x then some e else p.find? y := NameMap.find?_insert p.entries x y e
  refine ⟨h.counter, h.pos, h.level, h.level', h.owned.rebound hx (hFind p x _) rfl, ?_,
    fun y hy => ?_, fun y d hd => ?_, fun y hy => ?_⟩
  · rw [← hEntry.level]
    exact h.owned'.rebound hx' (hFind p' (f x) _) rfl
  · rw [hFind] at hy ⊢
    split_ifs at hy with hyx
    rw [if_neg (hf.ne hyx), h.absent y hy]
  · rw [hFind] at hd ⊢
    split_ifs at hd with hyx
    · obtain rfl := Option.some.inj hd
      exact ⟨⟨e.level + δ, b'⟩, if_pos (by rw [hyx]), rfl, hCopies⟩
    · rw [if_neg (hf.ne hyx)]
      exact h.present y d hd
  · obtain ⟨d, hd⟩ := hy
    rw [hFind] at hd
    split_ifs at hd with hyx
    · exact ⟨x, hyx.symm⟩
    · exact h.named y ⟨d, hd⟩

theorem update (hf : Function.Injective f) (h : Copies f c ℓ δ p p') (hCopies : b.Copies f b')
    (x : String) : Copies f c ℓ δ (p.update x b) (p'.update (f x) b') := by
  rw [update_def, update_def]
  cases hx : p.find? x with
  | none =>
    rw [h.absent x hx]
    exact h.fail _ _
  | some e =>
    obtain ⟨e', hx', hEntry⟩ := h.present x e hx
    rw [hx', hCopies.type.freeVars hf]
    dsimp only
    rw [hEntry.level]
    exact ((h.rebound hf hx hCopies).lower hf (h.owned.level_pos hx) (h.owned.level_le hx) _).note
      _ _

theorem survivor (h : Copies f c ℓ δ p p') (x y : String) :
    p'.survivor (f x) (f y) = (f (p.survivor x y).1, f (p.survivor x y).2) := by
  unfold Prefix.survivor
  cases hx : p.find? x with
  | none => rw [h.absent x hx]
  | some ex =>
    obtain ⟨ex', hx', hEx⟩ := h.present x ex hx
    cases hy : p.find? y with
    | none => rw [hx', h.absent y hy]
    | some ey =>
      obtain ⟨ey', hy', hEy⟩ := h.present y ey hy
      simp only [hx', hy', hEx.level, hEy.level, Nat.add_lt_add_iff_right]
      split_ifs <;> rfl

theorem merge (hf : Function.Injective f) (h : Copies f c ℓ δ p p') (hCopies : b.Copies f b')
    (x y : String) : Copies f c ℓ δ (p.merge x y b).2 (p'.merge (f x) (f y) b').2 := by
  rw [merge_def, merge_def, h.contains, h.contains, h.survivor]
  split_ifs
  · have hLink : Bound.Copies f ⟨.flexible, .mono (.var (p.survivor x y).1)⟩
        ⟨.flexible, .mono (.var (f (p.survivor x y).1))⟩ := ⟨rfl, Polytype.copies_mono.2 rfl⟩
    exact (h.update hf hCopies _).update hf hLink _
  · exact h.fail _ _

/-! ## What types reach -/

/-- A search through the bounds has the same answer for copies. -/
theorem leadsTo (hf : Function.Injective f) (h : Copies f c ℓ δ p p') (x : String)
    (todo seen : List String) :
    p'.leadsTo (f x) (todo.map f) (seen.map f) = p.leadsTo x todo seen := by
  have hMem {y : String} {seen : List String} : f y ∈ seen.map f ↔ y ∈ seen :=
    List.mem_map_of_injective hf
  fun_induction Prefix.leadsTo p x todo seen with
  | case1 seen => rw [List.map_nil, Prefix.leadsTo]
  | case2 seen rest => rw [List.map_cons, Prefix.leadsTo, if_pos rfl]
  | case3 seen y rest hne hSeen ih =>
    rw [List.map_cons, Prefix.leadsTo, if_neg (hf.ne hne), dif_pos (hMem.2 hSeen), ih]
  | case4 seen y rest hne hSeen hNone ih =>
    rw [List.map_cons, Prefix.leadsTo, if_neg (hf.ne hne), dif_neg (mt hMem.1 hSeen)]
    split
    · exact ih
    · next e' he' => rw [h.absent y hNone] at he'; cases he'
  | case5 seen y rest hne hSeen e he ih =>
    obtain ⟨d, hd, hCopies⟩ := h.present y e he
    rw [List.map_cons, Prefix.leadsTo, if_neg (hf.ne hne), dif_neg (mt hMem.1 hSeen)]
    split
    · next hNone => rw [hd] at hNone; cases hNone
    · next e' he' =>
      obtain rfl := Option.some.inj (hd.symm.trans he')
      -- the names that are still to be searched are copies, too
      rw [hCopies.bound.type.freeVars hf, ← List.map_append]
      exact ih

theorem occurs (hf : Function.Injective f) (h : Copies f c ℓ δ p p') (x : String)
    (hCopies : t.Copies f u) : p'.occurs (f x) u = p.occurs x t := by
  rw [Prefix.occurs, hCopies.freeVars hf]
  exact h.leadsTo hf x t.freeVars.toList []

/-! ## Solved variables -/

theorem solution? (h : Copies f c ℓ δ p p') (x : String) :
    p'.solution? (f x) = (p.solution? x).map (·.rename f) := by
  unfold Prefix.solution?
  cases hx : p.find? x with
  | none => rw [h.absent x hx]; rfl
  | some e =>
    obtain ⟨e', hx', hCopies⟩ := h.present x e hx
    rw [hx']
    exact hCopies.bound.type.mono?

/-- What names stand for are copies. -/
theorem resolution (hf : Function.Injective f) (h : Copies f c ℓ δ p p') (path names : List String) :
    Subst.Copies f (p.resolution path names).1 (p'.resolution (path.map f) (names.map f)).1 := by
  fun_induction Prefix.resolution p path names with
  | case1 path =>
    rw [List.map_nil, Prefix.resolution]
    exact Subst.copies_empty
  | case2 path x rest hNone ih =>
    have hNone' : p'.solution? (f x) = none := by rw [h.solution?, hNone]; rfl
    rw [List.map_cons, Prefix.resolution]
    split
    · exact ih
    · next m hSome => rw [hNone'] at hSome; cases hSome
  | case3 path x rest m hSome hSeen s fs hRest ih =>
    have hSome' : p'.solution? (f x) = some (m.rename f) := by rw [h.solution?, hSome]; rfl
    rw [List.map_cons, Prefix.resolution]
    split
    · next hNone => rw [hSome'] at hNone; cases hNone
    · rw [dif_pos ((List.mem_map_of_injective hf).2 hSeen)]
      rw [hRest] at ih
      exact ih
  -- the solution is resolved first, on the way to which the name is not followed again
  | case4 path x rest m hSome hSeen inner fs hInner s gs hRest ihInner ihRest =>
    have hSome' : p'.solution? (f x) = some (m.rename f) := by rw [h.solution?, hSome]; rfl
    rw [List.map_cons, Prefix.resolution]
    split
    · next hNone => rw [hSome'] at hNone; cases hNone
    · next m' hm' =>
      obtain rfl := Option.some.inj (hSome'.symm.trans hm')
      rw [dif_neg (mt (List.mem_map_of_injective hf).1 hSeen)]
      rw [hInner, List.map_cons] at ihInner
      rw [hRest] at ihRest
      dsimp only
      rw [Monotype.freeVars_rename hf, Monotype.subst_rename ihInner]
      exact ihRest.insert hf x _

theorem resolved (hf : Function.Injective f) (h : Copies f c ℓ δ p p') (hCopies : t.Copies f u) :
    (p.resolved t).Copies f (p'.resolved u) := by
  have hSubst := h.resolution hf [] t.freeVars.toList
  rw [List.map_nil, ← hCopies.freeVars hf] at hSubst
  exact hCopies.subst hSubst

theorem resolve (hf : Function.Injective f) (h : Copies f c ℓ δ p p') (hCopies : t.Copies f u) :
    (p.resolve t).1.Copies f (p'.resolve u).1 ∧ Copies f c ℓ δ (p.resolve t).2 (p'.resolve u).2 :=
  ⟨h.resolved hf hCopies, h.failAll _ _⟩

theorem size (hf : Function.Injective f) (h : Copies f c ℓ δ p p') : p'.size = p.size := by
  -- the names on the one side are the copies of those on the other
  have hPerm : p'.entries.keys.Perm (p.entries.keys.map f) := by
    have hNodup (p : Prefix) : p.entries.keys.Nodup := p.entries.nodup
    refine (List.perm_ext_iff_of_nodup (hNodup p') ((hNodup p).map hf)).2 fun y => ?_
    rw [List.mem_map, mem_keys_iff]
    constructor
    · intro hy
      obtain ⟨x, rfl⟩ := h.named y hy
      exact ⟨x, mem_keys_iff.2 ((h.binds_iff x).1 hy), rfl⟩
    · rintro ⟨x, hx, rfl⟩
      exact (h.binds_iff x).2 (mem_keys_iff.1 hx)
  have hLength := hPerm.length_eq
  rw [List.length_map] at hLength
  simpa [Prefix.size, NameMap.size, NameMap.keys] using hLength

theorem follow (h : Copies f c ℓ δ p p') (n : Nat) (t : Monotype) :
    p'.follow n (t.rename f) = ((p.follow n t).1.rename f, (p.follow n t).2) := by
  fun_induction Prefix.follow p n t with
  | case1 t => rfl
  | case2 n x hNone => simp only [Monotype.rename, Prefix.follow, h.solution?, hNone, Option.map_none]
  | case3 n x m hSome ih =>
    simpa only [Monotype.rename, Prefix.follow, h.solution?, hSome, Option.map_some] using ih
  | case4 n t hNotVar =>
    cases t with
    | var x => exact absurd rfl (hNotVar x)
    | const d => rfl
    | fn a b => rfl

theorem source? (h : Copies f c ℓ δ p p') (n : Nat) (t : Monotype) :
    p'.source? n (t.rename f) = (p.source? n t).map f := by
  induction n generalizing t with
  | zero => cases t <;> rfl
  | succ n ih =>
    cases t with
    | var x =>
      simp only [Monotype.rename, Prefix.source?, h.solution?, Option.map_map]
      refine congrArg (Option.map · (p.solution? x)) (funext fun m => ?_)
      simp only [Function.comp_apply, ih, Option.getD_map]
    | const d => rfl
    | fn a b => rfl

theorem shares (hf : Function.Injective f) (h : Copies f c ℓ δ p p') (a b : Monotype) :
    p'.shares (a.rename f) (b.rename f) = p.shares a b := by
  simp only [Prefix.shares, h.size hf, h.source?]
  cases p.source? (p.size + 1) a with
  | none => rfl
  | some x =>
    cases p.source? (p.size + 1) b with
    | none => rfl
    | some y => simp [hf.eq_iff]

theorem resolveTop (hf : Function.Injective f) (h : Copies f c ℓ δ p p') (t : Monotype) :
    (p'.resolveTop (t.rename f)).1 = (p.resolveTop t).1.rename f ∧
      Copies f c ℓ δ (p.resolveTop t).2 (p'.resolveTop (t.rename f)).2 := by
  unfold Prefix.resolveTop
  rw [h.size hf, h.follow]
  rcases p.follow (p.size + 1) t with ⟨m, _ | _⟩
  · exact ⟨rfl, h.fail _ _⟩
  · exact ⟨rfl, h⟩

/-! ## Instances -/

/-- Under replacements that agree, the quantifiers of two types are opened in the same way. -/
theorem instantiateWith (hf : Shifts f c) (h : Copies f c ℓ δ p p') {s s' : Subst}
    (hRead : t.nameless (s.nameless fun x => .var (f x)) = u.nameless (s'.nameless .var)) :
    t.split.2.nameless ((p.instantiateWith s t.split.1).1.nameless fun x => .var (f x)) =
        u.split.2.nameless ((p'.instantiateWith s' u.split.1).1.nameless .var) ∧
      Copies f c ℓ δ (p.instantiateWith s t.split.1).2 (p'.instantiateWith s' u.split.1).2 := by
  induction t generalizing p p' s s' u with
  | mono m =>
    cases u with
    | mono n => exact ⟨hRead, h⟩
    | bottom => simp [Polytype.nameless] at hRead
    | all y l b u => simp [Polytype.nameless] at hRead
  | bottom =>
    cases u with
    | mono n => simp [Polytype.nameless] at hRead
    | bottom => exact ⟨hRead, h⟩
    | all y l b u => simp [Polytype.nameless] at hRead
  | all x k b t _ iht =>
    cases u with
    | mono n => simp [Polytype.nameless] at hRead
    | bottom => simp [Polytype.nameless] at hRead
    | all y l d u =>
      simp only [Polytype.nameless, Nameless.all.injEq] at hRead
      obtain ⟨rfl, hBound, hBody⟩ := hRead
      -- the new variables are copies, and take the places of the quantified ones
      have hCopies : Bound.Copies f ⟨k, b.subst s⟩ ⟨k, d.subst s'⟩ := by
        refine ⟨rfl, ?_⟩
        rw [Polytype.Copies, Polytype.shape, Polytype.nameless_subst, Polytype.nameless_subst]
        exact hBound
      obtain ⟨hName, hNew⟩ := h.newType hf hCopies
      have hOpened : t.nameless (Subst.nameless (s.insert x (.var (p.newType ⟨k, b.subst s⟩).1))
          fun x => .var (f x)) =
          u.nameless (Subst.nameless (s'.insert y (.var (p'.newType ⟨k, d.subst s'⟩).1)) .var) := by
        rw [Subst.nameless_insert, Subst.nameless_insert, ← Polytype.fill_nameless,
          ← Polytype.fill_nameless, hBody, hName]
        rfl
      exact iht hNew hOpened

/-- Instances of copies are copies. -/
theorem opened (hf : Shifts f c) (h : Copies f c ℓ δ p p') (hCopies : t.Copies f u) :
    (p'.opened u).1 = (p.opened t).1.rename f ∧ Copies f c ℓ δ (p.opened t).2 (p'.opened u).2 := by
  have hRead : t.normal.nameless ((∅ : Subst).nameless fun x => .var (f x)) =
      u.normal.nameless ((∅ : Subst).nameless .var) := hCopies.normal
  obtain ⟨hBody, hNew⟩ := h.instantiateWith hf hRead
  have hFresh := h.newType hf (Bound.copies_unbounded (f := f))
  unfold Prefix.opened
  rcases hSplit : t.normal.split with ⟨bs, body⟩
  rcases hSplit' : u.normal.split with ⟨cs, body'⟩
  rw [hSplit, hSplit'] at hBody hNew
  cases body with
  | mono m =>
    cases body' with
    | mono n =>
      refine ⟨?_, hNew⟩
      -- the bodies have one reading once the new variables are put in
      simp only [Polytype.nameless, Nameless.mono.injEq] at hBody
      rw [← Monotype.nameless_subst, ← Monotype.nameless_subst,
        ← Monotype.nameless_rename _ Nameless.Mono.var] at hBody
      exact (Monotype.eq_of_nameless_eq Function.injective_id hBody).symm
    | bottom => simp [Polytype.nameless] at hBody
    | all y l b u => simp [Polytype.nameless] at hBody
  | bottom =>
    cases body' with
    | mono n => simp [Polytype.nameless] at hBody
    | bottom => exact ⟨congrArg Monotype.var hFresh.1, hFresh.2⟩
    | all y l b u => simp [Polytype.nameless] at hBody
  | all x k b t =>
    cases body' with
    | mono n => simp [Polytype.nameless] at hBody
    | bottom => simp [Polytype.nameless] at hBody
    | all y l b u => exact ⟨congrArg Monotype.var hFresh.1, hFresh.2⟩

end Copies

/-! ## Generalization -/

/-- Tasks about a variable and its copy. -/
inductive Task.Copies (f : String → String) : Task → Task → Prop
  | visit (x : String) : Task.Copies f (.visit x) (.visit (f x))
  | list {b b' : Binding} (h : b.Copies f b') : Task.Copies f (.list b) (.list b')

theorem Task.copies_visits (names : List String) :
    List.Forall₂ (Task.Copies f) (names.map .visit) ((names.map f).map .visit) := by
  induction names with
  | nil => exact .nil
  | cons x names ih => exact .cons (.visit x) ih

/-- Among some names the variables of two prefixes are copies, as far as it is seen where they are
older than the current level; and younger bounds lead to such names only. -/
structure CopiesOn (f : String → String) (Z : Set String) (p p' : Prefix) : Prop where
  absent : ∀ x ∈ Z, p.find? x = none → p'.find? (f x) = none
  present : ∀ x ∈ Z, ∀ e, p.find? x = some e → ∃ e', p'.find? (f x) = some e' ∧
    e.bound.Copies f e'.bound ∧ (e'.level < p'.level ↔ e.level < p.level)
  closed : ∀ x ∈ Z, ∀ e, p.find? x = some e → ¬ e.level < p.level →
    ∀ y ∈ e.bound.type.freeVars, y ∈ Z

theorem Copies.on_univ (h : Copies f c ℓ δ p p') : CopiesOn f Set.univ p p' where
  absent x _ := h.absent x
  present x _ e he := by
    obtain ⟨e', he', hCopies⟩ := h.present x e he
    exact ⟨e', he', hCopies.bound, by rw [hCopies.level, h.level, h.level', Nat.add_lt_add_iff_right]⟩
  closed _ _ _ _ _ _ _ := trivial

/-- Copies are quantified over copies, in the same order. -/
theorem gather_copies (hf : Function.Injective f) {Z : Set String} (h : CopiesOn f Z p p')
    {todo todo' : List Task} (hTodo : List.Forall₂ (Task.Copies f) todo todo')
    (hNames : ∀ x, Task.visit x ∈ todo → x ∈ Z) (seen : List String) :
    List.Forall₂ (Binding.Copies f) (p.gather todo seen).1 (p'.gather todo' (seen.map f)).1 := by
  fun_induction gather p todo seen generalizing todo' with
  | case1 seen =>
    cases hTodo
    rw [gather]
    exact .nil
  | case2 seen b rest bs fs hRest ih =>
    obtain ⟨_, rest', hTask, hTail, rfl⟩ := List.forall₂_cons_left_iff.1 hTodo
    cases hTask with
    | list hb =>
      rw [hRest] at ih
      rw [gather]
      exact .cons hb (ih hTail fun x hx => hNames x (by simp [hx]))
  | case3 seen x rest hSeen ih =>
    obtain ⟨_, rest', hTask, hTail, rfl⟩ := List.forall₂_cons_left_iff.1 hTodo
    cases hTask
    rw [gather, dif_pos ((List.mem_map_of_injective hf).2 hSeen)]
    exact ih hTail fun x hx => hNames x (by simp [hx])
  | case4 seen x rest hSeen hNone bs fs hRest ih =>
    obtain ⟨_, rest', hTask, hTail, rfl⟩ := List.forall₂_cons_left_iff.1 hTodo
    cases hTask
    rw [hRest] at ih
    rw [gather, dif_neg (mt (List.mem_map_of_injective hf).1 hSeen)]
    split
    · exact ih hTail fun x hx => hNames x (by simp [hx])
    · next e' he' =>
      rw [h.absent x (hNames x (by simp)) hNone] at he'
      cases he'
  | case5 seen x rest hSeen e he hOlder ih =>
    obtain ⟨_, rest', hTask, hTail, rfl⟩ := List.forall₂_cons_left_iff.1 hTodo
    cases hTask
    obtain ⟨d, hd, -, hLevels⟩ := h.present x (hNames x (by simp)) e he
    rw [gather, dif_neg (mt (List.mem_map_of_injective hf).1 hSeen)]
    split
    · next hNone => rw [hd] at hNone; cases hNone
    · next e' he' =>
      obtain rfl := Option.some.inj (hd.symm.trans he')
      rw [if_pos (hLevels.2 hOlder)]
      exact ih hTail fun x hx => hNames x (by simp [hx])
  -- a variable of the current level comes after what its bound mentions
  | case6 seen x rest hSeen e he hOlder ih =>
    obtain ⟨_, rest', hTask, hTail, rfl⟩ := List.forall₂_cons_left_iff.1 hTodo
    cases hTask
    have hx := hNames x (by simp)
    obtain ⟨d, hd, hBound, hLevels⟩ := h.present x hx e he
    rw [gather, dif_neg (mt (List.mem_map_of_injective hf).1 hSeen)]
    split
    · next hNone => rw [hd] at hNone; cases hNone
    · next e' he' =>
      obtain rfl := Option.some.inj (hd.symm.trans he')
      rw [if_neg (mt hLevels.1 hOlder), hBound.type.occurrences]
      refine ih (List.rel_append (Task.copies_visits _) (.cons (.list ⟨rfl, hBound⟩) hTail))
        fun y hy => ?_
      -- what is new to visit is mentioned by the bound
      simp only [List.mem_append, List.mem_map, List.mem_cons, reduceCtorEq, false_or] at hy
      rcases hy with ⟨z, hz, hEq⟩ | hy
      · obtain rfl : z = y := by simpa using hEq
        exact h.closed x hx e he hOlder z (Polytype.mem_occurrences.1 hz)
      · exact hNames y (by simp [hy])

theorem CopiesOn.generalize (hf : Function.Injective f) {Z : Set String} (h : CopiesOn f Z p p')
    (hCopies : t.Copies f u) (hNames : ∀ x ∈ t.freeVars, x ∈ Z) :
    (p.generalize t).1.Copies f (p'.generalize u).1 := by
  have hGather := gather_copies hf h (Task.copies_visits (f := f) t.occurrences) (fun x hx => by
    obtain ⟨y, hy, hEq⟩ := List.mem_map.1 hx
    obtain rfl : y = x := by simpa using hEq
    exact hNames y (Polytype.mem_occurrences.1 hy)) []
  rw [← hCopies.occurrences] at hGather
  exact hCopies.quantifyAll hf hGather

theorem Copies.generalize (hf : Function.Injective f) (h : Copies f c ℓ δ p p')
    (hCopies : t.Copies f u) :
    (p.generalize t).1.Copies f (p'.generalize u).1 ∧
      Copies f c ℓ δ (p.generalize t).2 (p'.generalize u).2 :=
  ⟨h.on_univ.generalize hf hCopies fun _ _ => trivial, h.failAll _ _⟩

end Prefix

end Mlf
