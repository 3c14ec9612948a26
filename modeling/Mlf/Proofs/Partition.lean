import Mathlib
import Mlf.Proofs.WellFormed

/-!
# The levels divide up the variables

The entries of a prefix and its levels say twice which level owns a variable. They never disagree,
whatever is done with a prefix: by the rules or not, with names that are not in play, bounds that
lead back to themselves and levels that do not exist.

Changing a level uses its number as a place in the list of levels. The operations take what is to be
done where there is no such place: nothing when they run, and giving up when they are to show whether
that comes up (`runAll?`). It never does.

Main results:

* `Op`, `runAll` — the operations on a prefix and their sequences;
* `Op.owned` — every operation keeps entries and levels in agreement;
* `Op.runIn_eq` — and changes only levels that exist;
* `runAll_partitioned` — both for whole sequences, with what follows for the size, the names and the
  leaving of a level.
-/

namespace Mlf

/-! ## Sorted lists without repeats -/

section

variable {α : Type} [BEq α] [LawfulBEq α]

theorem mem_eraseRepsBy_loop (x a : α) (xs acc : List α) :
    x ∈ List.eraseRepsBy.loop (· == ·) a xs acc ↔ x = a ∨ x ∈ xs ∨ x ∈ acc := by
  induction xs generalizing a acc with
  | nil => simp [List.eraseRepsBy.loop, or_comm]
  | cons b xs ih =>
    unfold List.eraseRepsBy.loop
    by_cases hab : a = b
    · subst hab
      simp only [beq_self_eq_true, ih, List.mem_cons]
      tauto
    · simp only [beq_false_of_ne hab, ih, List.mem_cons]
      tauto

theorem mem_eraseReps (x : α) (xs : List α) : x ∈ xs.eraseReps ↔ x ∈ xs := by
  cases xs with
  | nil => rfl
  | cons a xs => simp [List.eraseReps, List.eraseRepsBy, mem_eraseRepsBy_loop]

variable [LinearOrder α]

/-- The loop on a sorted list: what it has kept so far is decreasing, as it is collected in reverse,
and what comes is at least as large as the element at hand. -/
theorem pairwise_eraseRepsBy_loop (a : α) (xs acc : List α) (hSorted : (a :: xs).Pairwise (· ≤ ·))
    (hAcc : (a :: acc).Pairwise (· > ·)) :
    (List.eraseRepsBy.loop (· == ·) a xs acc).Pairwise (· < ·) := by
  induction xs generalizing a acc with
  | nil => simpa [List.eraseRepsBy.loop] using List.pairwise_reverse.2 hAcc
  | cons b xs ih =>
    obtain ⟨ha, hRest⟩ := List.pairwise_cons.1 hSorted
    unfold List.eraseRepsBy.loop
    by_cases hab : a = b
    · subst hab
      simp only [beq_self_eq_true]
      exact ih a acc hRest hAcc
    · -- the next one is larger than all that was kept
      simp only [beq_false_of_ne hab]
      have hLt : a < b := lt_of_le_of_ne (ha b (by simp)) hab
      refine ih b (a :: acc) hRest (List.pairwise_cons.2 ⟨?_, hAcc⟩)
      intro c hc
      rcases List.mem_cons.1 hc with rfl | hc
      · exact hLt
      · exact lt_trans ((List.pairwise_cons.1 hAcc).1 c hc) hLt

theorem pairwise_eraseReps {xs : List α} (hSorted : xs.Pairwise (· ≤ ·)) :
    xs.eraseReps.Pairwise (· < ·) := by
  cases xs with
  | nil => exact .nil
  | cons a xs => exact pairwise_eraseRepsBy_loop a xs [] hSorted (by simp)

end

namespace Prefix

/-! ## What follows for the size and the names -/

/-- The names that the levels own, level by level. -/
theorem mem_flatMap_levels {p : Prefix} (h : p.Owned) (x : String) :
    x ∈ p.levels.flatMap NameSet.toList ↔ p.Binds x := by
  simp only [List.mem_flatMap, NameSet.mem_toList]
  constructor
  · rintro ⟨names, hNames, hx⟩
    obtain ⟨i, hi, hGet⟩ := List.mem_iff_getElem.1 hNames
    -- the place of a level in the list gives its number
    have hOwns : p.Owns (p.level - i) x := by
      refine ⟨Nat.sub_le _ _, names, ?_, hx⟩
      have hIndex : p.levelIndex (p.level - i) = i := by
        simp only [levelIndex, level]
        omega
      rw [hIndex, List.getElem?_eq_getElem hi, hGet]
    obtain ⟨e, he, -⟩ := (h x _).1 hOwns
    exact ⟨e, he⟩
  · rintro ⟨e, he⟩
    obtain ⟨-, names, hNames, hx⟩ := (h x e.level).2 ⟨e, he, rfl⟩
    exact ⟨names, List.mem_of_getElem? hNames, hx⟩

/-- No name is owned twice, by one level or by two. -/
theorem nodup_flatMap_levels {p : Prefix} (h : p.Owned) :
    (p.levels.flatMap NameSet.toList).Nodup := by
  refine List.nodup_flatMap.2 ⟨fun names _ => names.nodup, List.pairwise_iff_getElem.2 ?_⟩
  intro i j hi hj hij
  simp only [Function.onFun, List.disjoint_left, NameSet.mem_toList]
  intro x hxi hxj
  -- both levels would be that of the entry of `x`
  have hOwns {k : Nat} (hk : k < p.levels.length) (hx : x ∈ p.levels[k]) :
      ∃ e, p.find? x = some e ∧ e.level = p.level - k := by
    refine (h x _).1 ⟨Nat.sub_le _ _, _, ?_, hx⟩
    have hIndex : p.levelIndex (p.level - k) = k := by
      simp only [levelIndex, level]
      omega
    rw [hIndex, List.getElem?_eq_getElem hk]
  obtain ⟨e, he, hLevel⟩ := hOwns hi hxi
  obtain ⟨e', he', hLevel'⟩ := hOwns hj hxj
  obtain rfl : e = e' := Option.some.inj (he.symm.trans he')
  simp only [level] at hLevel hLevel'
  omega

theorem Owned.size_eq {p : Prefix} (h : p.Owned) : p.size = (p.levels.map NameSet.size).sum := by
  -- two lists without repeats and with the same members
  have hPerm : p.entries.keys.Perm (p.levels.flatMap NameSet.toList) := by
    refine (List.perm_ext_iff_of_nodup p.entries.nodup (nodup_flatMap_levels h)).2 fun x => ?_
    rw [mem_flatMap_levels h]
    exact mem_keys_iff
  calc p.size = p.entries.keys.length := by simp [size, NameMap.size, NameMap.keys]
    _ = (p.levels.flatMap NameSet.toList).length := hPerm.length_eq
    _ = (p.levels.map NameSet.size).sum := List.length_flatMap

theorem pairwise_names (p : Prefix) : p.names.Pairwise (· < ·) := by
  refine pairwise_eraseReps ?_
  -- sorting leaves equal names next to each other, where the second step finds them
  have hSorted := @List.pairwise_mergeSort _ (fun x y : String => decide (x ≤ y))
    (fun x y z hxy hyz => by simpa using le_trans (of_decide_eq_true hxy) (of_decide_eq_true hyz))
    (fun x y => by simpa using le_total x y) (p.entries.keys ++ p.levels.flatMap NameSet.toList)
  exact hSorted.imp of_decide_eq_true

theorem Owned.mem_names {p : Prefix} (h : p.Owned) (x : String) : x ∈ p.names ↔ p.Binds x := by
  rw [names, mem_eraseReps, List.mem_mergeSort, List.mem_append, mem_flatMap_levels h, mem_keys_iff,
    or_self]

/-- Where there is no level there is no variable either, so leaving loses nothing. -/
theorem Owned.find?_leave_iff {p : Prefix} (h : p.Owned) (x : String) (e : Entry) :
    p.leave.find? x = some e ↔ p.find? x = some e ∧ e.level ≠ p.level := by
  by_cases hLevel : p.level = 0
  · -- a variable would be of a level between one and none
    have hNone (e' : Entry) : p.find? x ≠ some e' := by
      intro he'
      have hPos := h.level_pos he'
      have hLe := h.level_le he'
      omega
    have hSame : p.leave.find? x = p.find? x := by
      have hNil : p.levels = [] := List.length_eq_zero_iff.1 hLevel
      unfold Prefix.leave
      rw [hNil]
      rfl
    simp [hSame, hNone]
  · rw [h.find?_leave (Nat.one_le_iff_ne_zero.2 hLevel)]
    refine and_congr_right fun he => ?_
    have hLe := h.level_le he
    omega

/-- The entries and the levels of a prefix divide up its variables. -/
structure Partitioned (p : Prefix) : Prop where
  /-- An entry names a level that exists. -/
  bounds : ∀ x e, p.find? x = some e → 1 ≤ e.level ∧ e.level ≤ p.level
  /-- A level owns the variables whose entries name it. -/
  owners : ∀ x l, p.Owns l x ↔ ∃ e, p.find? x = some e ∧ e.level = l
  /-- The variables are counted right level by level. -/
  size : p.size = (p.levels.map NameSet.size).sum
  /-- The names of the variables are listed once each, in increasing order. -/
  names : p.names.Pairwise (· < ·) ∧ ∀ x, x ∈ p.names ↔ p.Binds x
  /-- Leaving the current level forgets the variables whose entries name it, and changes no other. -/
  leave : ∀ x e, p.leave.find? x = some e ↔ p.find? x = some e ∧ e.level ≠ p.level

theorem Owned.partitioned {p : Prefix} (h : p.Owned) : p.Partitioned where
  bounds _ _ he := ⟨h.level_pos he, h.level_le he⟩
  owners := h
  size := h.size_eq
  names := ⟨p.pairwise_names, h.mem_names⟩
  leave := h.find?_leave_iff

/-! ## Levels that exist

The operations are given what to do about levels that do not exist. Whatever that is, it makes no
difference where entries and levels agree. -/

section

variable {p : Prefix}

theorem Owned.canPlace (h : p.Owned) (x : String) {l : Nat} (hPos : 1 ≤ l) (hLe : l ≤ p.level) :
    p.canPlace x l = true := by
  have hPrior : ((p.find? x).all fun e => p.hasLevel e.level) = true := by
    cases hx : p.find? x with
    | none => rfl
    | some e => simp [hasLevel, h.level_pos hx, h.level_le hx]
  have hNew : p.hasLevel l = true := by simp [hasLevel, hPos, hLe]
  rw [Prefix.canPlace, hPrior, hNew]
  rfl

theorem Owned.counted (h : p.Owned) (n : Nat) : ({ p with counter := n } : Prefix).Owned :=
  h.congr rfl rfl

theorem Owned.newType (h : p.Owned) (b : Bound) : (p.newType b).2.Owned :=
  ((h.counted _).add _ b).congr rfl rfl

/-- The bound of a variable changes and nothing moves yet. -/
theorem Owned.setBound (h : p.Owned) {x : String} {e : Entry} (hx : p.find? x = some e) (b : Bound) :
    ({ p with entries := p.entries.insert x ⟨e.level, b⟩ } : Prefix).Owned :=
  h.rebound hx (fun y => NameMap.find?_insert p.entries x y ⟨e.level, b⟩) rfl

/-- A new bound keeps entries and levels in agreement. It may lead back to its variable. -/
theorem Owned.update (h : p.Owned) (x : String) (b : Bound) : (p.update x b).Owned := by
  rw [update_def]
  cases hx : p.find? x with
  | none => exact h.congr rfl rfl
  | some e => exact ((h.setBound hx b).lower (h.level_pos hx) (h.level_le hx) _).congr rfl rfl

theorem Owned.merge (h : p.Owned) (x y : String) (b : Bound) : (p.merge x y b).2.Owned := by
  rw [merge_def]
  split_ifs
  · exact (h.update _ b).update _ _
  · exact h.congr rfl rfl

theorem Owned.instantiateWith (h : p.Owned) (s : Subst) (bs : List Binding) :
    (p.instantiateWith s bs).2.Owned := by
  induction bs generalizing p s with
  | nil => exact h
  | cons b bs ih => exact ih (h.newType _) _

theorem Owned.leave_any (h : p.Owned) : p.leave.Owned := by
  by_cases hLevel : p.level = 0
  · have hNil : p.levels = [] := List.length_eq_zero_iff.1 hLevel
    unfold Prefix.leave
    rw [hNil]
    exact h.congr rfl rfl
  · exact h.leave (Nat.one_le_iff_ne_zero.2 hLevel)

theorem Owned.failAll (h : p.Owned) (fs : List Failure) : (p.failAll fs).Owned :=
  h.congr (entries_failAll p fs) (levels_failAll p fs)

theorem Owned.resolveTop (h : p.Owned) (t : Monotype) : (p.resolveTop t).2.Owned := by
  unfold Prefix.resolveTop
  split
  · exact h
  · exact h.congr rfl rfl

end

section

variable {p : Prefix} {m : Type → Type} [Monad m] [LawfulMonad m] {require : Bool → m Unit}
  (hMet : require true = pure ())

include hMet

theorem Owned.addIn_eq (h : p.Owned) (x : String) (b : Bound) :
    p.addIn require x b = pure (p.add x b) := by
  rw [add_def, addIn]
  split_ifs with hLevel
  · rfl
  · rw [h.canPlace x (Nat.one_le_iff_ne_zero.2 hLevel) (Nat.le_refl _), hMet, pure_bind]

theorem Owned.newTypeIn_eq (h : p.Owned) (b : Bound) :
    p.newTypeIn require b = pure (p.newType b) := by
  rw [newType_def, newTypeIn]
  simp only [(h.counted _).addIn_eq hMet, pure_bind]

/-- Moving variables changes levels that exist, at every step of the way: each move keeps entries
and levels in agreement, so the next one finds the level that its entry names. -/
theorem Owned.lowerIn_eq (h : p.Owned) {l : Nat} (hPos : 1 ≤ l) (hLe : l ≤ p.level)
    (todo : List String) : p.lowerIn require l todo = pure (p.lower l todo) := by
  induction p, todo using lower_induct l with
  | nil p => rw [lower_nil, lowerIn]
  | unknown p x rest hNone ih =>
    rw [lower_unknown rest hNone, lowerIn]
    split
    · exact ih h hLe
    · next hSome => simp [hNone] at hSome
  | moved p x rest e he hl ih =>
    rw [lower_moved rest he hl, lowerIn]
    split
    · next hNone => simp [he] at hNone
    · next e' he' =>
      obtain rfl : e = e' := Option.some.inj (he.symm.trans he')
      -- the move itself: both levels exist, so the condition is met
      rw [dif_pos hl, h.canPlace x hPos hLe, hMet, pure_bind]
      exact ih (h.place hPos hLe) (by rwa [level_place])
  | kept p x rest e he hl ih =>
    rw [lower_kept rest he hl, lowerIn]
    split
    · exact ih h hLe
    · next e' he' =>
      obtain rfl : e = e' := Option.some.inj (he.symm.trans he')
      rw [dif_neg hl]
      exact ih h hLe

theorem Owned.updateIn_eq (h : p.Owned) (x : String) (b : Bound) :
    p.updateIn require x b = pure (p.update x b) := by
  rw [update_def, updateIn]
  cases hx : p.find? x with
  | none => rfl
  | some e =>
    have hLower := (h.setBound hx b).lowerIn_eq hMet (h.level_pos hx) (h.level_le hx)
      b.type.freeVars.toList
    simp only [hLower, pure_bind]

theorem Owned.mergeIn_eq (h : p.Owned) (x y : String) (b : Bound) :
    p.mergeIn require x y b = pure (p.merge x y b) := by
  rw [merge_def, mergeIn]
  split_ifs
  · simp only [h.updateIn_eq hMet, (h.update _ b).updateIn_eq hMet, pure_bind]
  · rfl

theorem Owned.instantiateWithIn_eq (h : p.Owned) (s : Subst) (bs : List Binding) :
    p.instantiateWithIn require s bs = pure (p.instantiateWith s bs) := by
  induction bs generalizing p s with
  | nil => rfl
  | cons b bs ih =>
    rw [instantiateWithIn, h.newTypeIn_eq hMet, pure_bind]
    exact ih (h.newType _) _

theorem Owned.instantiateIn_eq (h : p.Owned) (bs : List Binding) (body : Monotype) :
    p.instantiateIn require bs body = pure (p.instantiate bs body) := by
  rw [instantiate_def, instantiateIn, h.instantiateWithIn_eq hMet, pure_bind]

end

/-! ## Sequences of operations -/

/-- An operation on a prefix, by the rules or not. -/
inductive Op where
  | enter
  | leave
  | add (x : String) (b : Bound)
  | newType (b : Bound)
  | update (x : String) (b : Bound)
  | merge (x y : String) (b : Bound)
  | instantiate (bs : List Binding) (body : Monotype)
  | generalize (t : Polytype)
  | resolve (t : Polytype)
  | resolveMono (t : Monotype)
  | resolveTop (t : Monotype)
  | occurs (x : String) (t : Polytype)
  /-- Operations at a level of their own. They may leave it, and more. -/
  | atLevel (ops : List Op)

section

variable {m : Type → Type} [Monad m] (require : Bool → m Unit)

mutual

/-- What an operation makes of a prefix. -/
def Op.runIn (p : Prefix) : Op → m Prefix
  | .enter => return p.enter
  | .leave => return p.leave
  | .add x b => p.addIn require x b
  | .newType b => return (← p.newTypeIn require b).2
  | .update x b => p.updateIn require x b
  | .merge x y b => return (← p.mergeIn require x y b).2
  | .instantiate bs body => return (← p.instantiateIn require bs body).2
  | .generalize t => return (p.generalize t).2
  | .resolve t => return (p.resolve t).2
  | .resolveMono t => return (p.resolveMono t).2
  | .resolveTop t => return (p.resolveTop t).2
  | .occurs _ _ => return p
  | .atLevel ops => return (← p.enter.runAllIn ops).leave

/-- What operations make of a prefix, one after the other. -/
def runAllIn (p : Prefix) : List Op → m Prefix
  | [] => return p
  | op :: ops => do (← op.runIn p).runAllIn ops

end

end

@[inherit_doc Op.runIn]
def Op.run (p : Prefix) (op : Op) : Prefix := op.runIn trust p

@[inherit_doc runAllIn]
def runAll (p : Prefix) (ops : List Op) : Prefix := p.runAllIn trust ops

/-- Gives up where a condition does not hold. -/
def demand (ok : Bool) : Option Unit := if ok then some () else none

/-- What operations make of a prefix, if all levels exist that they change. -/
def runAll? (p : Prefix) (ops : List Op) : Option Prefix := p.runAllIn demand ops

mutual

/-- One operation keeps entries and levels in agreement. -/
theorem Op.owned {p : Prefix} (h : p.Owned) (op : Op) : (op.run p).Owned := by
  cases op with
  | enter => exact h.enter
  | leave => exact h.leave_any
  | add x b => exact h.add x b
  | newType b => exact h.newType b
  | update x b => exact h.update x b
  | merge x y b => exact h.merge x y b
  | instantiate bs body => exact h.instantiateWith ∅ bs
  | generalize t => exact h.failAll _
  | resolve t => exact h.failAll _
  | resolveMono t => exact h.failAll _
  | resolveTop t => exact h.resolveTop t
  | occurs x t => exact h
  | atLevel ops => exact (runAll_owned h.enter ops).leave_any

theorem runAll_owned {p : Prefix} (h : p.Owned) (ops : List Op) : (p.runAll ops).Owned := by
  cases ops with
  | nil => exact h
  | cons op ops => exact runAll_owned (op.owned h) ops

end

section

variable {m : Type → Type} [Monad m] [LawfulMonad m] {require : Bool → m Unit}

mutual

/-- One operation changes only levels that exist. -/
theorem Op.runIn_eq (hMet : require true = pure ()) {p : Prefix} (h : p.Owned) (op : Op) :
    op.runIn require p = pure (op.run p) := by
  cases op with
  | add x b => exact h.addIn_eq hMet x b
  | newType b =>
    rw [Op.runIn, h.newTypeIn_eq hMet, pure_bind]
    rfl
  | update x b => exact h.updateIn_eq hMet x b
  | merge x y b =>
    rw [Op.runIn, h.mergeIn_eq hMet, pure_bind]
    rfl
  | instantiate bs body =>
    rw [Op.runIn, h.instantiateIn_eq hMet, pure_bind]
    rfl
  | atLevel ops =>
    -- operations at a level of their own start with one level more
    rw [Op.runIn, runAllIn_eq hMet h.enter ops, pure_bind]
    rfl
  -- what is left does not look up a level
  | enter => rfl
  | leave => rfl
  | generalize t => rfl
  | resolve t => rfl
  | resolveMono t => rfl
  | resolveTop t => rfl
  | occurs x t => rfl

theorem runAllIn_eq (hMet : require true = pure ()) {p : Prefix} (h : p.Owned) (ops : List Op) :
    p.runAllIn require ops = pure (p.runAll ops) := by
  cases ops with
  | nil => rfl
  | cons op ops =>
    rw [runAllIn, op.runIn_eq hMet h, pure_bind]
    exact runAllIn_eq hMet (op.owned h) ops

end

end

/-- Whatever operations are done from the empty prefix on, with whatever arguments, its levels
divide up its variables, and no operation changes a level that does not exist. -/
theorem runAll_partitioned (ops : List Op) :
    empty.runAll? ops = some (empty.runAll ops) ∧ (empty.runAll ops).Partitioned :=
  ⟨runAllIn_eq rfl wellFormed_empty.owned ops, (runAll_owned wellFormed_empty.owned ops).partitioned⟩

end Prefix

end Mlf
