import Mathlib
import Mlf.Proofs.Messages
import Mlf.Proofs.Substitution

/-!
# One letter for each variable of a message

A message shows its types under one change of names. The names that inference made up become letters,
all other names stay. Letters are handed out once each, whatever their number, and none of them is a
free name of the types, so no two names come to be the same. The names of quantified variables may be
letters, too: where one of them would capture the letter of a free variable, substitution renames the
quantifier.

Main results:

* `Lettering.insert`, `lettering_showGenerated` — what handing out a letter keeps, and handing out all
  of them;
* `display_renames` — what is shown of types is a copy of them under one change of names, which keeps
  the free names of all types apart.
-/

namespace Mlf

/-- The letters before position `next` are used up. Generated names are shown by letters that are used
up and not taken, each by one of its own. -/
structure Lettering (taken : List String) (next : Nat) (shown : NameMap String) : Prop where
  generated : ∀ x letter, shown.find? x = some letter → Supply.isGenerated x = true
  letter : ∀ x letter, shown.find? x = some letter →
    letter ∉ taken ∧ ∃ i < next, letter = Supply.smalls i
  apart : ∀ x y letter, shown.find? x = some letter → shown.find? y = some letter → x = y

variable {taken : List String} {next : Nat} {shown : NameMap String}

theorem lettering_empty (taken : List String) : Lettering taken 0 ∅ where
  generated x letter h := by cases h
  letter x letter h := by cases h
  apart x y letter h := by cases h

/-- A letter that comes later than those used up shows no other name. -/
theorem Lettering.insert (h : Lettering taken next shown) {x : String}
    (hx : Supply.isGenerated x = true) {i : Nat} (hi : next ≤ i) (hFree : Supply.smalls i ∉ taken) :
    Lettering taken (i + 1) (shown.insert x (Supply.smalls i)) := by
  -- the letter is new: those in use have smaller positions
  have hNew {y : String} : shown.find? y ≠ some (Supply.smalls i) := by
    intro hy
    obtain ⟨-, j, hj, hLetter⟩ := h.letter y _ hy
    have := Supply.smalls_injective hLetter
    omega
  refine ⟨fun y letter hy => ?_, fun y letter hy => ?_, fun y z letter hy hz => ?_⟩
  · rw [NameMap.find?_insert] at hy
    split_ifs at hy with hyx
    · exact hyx ▸ hx
    · exact h.generated y letter hy
  · rw [NameMap.find?_insert] at hy
    split_ifs at hy with hyx
    · obtain rfl := Option.some.inj hy
      exact ⟨hFree, i, by omega, rfl⟩
    · obtain ⟨hTaken, j, hj, hLetter⟩ := h.letter y letter hy
      exact ⟨hTaken, j, by omega, hLetter⟩
  · -- two names with one letter: they are the same, or one of them would show the new letter
    -- already
    rw [NameMap.find?_insert] at hy hz
    split_ifs at hy hz with hyx hzx hzx
    · rw [hyx, hzx]
    · obtain rfl := Option.some.inj hy
      exact absurd hz hNew
    · obtain rfl := Option.some.inj hz
      exact absurd hy hNew
    · exact h.apart y z letter hy hz

/-- The generated names of a list, one after the other. -/
theorem lettering_showGenerated (h : Lettering taken next shown) (names : List String) :
    ∃ next', Lettering taken next' (showGenerated taken shown next names) := by
  induction names generalizing shown next with
  | nil => exact ⟨next, h⟩
  | cons x names ih =>
    obtain ⟨i, hi, hLetter, hFree⟩ := Supply.firstFree_eq Supply.smalls_injective taken next
    unfold showGenerated
    split_ifs with hNew
    · rw [hLetter]
      simp only [Bool.and_eq_true] at hNew
      exact ih (h.insert hNew.1 hi hFree)
    · exact ih h

/-- The names that are free in the types of a message. -/
def FreeInSome (ts : List Polytype) (x : String) : Prop := ∃ t ∈ ts, x ∈ t.freeVars

/-- How a name is shown in a message about the given types. -/
def displayName (ts : List Polytype) (x : String) : String := ((displayNames ts).find? x).getD x

section Display

variable {ts : List Polytype} {x : String}

theorem lettering_displayNames (ts : List Polytype) : ∃ taken next,
    (∀ x, x ∈ taken ↔ FreeInSome ts x) ∧ Lettering taken next (displayNames ts) := by
  unfold displayNames
  obtain ⟨next, h⟩ := lettering_showGenerated
    (lettering_empty (ts.foldl (fun names t => names.union t.freeVars) (∅ : NameSet)).toList)
    (ts.flatMap Polytype.occurrences)
  refine ⟨_, next, fun x => ?_, h⟩
  rw [NameSet.mem_toList, mem_foldl_union]
  simp [FreeInSome]

/-- A name that inference did not make up is shown as it is. -/
theorem displayName_of_written (ts : List Polytype) (hx : Supply.isGenerated x = false) :
    displayName ts x = x := by
  obtain ⟨taken, next, -, h⟩ := lettering_displayNames ts
  unfold displayName
  cases hFind : (displayNames ts).find? x with
  | none => rfl
  | some letter =>
    rw [h.generated x letter hFind] at hx
    cases hx

/-- A name that inference made up is shown by a letter, if it is free in one of the types. -/
theorem find?_displayNames (hx : Supply.isGenerated x = true) (hFree : FreeInSome ts x) :
    (displayNames ts).find? x = some (displayName ts x) := by
  -- a name that is free occurs, so it comes up when letters are handed out
  have hOccurs : x ∈ ts.flatMap Polytype.occurrences := by
    obtain ⟨t, ht, hFree⟩ := hFree
    exact List.mem_flatMap.2 ⟨t, ht, Polytype.mem_occurrences.2 hFree⟩
  have hShown : (displayNames ts).contains x = true :=
    contains_showGenerated _ _ _ _ (Or.inr ⟨hx, hOccurs⟩)
  obtain ⟨letter, hLetter⟩ := Option.isSome_iff_exists.1 hShown
  rw [displayName, hLetter]
  rfl

/-- No shown name looks like one that inference made up. -/
theorem isGenerated_displayName (hFree : FreeInSome ts x) :
    Supply.isGenerated (displayName ts x) = false := by
  cases hx : Supply.isGenerated x with
  | false => rw [displayName_of_written ts hx, hx]
  | true =>
    obtain ⟨taken, next, -, h⟩ := lettering_displayNames ts
    obtain ⟨-, i, -, hLetter⟩ := h.letter x _ (find?_displayNames hx hFree)
    rw [hLetter]
    exact Supply.isGenerated_smalls i

/-- Names that are free in the types are shown differently. -/
theorem displayName_injOn (ts : List Polytype) : Set.InjOn (displayName ts) {x | FreeInSome ts x} := by
  obtain ⟨taken, next, hTaken, h⟩ := lettering_displayNames ts
  -- a letter is none of the names that are shown as they are
  have hLetter {x y : String} (hx : FreeInSome ts x) (hy : FreeInSome ts y)
      (hGenerated : Supply.isGenerated x = true) (hWritten : Supply.isGenerated y = false) :
      displayName ts x ≠ displayName ts y := by
    intro hEq
    rw [displayName_of_written ts hWritten] at hEq
    exact (h.letter x _ (find?_displayNames hGenerated hx)).1 (hEq ▸ (hTaken y).2 hy)
  intro x hx y hy hEq
  cases hGenX : Supply.isGenerated x with
  | false =>
    cases hGenY : Supply.isGenerated y with
    | false => rwa [displayName_of_written ts hGenX, displayName_of_written ts hGenY] at hEq
    | true => exact absurd hEq.symm (hLetter hy hx hGenY hGenX)
  | true =>
    cases hGenY : Supply.isGenerated y with
    | false => exact absurd hEq (hLetter hx hy hGenX hGenY)
    | true =>
      -- two letters are the same for one name only
      have hFindX := find?_displayNames hGenX hx
      have hFindY := find?_displayNames hGenY hy
      exact h.apart x y _ hFindX (hEq ▸ hFindY)

/-- What is shown of a type is the type with its free names changed, up to the names of quantified
variables. -/
theorem copies_display (ts : List Polytype) (t : Polytype) :
    t.Copies (displayName ts) (t.display (displayNames ts)) := by
  unfold Polytype.Copies Polytype.display
  rw [Polytype.shape, Polytype.nameless_subst]
  refine Polytype.nameless_congr fun x _ => ?_
  rw [Subst.nameless, image_map_var]
  rfl

/-- The types of a message are shown under one change of names, which keeps all free names of the
types apart and leaves names alone that inference did not make up. What is shown of a type is the
type with its free names so changed, up to the names of quantified variables, and none of its free
names looks like one that inference made up. -/
theorem display_renames (ts : List Polytype) : ∃ f : String → String,
    Set.InjOn f {x | FreeInSome ts x} ∧ (∀ x, Supply.isGenerated x = false → f x = x) ∧
    ∀ t ∈ ts, t.Copies f (t.display (displayNames ts)) ∧
      ∀ y ∈ (t.display (displayNames ts)).freeVars, Supply.isGenerated y = false := by
  refine ⟨displayName ts, displayName_injOn ts, fun x => displayName_of_written ts,
    fun t ht => ⟨copies_display ts t, fun y hy => ?_⟩⟩
  -- the free names of the outcome are shown names
  rw [← Polytype.uses_shape, ← copies_display ts t, Polytype.uses_nameless] at hy
  obtain ⟨x, hx, rfl⟩ := hy
  exact isGenerated_displayName ⟨t, ht, hx⟩

/-- In a message about `$1 → a` and `∀ b. $1 → b` the letter `a` is taken. The variable `$1` is
shown as `b` in both types, and the quantifier over `b` gives way to it. -/
theorem display_renames_capture : ∃ t u t' u' : Polytype, ∃ f : String → String,
    t = .mono (.fn (.var "$1") (.var "a")) ∧
    u = .all "b" .flexible .bottom (.mono (.fn (.var "$1") (.var "b"))) ∧
    t.display (displayNames [t, u]) = t' ∧ u.display (displayNames [t, u]) = u' ∧
    t' = .mono (.fn (.var "b") (.var "a")) ∧
    u' = .all "b'1" .flexible .bottom (.mono (.fn (.var "b") (.var "b'1"))) ∧
    f "a" = "a" ∧ f "$1" = "b" ∧ t.Copies f t' ∧ u.Copies f u' ∧
    Supply.isGenerated "b" = false := by
  obtain ⟨t, u, t', u', ht, hu, ht', hu', htEq, huEq⟩ : ∃ t u t' u' : Polytype,
      t = .mono (.fn (.var "$1") (.var "a")) ∧
      u = .all "b" .flexible .bottom (.mono (.fn (.var "$1") (.var "b"))) ∧
      t.display (displayNames [t, u]) = t' ∧ u.display (displayNames [t, u]) = u' ∧
      t' = .mono (.fn (.var "b") (.var "a")) ∧
      u' = .all "b'1" .flexible .bottom (.mono (.fn (.var "b") (.var "b'1"))) :=
    ⟨_, _, _, _, rfl, rfl, rfl, rfl, by cbv, by cbv⟩
  obtain ⟨f, -, hWritten, hShown⟩ := display_renames [t, u]
  obtain ⟨hCopyT, hFreeT⟩ := hShown t (by simp)
  obtain ⟨hCopyU, -⟩ := hShown u (by simp)
  rw [ht'] at hCopyT hFreeT
  rw [hu'] at hCopyU
  -- the copy of the first type tells how its variable is shown
  have hLetter : f "$1" = "b" := by
    have h := hCopyT
    rw [ht, htEq] at h
    simpa [Polytype.Copies, Polytype.shape, Polytype.nameless, Monotype.nameless,
      hWritten "a" (by decide)] using h
  refine ⟨t, u, t', u', f, ht, hu, ht', hu', htEq, huEq, hWritten "a" (by decide), hLetter, hCopyT,
    hCopyU, hFreeT "b" ?_⟩
  rw [htEq]
  decide

end Display

end Mlf
