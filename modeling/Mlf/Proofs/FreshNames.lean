import Mathlib.Logic.Function.Basic
import Mlf.Name.Supply

/-!
# Searches for unused names

A search strikes each candidate that turns out to be taken from the list of taken names. Nothing is
lost by that when no candidate comes twice, so the name that the search ends with is not taken.

Main results:

* `lettered_injective` — no lettered name comes twice, beyond the first round of letters too;
* `exists_isFirstFree` — a search ends at the first candidate from its start on that is not taken, and
  the next one goes on right after it;
* `freshName_not_mem` — a derived name is not taken;
* `firstFree_congr` — a search depends on nothing but which candidates are taken.
-/

namespace Mlf

/-- Two numbers with the same digits are the same number. -/
theorem toString_nat_injective : Function.Injective (fun n : Nat => toString n) := by
  intro m n h
  have hDigits : Nat.toDigits 10 m = Nat.toDigits 10 n := by
    have hList := congrArg String.toList h
    simpa [Nat.toString_eq_ofList_toDigits] using hList
  rw [← Nat.ofDigitChars_ten_toDigits (n := m), hDigits, Nat.ofDigitChars_ten_toDigits]

namespace Supply

theorem derived_injective (base : String) : Function.Injective (derived base) := by
  intro i j h
  have hNumber : toString (i + 1) = toString (j + 1) := by
    simpa [derived, String.append_assoc, String.append_right_inj] using h
  have := toString_nat_injective hNumber
  omega

theorem numbered_injective : Function.Injective numbered := by
  intro i j h
  have hNumber : toString (i + 1) = toString (j + 1) := by
    simpa [numbered, String.append_right_inj] using h
  have := toString_nat_injective hNumber
  omega

/-- A lettered name is a letter, followed by the digits of its round after the first one. -/
theorem toList_lettered (first : Char) (i : Nat) :
    (lettered first i).toList = Char.ofNat (first.toNat + i % 26) ::
      (if i < 26 then [] else Nat.toDigits 10 (i / 26)) := by
  unfold lettered
  by_cases hi : i < 26 <;> simp [hi]

/-- Where the letters of a round are 26 different ones, no lettered name comes twice. -/
theorem lettered_injective {first : Char} (hLetters : ∀ k < 26, ∀ l < 26,
    Char.ofNat (first.toNat + k) = Char.ofNat (first.toNat + l) → k = l) :
    Function.Injective (lettered first) := by
  intro i j h
  have hList := congrArg String.toList h
  rw [toList_lettered, toList_lettered, List.cons.injEq] at hList
  have hLetter : i % 26 = j % 26 :=
    hLetters _ (Nat.mod_lt i (by omega)) _ (Nat.mod_lt j (by omega)) hList.1
  have hRound := hList.2
  -- digits follow the letter in all rounds but the first
  by_cases hi : i < 26 <;> by_cases hj : j < 26
  · omega
  · simp [hi, hj, Nat.toDigits_ne_nil] at hRound
  · simp [hi, hj, Nat.toDigits_ne_nil] at hRound
  · rw [if_neg hi, if_neg hj] at hRound
    have hSame : i / 26 = j / 26 := by
      apply toString_nat_injective
      simp only [Nat.toString_eq_ofList_toDigits, hRound]
    omega

theorem capitals_injective : Function.Injective capitals := lettered_injective (by decide)

theorem smalls_injective : Function.Injective smalls := lettered_injective (by decide)

/-- Position `i` is the first one from `start` on whose candidate is not taken. -/
structure IsFirstFree (candidate : Supply) (taken : List String) (start i : Nat) : Prop where
  start_le : start ≤ i
  not_taken : candidate i ∉ taken
  passed : ∀ j, start ≤ j → j < i → candidate j ∈ taken

/-- A search ends at the first candidate from its start on that is not taken, and the next search
goes on right after it. It passes over one taken name with each candidate that it gives up. -/
theorem exists_isFirstFree {candidate : Supply} (hInj : Function.Injective candidate)
    (taken : List String) (start : Nat) :
    ∃ i, IsFirstFree candidate taken start i ∧ i ≤ start + taken.length ∧
      candidate.firstFree taken start = (candidate i, i + 1) := by
  fun_induction firstFree candidate taken start with
  | case1 taken start hTaken ih =>
    obtain ⟨i, hFirst, hBound, hEq⟩ := ih
    have hStart := hFirst.start_le
    have hLength := List.length_erase_of_mem hTaken
    have hPos := List.length_pos_of_mem hTaken
    -- the candidate that was struck is not the one found, since it comes earlier
    have hNe : candidate i ≠ candidate start := fun h => by
      have := hInj h
      omega
    refine ⟨i, ⟨by omega, fun hMem => ?_, fun j hj hji => ?_⟩, by omega, hEq⟩
    · exact hFirst.not_taken ((List.mem_erase_of_ne hNe).2 hMem)
    · rcases Nat.eq_or_lt_of_le hj with rfl | hj
      · exact hTaken
      · exact List.mem_of_mem_erase (hFirst.passed j hj hji)
  | case2 taken start hFree =>
    exact ⟨start, ⟨Nat.le_refl _, hFree, fun j hj hji => by omega⟩, by omega, rfl⟩

theorem firstFree_eq {candidate : Supply} (hInj : Function.Injective candidate)
    (taken : List String) (start : Nat) :
    ∃ i, start ≤ i ∧ candidate.firstFree taken start = (candidate i, i + 1) ∧
      candidate i ∉ taken := by
  obtain ⟨i, hFirst, -, hEq⟩ := exists_isFirstFree hInj taken start
  exact ⟨i, hFirst.start_le, hEq, hFirst.not_taken⟩

theorem firstFree_spec {candidate : Supply} (hInj : Function.Injective candidate)
    (taken : List String) (start : Nat) :
    ∃ i, start ≤ i ∧ (candidate.firstFree taken start).1 = candidate i ∧ candidate i ∉ taken := by
  obtain ⟨i, hi, hEq, hFree⟩ := firstFree_eq hInj taken start
  exact ⟨i, hi, by rw [hEq], hFree⟩

theorem firstFree_not_mem {candidate : Supply} (hInj : Function.Injective candidate)
    (taken : List String) (start : Nat) : (candidate.firstFree taken start).1 ∉ taken := by
  obtain ⟨i, -, hEq, hFree⟩ := firstFree_spec hInj taken start
  rw [hEq]
  exact hFree

/-- Two searches go the same way if their candidates are taken at the same positions. -/
theorem firstFree_congr {candidate candidate' : Supply}
    (hSame : ∀ i j, candidate i = candidate j ↔ candidate' i = candidate' j)
    {taken taken' : List String} (hNodup : taken.Nodup) (hNodup' : taken'.Nodup)
    (hTaken : ∀ i, candidate i ∈ taken ↔ candidate' i ∈ taken') (start : Nat) :
    ∃ i, candidate.firstFree taken start = (candidate i, i + 1) ∧
      candidate'.firstFree taken' start = (candidate' i, i + 1) := by
  fun_induction firstFree candidate taken start generalizing taken' with
  | case1 taken start hStart ih =>
    have hStep : candidate'.firstFree taken' start =
        candidate'.firstFree (taken'.erase (candidate' start)) (start + 1) := by
      rw [firstFree, dif_pos ((hTaken start).1 hStart)]
    rw [hStep]
    -- striking one candidate from both lists keeps their positions in step
    refine ih (hNodup.erase _) (hNodup'.erase _) fun i => ?_
    rw [hNodup.mem_erase_iff, hNodup'.mem_erase_iff, hTaken i, Ne, Ne, hSame i start]
  | case2 taken start hStart =>
    rw [firstFree, dif_neg (mt (hTaken start).2 hStart)]
    exact ⟨start, rfl, rfl⟩

/-- A search depends on the taken candidates only. -/
theorem firstFree_congr_mem (candidate : Supply) {taken taken' : List String}
    (hNodup : taken.Nodup) (hNodup' : taken'.Nodup)
    (hTaken : ∀ i, candidate i ∈ taken ↔ candidate i ∈ taken') (start : Nat) :
    ∃ i, candidate.firstFree taken start = (candidate i, i + 1) ∧
      candidate.firstFree taken' start = (candidate i, i + 1) :=
  firstFree_congr (fun _ _ => Iff.rfl) hNodup hNodup' hTaken start

/-- A search in the candidates from a position on. -/
theorem firstFree_shift (candidate : Supply) (c : Nat) (taken : List String) (start : Nat) :
    candidate.firstFree taken (start + c) =
      ((Supply.firstFree (fun i => candidate (i + c)) taken start).1,
        (Supply.firstFree (fun i => candidate (i + c)) taken start).2 + c) := by
  fun_induction firstFree (fun i => candidate (i + c)) taken start with
  | case1 taken start hStart ih =>
    rw [firstFree, dif_pos hStart, ← ih, Nat.add_right_comm]
  | case2 taken start hStart =>
    rw [firstFree, dif_neg hStart, Nat.add_right_comm]

end Supply

theorem freshName_not_mem (base : String) (taken : List String) : freshName base taken ∉ taken :=
  Supply.firstFree_not_mem (Supply.derived_injective base) taken 0

end Mlf
