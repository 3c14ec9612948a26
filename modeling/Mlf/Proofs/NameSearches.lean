import Mathlib
import Mlf.Proofs.Histories

/-!
# Where searches for unused names end

A search takes candidates one after the other and stops at the first one that is not taken. Nothing in
it bounds the number of rounds. It ends because no candidate comes twice, so that each round uses up one
of the finitely many taken names.

A round is a step from a candidate at hand, and the position to go on from, to the next candidate. The
position is moved on in the same step in which the candidate is read, so a search leaves it right behind
the name that it stops at. Searches that take the position over from one another therefore find
different names, whatever is taken at the time of each of them.

Main results:

* `wellFounded_round` — no search goes on forever, from whatever state;
* `reaches_iff` — a search stops at the first candidate that is not taken, right behind it;
* `nodup_draws` — successive searches find different names;
* `searches_end_at_first_free` — the searches that the library makes.
-/

namespace Mlf

open Relation

namespace Supply

variable {candidate : Supply} {taken : List String} {start i : Nat}

/-- A round of a search with the candidate `s.1` at hand, which is to go on from position `s.2`: a taken
name is given up for the candidate at that position. -/
def Round (candidate : Supply) (taken : List String) (s s' : String × Nat) : Prop :=
  s.1 ∈ taken ∧ s' = (candidate s.2, s.2 + 1)

theorem IsFirstFree.next {taken : List String} (h : IsFirstFree candidate taken start i)
    (hStart : candidate start ∈ taken) : IsFirstFree candidate taken (start + 1) i := by
  have hLe := h.start_le
  have hNe : start ≠ i := by
    rintro rfl
    exact h.not_taken hStart
  exact ⟨by omega, h.not_taken, fun j hj => h.passed j (by omega)⟩

/-- There are no rounds after a name that is not taken. -/
theorem Round.taken_of_reflTransGen {s s' : String × Nat} (hs : s.1 ∉ taken)
    (h : ReflTransGen (Round candidate taken) s s') : s' = s := by
  rcases h.cases_head with rfl | ⟨_, hRound, -⟩
  · rfl
  · exact absurd hRound.1 hs

/-- A search that has the candidate at `start` at hand stops at the first one that is not taken,
with the position right behind it, and nowhere else. -/
theorem reaches_iff (h : IsFirstFree candidate taken start i) (s : String × Nat) :
    (ReflTransGen (Round candidate taken) (candidate start, start + 1) s ∧ s.1 ∉ taken) ↔
      s = (candidate i, i + 1) := by
  -- along the candidates that are given up
  induction hGap : i - start generalizing start with
  | zero =>
    obtain rfl : i = start := by
      have := h.start_le
      omega
    constructor
    · rintro ⟨hReach, -⟩
      exact Round.taken_of_reflTransGen h.not_taken hReach
    · rintro rfl
      exact ⟨.refl, h.not_taken⟩
  | succ gap ih =>
    have hStart : candidate start ∈ taken := h.passed start (Nat.le_refl _) (by omega)
    have hRest := ih (h.next hStart) (by omega)
    rw [← hRest]
    refine and_congr_left fun hs => ⟨fun hReach => ?_, fun hReach => .head ⟨hStart, rfl⟩ hReach⟩
    rcases hReach.cases_head with rfl | ⟨_, ⟨-, rfl⟩, hReach⟩
    · exact absurd hStart hs
    · exact hReach

/-- No search goes on forever, whatever it has at hand. -/
theorem wellFounded_round (hInj : Function.Injective candidate) (taken : List String) :
    WellFounded fun s' s => Round candidate taken s s' := by
  have hCandidate (start : Nat) : Acc (fun s' s => Round candidate taken s s')
      (candidate start, start + 1) := by
    obtain ⟨i, hFirst, -⟩ := exists_isFirstFree hInj taken start
    induction hGap : i - start generalizing start with
    | zero =>
      obtain rfl : i = start := by
        have := hFirst.start_le
        omega
      exact ⟨_, fun s' hRound => absurd hRound.1 hFirst.not_taken⟩
    | succ gap ih =>
      have hStart : candidate start ∈ taken := hFirst.passed start (Nat.le_refl _) (by omega)
      refine ⟨_, ?_⟩
      rintro _ ⟨-, rfl⟩
      exact ih (start + 1) (hFirst.next hStart) (by omega)
  -- whatever is at hand, the next round goes to a candidate
  refine ⟨fun s => ⟨s, ?_⟩⟩
  rintro _ ⟨-, rfl⟩
  exact hCandidate s.2

/-- The names that successive searches find, each of which goes on where the one before it ended, with
the names that are taken at the time of each of them; and the position at the end. -/
def draws (candidate : Supply) (start : Nat) : List (List String) → List String × Nat
  | [] => ([], start)
  | taken :: rest =>
    let (x, next) := candidate.firstFree taken start
    let (xs, last) := candidate.draws next rest
    (x :: xs, last)

/-- Each name was found between the first position and the last one. -/
theorem mem_draws (hInj : Function.Injective candidate) (takens : List (List String)) (start : Nat) :
    start ≤ (candidate.draws start takens).2 ∧ ∀ x ∈ (candidate.draws start takens).1,
      ∃ i, start ≤ i ∧ i < (candidate.draws start takens).2 ∧ x = candidate i := by
  induction takens generalizing start with
  | nil => exact ⟨Nat.le_refl _, fun x hx => absurd hx List.not_mem_nil⟩
  | cons taken rest ih =>
    obtain ⟨i, hFirst, -, hEq⟩ := exists_isFirstFree hInj taken start
    obtain ⟨hLe, hRest⟩ := ih (i + 1)
    have hStart := hFirst.start_le
    simp only [draws, hEq]
    refine ⟨by omega, fun x hx => ?_⟩
    rcases List.mem_cons.1 hx with rfl | hx
    · exact ⟨i, hStart, by omega, rfl⟩
    · obtain ⟨j, hj, hLast, rfl⟩ := hRest x hx
      exact ⟨j, by omega, hLast, rfl⟩

theorem nodup_draws (hInj : Function.Injective candidate) (takens : List (List String)) (start : Nat) :
    (candidate.draws start takens).1.Nodup := by
  induction takens generalizing start with
  | nil => exact List.nodup_nil
  | cons taken rest ih =>
    obtain ⟨i, -, -, hEq⟩ := exists_isFirstFree hInj taken start
    simp only [draws, hEq]
    refine List.nodup_cons.2 ⟨fun hMem => ?_, ih (i + 1)⟩
    -- the later names come from positions behind the first one
    obtain ⟨j, hj, -, hSame⟩ := (mem_draws hInj rest (i + 1)).2 _ hMem
    have := hInj hSame
    omega

end Supply

/-! ## The searches that the library makes -/

/-- The searches for an unused name. -/
inductive Search where
  /-- For a quantifier over `base` that has to be renamed. -/
  | derived (base : String)
  /-- For a quantified variable of a printed type. -/
  | capitals
  /-- For a variable of a message. -/
  | smalls
  /-- For a variable that inference makes up. -/
  | numbered

/-- The candidates of a search. -/
def Search.supply : Search → Supply
  | derived base => .derived base
  | capitals => .capitals
  | smalls => .smalls
  | numbered => .numbered

theorem Search.injective (search : Search) : Function.Injective search.supply := by
  cases search with
  | derived base => exact Supply.derived_injective base
  | capitals => exact Supply.capitals_injective
  | smalls => exact Supply.smalls_injective
  | numbered => exact Supply.numbered_injective

theorem exists_freshName (base : String) (taken : List String) :
    ∃ i, Supply.IsFirstFree (.derived base) taken 0 i ∧
      freshName base taken = Supply.derived base i := by
  obtain ⟨i, hFirst, -, hEq⟩ :=
    Supply.exists_isFirstFree (Supply.derived_injective base) taken 0
  exact ⟨i, hFirst, by rw [freshName, hEq]⟩

theorem Prefix.exists_newType (p : Prefix) (b : Bound) :
    ∃ i, Supply.IsFirstFree .numbered p.entries.keys p.counter i ∧
      (p.newType b).1 = Supply.numbered i ∧ (p.newType b).2.counter = i + 1 := by
  obtain ⟨i, hFirst, -, hEq⟩ :=
    Supply.exists_isFirstFree Supply.numbered_injective p.entries.keys p.counter
  refine ⟨i, hFirst, ?_, ?_⟩
  · show (Supply.numbered.firstFree p.entries.keys p.counter).1 = _
    rw [hEq]
  · show (add _ _ b).counter = i + 1
    rw [counter_add, hEq]

/-- No search for an unused name goes on forever, and each has no candidate twice. A search from any
position stops at the first candidate that is not taken, after at most as many candidates as there
are taken names, and leaves the position right behind it. So names that are found by successive
searches differ. In particular, a derived name is the first one that is free, and a variable that is
made up gets the first number after the counter that is not in use, which becomes the counter. -/
theorem searches_end_at_first_free :
    (∀ search : Search, Function.Injective search.supply ∧
      (∀ taken, WellFounded fun s' s => search.supply.Round taken s s') ∧
      (∀ taken start, ∃ i, search.supply.IsFirstFree taken start i ∧ i ≤ start + taken.length ∧
        search.supply.firstFree taken start = (search.supply i, i + 1) ∧
        ∀ s, (ReflTransGen (search.supply.Round taken) (search.supply start, start + 1) s ∧
          s.1 ∉ taken) ↔ s = (search.supply i, i + 1)) ∧
      ∀ start takens, (search.supply.draws start takens).1.Nodup) ∧
    (∀ base taken, ∃ i, Supply.IsFirstFree (.derived base) taken 0 i ∧
      freshName base taken = Supply.derived base i) ∧
    ∀ (p : Prefix) (b : Bound), ∃ i, Supply.IsFirstFree .numbered p.entries.keys p.counter i ∧
      (p.newType b).1 = Supply.numbered i ∧ (p.newType b).2.counter = i + 1 := by
  refine ⟨fun search => ?_, exists_freshName, Prefix.exists_newType⟩
  have hInj := search.injective
  refine ⟨hInj, Supply.wellFounded_round hInj, fun taken start => ?_,
    fun start takens => Supply.nodup_draws hInj takens start⟩
  obtain ⟨i, hFirst, hBound, hEq⟩ := Supply.exists_isFirstFree hInj taken start
  exact ⟨i, hFirst, hBound, hEq, Supply.reaches_iff hFirst⟩

end Mlf
