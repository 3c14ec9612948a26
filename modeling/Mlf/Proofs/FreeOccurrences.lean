import Mathlib
import Mlf.Name.Map
import Mlf.Polytype.Free

/-!
# Free occurrences, position by position

An occurrence of a name in a type has a position: the way down to it, from the whole type to the
variable. At each function and at each quantifier the way goes to the first part or to the second one,
so positions are ordered from left to right. An occurrence is free if no quantifier on the way binds its
name. The bound of a quantifier is its first part, which it does not bind.

The list of free occurrences goes through these positions from left to right and leaves none out. The
same list comes from a walk that takes no scope along but counts, for each name, the quantifiers around
the place that it is at. The counts are kept in one map, which is made when the first quantifier is met
and changed in place. So the parts of a type see the counts that their neighbours left behind, and the
walk is right because every part leaves them as it found them.

Main results:

* `Polytype.exists_positions` — the listed occurrences are the free ones, in order;
* `Polytype.walk_eq` — what a walk with counts visits, and what it leaves behind;
* `Polytype.occurrences_left_to_right` — both views, and the set of free names.
-/

namespace Mlf

/-! ## Positions -/

/-- One of the two parts of a function or of a quantifier: the parameter or the bound comes first, the
result or the body second. -/
inductive Side where
  | first
  | second
deriving DecidableEq

/-- The way down from a type to a part of it. -/
abbrev Position := List Side

/-- Two ways part, and the one position lies to the left of the other. -/
inductive Position.LeftOf : Position → Position → Prop
  | part (π ρ : Position) : LeftOf (.first :: π) (.second :: ρ)
  | along (s : Side) {π ρ : Position} (h : LeftOf π ρ) : LeftOf (s :: π) (s :: ρ)

/-- A name stands at a position of a monotype. -/
inductive Monotype.OccursAt : Monotype → Position → String → Prop
  | var (x : String) : OccursAt (.var x) [] x
  | param {p b : Monotype} {π : Position} {x : String} (h : OccursAt p π x) :
    OccursAt (.fn p b) (.first :: π) x
  | result {p b : Monotype} {π : Position} {x : String} (h : OccursAt b π x) :
    OccursAt (.fn p b) (.second :: π) x

/-- A name stands at a position of a type, and no quantifier above binds it. -/
inductive Polytype.FreeAt : Polytype → Position → String → Prop
  | mono {m : Monotype} {π : Position} {x : String} (h : m.OccursAt π x) : FreeAt (.mono m) π x
  | bound {y : String} {k : BoundKind} {b t : Polytype} {π : Position} {x : String}
    (h : FreeAt b π x) : FreeAt (.all y k b t) (.first :: π) x
  | body {y : String} {k : BoundKind} {b t : Polytype} {π : Position} {x : String}
    (h : FreeAt t π x) (hx : x ≠ y) : FreeAt (.all y k b t) (.second :: π) x

/-- Positions with the names that stand there, from left to right. -/
def LeftToRight (places : List (Position × String)) : Prop :=
  places.Pairwise fun a b => a.1.LeftOf b.1

/-- The places of a part, seen from the whole. -/
def placesIn (s : Side) (places : List (Position × String)) : List (Position × String) :=
  places.map fun a => (s :: a.1, a.2)

theorem map_snd_placesIn (s : Side) (places : List (Position × String)) :
    (placesIn s places).map Prod.snd = places.map Prod.snd := by
  simp [placesIn]

theorem mem_placesIn {s : Side} {places : List (Position × String)} {π : Position} {x : String} :
    (π, x) ∈ placesIn s places ↔ ∃ ρ, π = s :: ρ ∧ (ρ, x) ∈ places := by
  simp only [placesIn, List.mem_map, Prod.mk.injEq, Prod.exists]
  constructor
  · rintro ⟨ρ, y, h, rfl, rfl⟩
    exact ⟨ρ, rfl, h⟩
  · rintro ⟨ρ, rfl, h⟩
    exact ⟨ρ, x, h, rfl, rfl⟩

/-- All places of the first part lie to the left of those of the second one. -/
theorem LeftToRight.both {first second : List (Position × String)} (h : LeftToRight first)
    (h' : LeftToRight second) : LeftToRight (placesIn .first first ++ placesIn .second second) := by
  have within (s : Side) {places : List (Position × String)} (h : LeftToRight places) :
      LeftToRight (placesIn s places) :=
    List.pairwise_map.2 (h.imp fun hab => .along s hab)
  refine List.pairwise_append.2 ⟨within _ h, within _ h', fun a ha b hb => ?_⟩
  obtain ⟨π, hπ, -⟩ := mem_placesIn.1 ha
  obtain ⟨ρ, hρ, -⟩ := mem_placesIn.1 hb
  rw [hπ, hρ]
  exact .part π ρ

/-- The names of a monotype outside a scope are listed with their positions, from left to right, and
none is left out. -/
theorem Monotype.exists_positions (scope : List String) (m : Monotype) :
    ∃ places, places.map Prod.snd = m.occurrencesOutside scope ∧ LeftToRight places ∧
      ∀ π x, (π, x) ∈ places ↔ x ∉ scope ∧ m.OccursAt π x := by
  induction m with
  | var y =>
    by_cases hy : y ∈ scope
    · refine ⟨[], by simp [occurrencesOutside, hy], .nil, fun π x => ?_⟩
      refine ⟨fun h => absurd h List.not_mem_nil, ?_⟩
      rintro ⟨hx, ⟨_⟩⟩
      exact absurd hy hx
    · refine ⟨[([], y)], by simp [occurrencesOutside, hy], List.pairwise_singleton _ _, fun π x => ?_⟩
      rw [List.mem_singleton, Prod.mk.injEq]
      constructor
      · rintro ⟨rfl, rfl⟩
        exact ⟨hy, .var x⟩
      · rintro ⟨-, ⟨_⟩⟩
        exact ⟨rfl, rfl⟩
  | const c =>
    refine ⟨[], rfl, .nil, fun π x => ⟨fun h => absurd h List.not_mem_nil, ?_⟩⟩
    rintro ⟨-, ⟨_⟩⟩
  | fn p b ihp ihb =>
    obtain ⟨ps, hps, hpsOrder, hpsMem⟩ := ihp
    obtain ⟨bs, hbs, hbsOrder, hbsMem⟩ := ihb
    -- the places in the parameter come before those in the result
    refine ⟨placesIn .first ps ++ placesIn .second bs, ?_, hpsOrder.both hbsOrder, fun π x => ?_⟩
    · rw [List.map_append, map_snd_placesIn, map_snd_placesIn, hps, hbs, occurrencesOutside]
    · simp only [List.mem_append, mem_placesIn, hpsMem, hbsMem]
      constructor
      · rintro (⟨ρ, rfl, hx, h⟩ | ⟨ρ, rfl, hx, h⟩)
        · exact ⟨hx, .param h⟩
        · exact ⟨hx, .result h⟩
      · rintro ⟨hx, h⟩
        cases h with
        | @param _ _ ρ _ h => exact Or.inl ⟨ρ, rfl, hx, h⟩
        | @result _ _ ρ _ h => exact Or.inr ⟨ρ, rfl, hx, h⟩

namespace Polytype

/-- The occurrences that are listed are the free ones outside the scope, from left to right. -/
theorem exists_positions (scope : List String) (t : Polytype) :
    ∃ places, places.map Prod.snd = t.occurrencesOutside scope ∧ LeftToRight places ∧
      ∀ π x, (π, x) ∈ places ↔ x ∉ scope ∧ t.FreeAt π x := by
  induction t generalizing scope with
  | mono m =>
    obtain ⟨places, hNames, hOrder, hMem⟩ := m.exists_positions scope
    refine ⟨places, hNames, hOrder, fun π x => (hMem π x).trans (and_congr_right fun _ => ?_)⟩
    refine ⟨.mono, fun h => ?_⟩
    cases h with
    | mono h => exact h
  | bottom =>
    refine ⟨[], rfl, .nil, fun π x => ⟨fun h => absurd h List.not_mem_nil, ?_⟩⟩
    rintro ⟨-, ⟨_⟩⟩
  | all y k b t ihb iht =>
    -- the bound is outside the scope of `y`, the body inside
    obtain ⟨bs, hbs, hbsOrder, hbsMem⟩ := ihb scope
    obtain ⟨ts, hts, htsOrder, htsMem⟩ := iht (y :: scope)
    refine ⟨placesIn .first bs ++ placesIn .second ts, ?_, hbsOrder.both htsOrder, fun π x => ?_⟩
    · rw [List.map_append, map_snd_placesIn, map_snd_placesIn, hbs, hts, occurrencesOutside]
    · simp only [List.mem_append, mem_placesIn, hbsMem, htsMem, List.mem_cons, not_or]
      constructor
      · rintro (⟨ρ, rfl, hx, h⟩ | ⟨ρ, rfl, ⟨hxy, hx⟩, h⟩)
        · exact ⟨hx, .bound h⟩
        · exact ⟨hx, .body h hxy⟩
      · rintro ⟨hx, h⟩
        cases h with
        | @bound _ _ _ _ ρ _ h => exact Or.inl ⟨ρ, rfl, hx, h⟩
        | @body _ _ _ _ ρ _ h hxy => exact Or.inr ⟨ρ, rfl, ⟨hxy, hx⟩, h⟩

end Polytype

/-! ## A walk that counts quantifiers -/

/-- How many quantifiers over each name there are around a place, if any quantifier was met. -/
abbrev Counts := Option (NameMap Nat)

namespace Counts

/-- The number of quantifiers over a name. -/
def count (counts : Counts) (x : String) : Nat := (counts.bind (·.find? x)).getD 0

/-- Changes the number of quantifiers over a name. -/
def change (f : Nat → Nat) (x : String) (counts : NameMap Nat) : NameMap Nat :=
  counts.insert x (f ((counts.find? x).getD 0))

theorem count_change (f : Nat → Nat) (x y : String) (counts : NameMap Nat) :
    count (some (change f x counts)) y = if y = x then f (count (some counts) x) else
      count (some counts) y := by
  simp only [count, change, Option.bind_some, NameMap.find?_insert]
  split_ifs <;> rfl

end Counts

/-- The names of a monotype that a walk with counts visits. -/
def Monotype.visited (counts : Counts) : Monotype → List String
  | var x => if counts.count x = 0 then [x] else []
  | const _ => []
  | fn p b => p.visited counts ++ b.visited counts

theorem Monotype.visited_eq {counts : Counts} {scope : List String}
    (h : ∀ x, x ∈ scope ↔ counts.count x ≠ 0) (m : Monotype) :
    m.visited counts = m.occurrencesOutside scope := by
  induction m with
  | var x =>
    simp only [visited, occurrencesOutside, h x]
    split_ifs <;> first | rfl | contradiction
  | const c => rfl
  | fn p b ihp ihb => rw [visited, occurrencesOutside, ihp, ihb]

namespace Polytype

/-- The names that a walk with counts visits, and what has become of the counts that it was given. A
walk without counts makes a map of its own when it meets a quantifier, and drops it at the end. -/
def walk (counts : Counts) : Polytype → List String × Counts
  | mono m => (m.visited counts, counts)
  | bottom => ([], counts)
  | all x _ b t =>
    let (inBound, counts) := b.walk counts
    let (inBody, inner) := t.walk (some (Counts.change (· + 1) x (counts.getD ∅)))
    (inBound ++ inBody, counts.bind fun _ => inner.map (Counts.change (· - 1) x))

/-- A walk visits the occurrences of names that are not counted, and leaves all counts as they were.
-/
theorem walk_eq {counts : Counts} {scope : List String} (h : ∀ x, x ∈ scope ↔ counts.count x ≠ 0)
    (t : Polytype) : (t.walk counts).1 = t.occurrencesOutside scope ∧
      (t.walk counts).2.isSome = counts.isSome ∧
      ∀ x, (t.walk counts).2.count x = counts.count x := by
  induction t generalizing counts scope with
  | mono m => exact ⟨m.visited_eq h, rfl, fun _ => rfl⟩
  | bottom => exact ⟨rfl, rfl, fun _ => rfl⟩
  | all x k b t ihb iht =>
    obtain ⟨hBound, hSome, hCounts⟩ := ihb h
    generalize hWalk : b.walk counts = out at hBound hSome hCounts
    obtain ⟨inBound, counts'⟩ := out
    -- the map in use inside counts what was handed in
    have hUsed (y : String) : Counts.count (some (counts'.getD ∅)) y = counts.count y := by
      rw [← hCounts y]
      cases counts' <;> rfl
    -- in the body, what is counted is the scope with the quantified name
    have hScope (y : String) : y ∈ x :: scope ↔
        Counts.count (some (Counts.change (· + 1) x (counts'.getD ∅))) y ≠ 0 := by
      rw [Counts.count_change, List.mem_cons, h y, hUsed y]
      split_ifs with hyx <;> simp [hyx]
    obtain ⟨hBody, hSome', hCounts'⟩ := iht hScope
    generalize hInner : t.walk (some (Counts.change (· + 1) x (counts'.getD ∅))) = out
      at hBody hSome' hCounts'
    obtain ⟨inBody, inner⟩ := out
    obtain ⟨inner, rfl⟩ := Option.isSome_iff_exists.1 hSome'
    simp only [walk, hWalk, hInner, occurrencesOutside]
    refine ⟨congrArg₂ _ hBound hBody, ?_, fun y => ?_⟩
    · rw [← hSome]
      cases counts' <;> rfl
    · cases counts' with
      | none => exact hCounts y
      | some map =>
        -- one quantifier more on the way in, one less on the way out
        have hRestored : Counts.count (some (Counts.change (· - 1) x inner)) y = counts.count y := by
          rw [Counts.count_change, hCounts', hCounts', Counts.count_change, Counts.count_change, hUsed,
            hUsed, if_pos rfl, Nat.add_sub_cancel]
          by_cases hyx : y = x
          · rw [if_pos hyx, hyx]
          · rw [if_neg hyx, if_neg hyx]
        exact hRestored

/-- The names that a walk over a type visits. A type without free names is not walked over. -/
def visited (t : Polytype) : List String := if t.freeVars.size = 0 then [] else (t.walk none).1

theorem visited_eq_occurrences (t : Polytype) : t.visited = t.occurrences := by
  unfold visited
  split_ifs with hSize
  · -- nothing occurs where the set of free names is empty
    refine (List.eq_nil_iff_forall_not_mem.2 fun x hx => ?_).symm
    have hMem : x ∈ t.freeVars.toList := mem_occurrences.1 hx
    rw [List.length_eq_zero_iff.1 hSize] at hMem
    exact List.not_mem_nil hMem
  · have hNothing (x : String) : x ∈ [] ↔ Counts.count none x ≠ 0 := by simp [Counts.count]
    exact (walk_eq hNothing t).1

/-- A walk visits the free occurrences of names in a type: there is one position for each name that
it visits, these positions go from left to right, and they are all positions where a name is free.
The names that it visits are the members of the set of free names. -/
theorem occurrences_left_to_right (t : Polytype) :
    t.visited = t.occurrences ∧
    (∃ places : List (Position × String), places.map Prod.snd = t.occurrences ∧
      places.Pairwise (fun a b => a.1.LeftOf b.1) ∧ ∀ π x, (π, x) ∈ places ↔ t.FreeAt π x) ∧
    ∀ x, x ∈ t.occurrences ↔ x ∈ t.freeVars := by
  refine ⟨t.visited_eq_occurrences, ?_, fun x => mem_occurrences⟩
  obtain ⟨places, hNames, hOrder, hMem⟩ := t.exists_positions []
  exact ⟨places, hNames, hOrder, fun π x => by simp [hMem]⟩

end Polytype

end Mlf
