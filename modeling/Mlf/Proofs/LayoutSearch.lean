import Mlf.Proofs.Layouts
import Mlf.Proofs.QuantifierOrder

/-!
# Generalization in layouts

Generalization lists the variables of the current level that a type reaches, in the order in which a
search comes to them. The search passes through solved variables, lists them as well, and marks them
as seen. A layout has no solved variables, so a search of a layout goes through less; but it comes
to the unsolved variables in the same order. A solved variable that was seen before leads only to
what was seen before, and one that was not seen leads at once to what it stands for.

The quantifiers over solved variables are gone from the normal form, where their monotypes are put
in. So a generalized type is read as what the layout and the reading of the type make of it.

Main results:

* `Searches.eq` — the search of a layout has one outcome;
* `Lays.searches` — the search of a prefix, step by step, is one of its layout;
* `Lays.nameless_generalize` — the reading of a generalized type;
* `generalize_alike` — prefixes with one layout generalize types with one reading alike.
-/

namespace Mlf

open Relation

/-! ## Occurrences in a reading -/

namespace Nameless

variable {V W : Type}

/-- The occurrences of variables, from left to right. -/
def Mono.occurrences : Mono V → List V
  | var v => [v]
  | const _ => []
  | fn p b => p.occurrences ++ b.occurrences

/-- The variable, if the monotype is one. -/
def Mono.var? : Mono V → Option V
  | var v => some v
  | _ => none

/-- The occurrences of variables, from left to right, bounds before bodies. -/
def occurrences : {V : Type} → Nameless V → List V
  | _, mono m => m.occurrences
  | _, bottom => []
  | _, all _ b t => b.occurrences ++ t.occurrences.filterMap id

theorem Mono.mem_occurrences {m : Mono V} {v : V} : v ∈ m.occurrences ↔ m.Uses v := by
  induction m with
  | var w => simp [occurrences, Uses]
  | const c => simp [occurrences, Uses]
  | fn p b ihp ihb => simp [occurrences, Uses, ihp, ihb]

theorem Mono.occurrences_weaken (m : Mono V) : m.weaken.occurrences = m.occurrences.map some := by
  induction m with
  | var v => rfl
  | const c => rfl
  | fn p b ihp ihb =>
    show p.weaken.occurrences ++ b.weaken.occurrences = _
    rw [ihp, ihb, occurrences, List.map_append]

end Nameless

theorem Monotype.occurrences_nameless {V : Type} (m : Monotype) (r : Reading V) :
    (m.nameless r).occurrences = (m.occurrencesOutside []).flatMap fun x => (r x).occurrences := by
  induction m with
  | var x => simp [nameless, occurrencesOutside]
  | const c => rfl
  | fn p b ihp ihb =>
    rw [nameless, Nameless.Mono.occurrences, ihp, ihb, occurrencesOutside, List.flatMap_append]

/-- The variables in a reading come in the order of the names. -/
theorem Polytype.occurrences_nameless {V : Type} (t : Polytype) (r : Reading V) :
    (t.nameless r).occurrences = t.occurrences.flatMap fun x => (r x).occurrences := by
  induction t generalizing V with
  | mono m => exact m.occurrences_nameless r
  | bottom => rfl
  | all x k b t ihb iht =>
    -- the quantified variable is left out on both sides
    have hUnder (names : List String) :
        (names.flatMap fun y => (r.under x y).occurrences).filterMap id =
          (names.filter (· ≠ x)).flatMap fun y => (r y).occurrences := by
      induction names with
      | nil => rfl
      | cons y names ih =>
        rw [List.flatMap_cons, List.filterMap_append, ih]
        by_cases hyx : y = x
        · rw [hyx, Reading.under_self, List.filter_cons_of_neg (by simp)]
          rfl
        · rw [Reading.under_of_ne r hyx, Nameless.Mono.occurrences_weaken,
            List.filter_cons_of_pos (by simpa using hyx), List.flatMap_cons, List.filterMap_map,
            Function.id_comp, List.filterMap_some]
    rw [nameless, Nameless.occurrences, ihb, iht, hUnder, occurrences_all, List.flatMap_append]

namespace Layout

/-! ## The search of a layout -/

/-- A variable of the current level. -/
def Current (S : Layout) (i : ℕ) : Prop := ∃ c, S.cell? i = some c ∧ S.level ≤ c.level

/-- A variable of an older level. -/
def Older (S : Layout) (i : ℕ) : Prop := ∃ c, S.cell? i = some c ∧ c.level < S.level

/-- The search of a layout for the variables of the current level: what it lists, and what it has
seen at its end. A variable is listed after those that its bound leads to. -/
inductive Searches (S : Layout) : List ℕ → Set ℕ → List ℕ → Set ℕ → Prop
  | nil {seen : Set ℕ} : Searches S [] seen [] seen
  | seen {i : ℕ} {is out : List ℕ} {seen seen' : Set ℕ} (hi : i ∈ seen)
    (h : Searches S is seen out seen') : Searches S (i :: is) seen out seen'
  | older {i : ℕ} {is out : List ℕ} {seen seen' : Set ℕ} (hi : S.Older i)
    (h : Searches S is seen out seen') : Searches S (i :: is) seen out seen'
  | visit {i : ℕ} {is out out' : List ℕ} {c : Cell} {seen seen' seen'' : Set ℕ} (hi : i ∉ seen)
    (hc : S.cell? i = some c) (hCurrent : S.level ≤ c.level)
    (hBound : Searches S c.bound.occurrences (insert i seen) out seen')
    (h : Searches S is seen' out' seen'') : Searches S (i :: is) seen (out ++ i :: out') seen''

variable {S : Layout} {is js out out' : List ℕ} {Z Z' Z'' : Set ℕ} {i : ℕ}

theorem Older.not_current (h : S.Older i) {c : Cell} (hc : S.cell? i = some c) :
    ¬ S.level ≤ c.level := by
  obtain ⟨c', hc', hOlder⟩ := h
  obtain rfl := Option.some.inj (hc.symm.trans hc')
  omega

/-- The search has one outcome. -/
theorem Searches.eq (h : S.Searches is Z out Z') (h' : S.Searches is Z out' Z'') :
    out = out' ∧ Z' = Z'' := by
  induction h generalizing out' Z'' with
  | nil =>
    cases h'
    exact ⟨rfl, rfl⟩
  | seen hi _ ih =>
    cases h' with
    | seen _ h' => exact ih h'
    | older _ h' => exact ih h'
    | visit hi' => exact absurd hi hi'
  | older hOlder _ ih =>
    cases h' with
    | seen _ h' => exact ih h'
    | older _ h' => exact ih h'
    | visit _ hc hCurrent => exact absurd hCurrent (hOlder.not_current hc)
  -- the other search visits the variable too, and goes through the same bound
  | visit hi hc hCurrent _ _ ihBound ih =>
    cases h' with
    | seen hi' => exact absurd hi' hi
    | older hOlder => exact absurd hCurrent (hOlder.not_current hc)
    | visit _ hc' _ hBound' h' =>
      obtain rfl := Option.some.inj (hc.symm.trans hc')
      obtain ⟨rfl, rfl⟩ := ihBound hBound'
      obtain ⟨rfl, rfl⟩ := ih h'
      exact ⟨rfl, rfl⟩

theorem Searches.append (h : S.Searches is Z out Z') (h' : S.Searches js Z' out' Z'') :
    S.Searches (is ++ js) Z (out ++ out') Z'' := by
  induction h with
  | nil => exact h'
  | seen hi _ ih => exact .seen hi (ih h')
  | older hi _ ih => exact .older hi (ih h')
  | visit hi hc hCurrent hBound _ _ ih =>
    rw [List.cons_append, List.append_assoc, List.cons_append]
    exact .visit hi hc hCurrent hBound (ih h')

theorem Searches.subset (h : S.Searches is Z out Z') : Z ⊆ Z' := by
  induction h with
  | nil => exact subset_rfl
  | seen _ _ ih => exact ih
  | older _ _ ih => exact ih
  | visit _ _ _ _ _ ihBound ih => exact (Set.subset_insert _ _).trans (ihBound.trans ih)

/-- The search comes to all variables of the current level that it has to look at. -/
theorem Searches.mem (h : S.Searches is Z out Z') (hi : i ∈ is) (hCurrent : S.Current i) :
    i ∈ Z' := by
  obtain ⟨c, hc, hLevel⟩ := hCurrent
  induction h with
  | nil => cases hi
  | seen hSeen h ih =>
    rcases List.mem_cons.1 hi with rfl | hi
    · exact h.subset hSeen
    · exact ih hi
  | older hOlder _ ih =>
    rcases List.mem_cons.1 hi with rfl | hi
    · exact absurd hLevel (hOlder.not_current hc)
    · exact ih hi
  | visit _ _ _ hBound h _ ih =>
    rcases List.mem_cons.1 hi with rfl | hi
    · exact h.subset (hBound.subset (Set.mem_insert i _))
    · exact ih hi

/-- The search goes past what it has seen and what belongs to older levels. -/
theorem searches_skip (h : ∀ i ∈ is, i ∈ Z ∨ S.Older i) : S.Searches is Z [] Z := by
  induction is with
  | nil => exact .nil
  | cons i is ih =>
    have hRest := ih fun j hj => h j (List.mem_cons_of_mem i hj)
    rcases h i List.mem_cons_self with hi | hi
    · exact .seen hi hRest
    · exact .older hi hRest

/-! ## The search of a prefix -/

variable {ρ : Reading ℕ} {p q : Prefix} {x y : String}

/-- The numbers of the unsolved variables among bindings. -/
def numbers (ρ : Reading ℕ) (bs : List Binding) : List ℕ :=
  bs.filterMap fun b => if b.bound.type.mono? = none then (ρ b.name).var? else none

theorem numbers_append (ρ : Reading ℕ) (bs cs : List Binding) :
    numbers ρ (bs ++ cs) = numbers ρ bs ++ numbers ρ cs :=
  List.filterMap_append

theorem numbers_cons (ρ : Reading ℕ) (b : Binding) (bs : List Binding) :
    numbers ρ (b :: bs) = numbers ρ [b] ++ numbers ρ bs :=
  numbers_append ρ [b] bs

theorem numbers_solved {b : Binding} (hb : b.bound.type.mono? ≠ none) : numbers ρ [b] = [] := by
  simp [numbers, hb]

theorem numbers_unsolved {b : Binding} (hb : b.bound.type.mono? = none)
    (hi : ρ b.name = .var i) : numbers ρ [b] = [i] := by
  simp [numbers, hb, hi, Nameless.Mono.var?]

theorem Lays.current_iff (h : S.Lays ρ p) (hx : p.Unsolved x) (hi : ρ x = .var i) :
    S.Current i ↔ p.Current x := by
  obtain ⟨e, he⟩ := hx.1
  have hCell := h.cell_of_var he hx hi
  constructor
  · rintro ⟨c, hc, hLevel⟩
    obtain rfl := Option.some.inj (hCell.symm.trans hc)
    exact ⟨e, he, h.level ▸ hLevel⟩
  · rintro ⟨e', he', hLevel⟩
    obtain rfl := Option.some.inj (he.symm.trans he')
    exact ⟨_, hCell, h.level ▸ hLevel⟩

/-- What a variable is read as is over variables of the current level and of older ones, and of
older ones only if it does not belong to the current level itself. -/
theorem Lays.current_or_older (h : S.Lays ρ p) (hx : p.Binds x) (hi : (ρ x).Uses i) :
    (S.Current i ∧ p.Current x) ∨ S.Older i := by
  obtain ⟨y, hy, hyi, hxy⟩ := h.uses hx hi
  obtain ⟨e, he⟩ := hy.1
  have hCell := h.cell_of_var he hy hyi
  -- what the variable leads to is older, or of the current level and then so is the variable
  rcases Nat.lt_or_ge e.level S.level with hOlder | hLevel
  · exact Or.inr ⟨_, hCell, hOlder⟩
  · have hCurrent : p.Current y := ⟨e, he, h.level ▸ hLevel⟩
    exact Or.inl ⟨(h.current_iff hy hyi).2 hCurrent,
      h.wellFormed.scoping.current hx hxy hCurrent⟩

/-- A search of a prefix has seen the variables that one of the layout has seen. -/
def SeenAlike (ρ : Reading ℕ) (p : Prefix) (seen : List String) (Z : Set ℕ) : Prop :=
  ∀ x i, p.Unsolved x → p.Current x → ρ x = .var i → (x ∈ seen ↔ i ∈ Z)

/-- A search has seen what the given variable is read as. -/
def SeenThrough (S : Layout) (ρ : Reading ℕ) (Z : Set ℕ) (y : String) : Prop :=
  ∀ i, (ρ y).Uses i → S.Current i → i ∈ Z

theorem SeenThrough.mono (h : SeenThrough S ρ Z y) (hZ : Z ⊆ Z') : SeenThrough S ρ Z' y :=
  fun i hi hCurrent => hZ (h i hi hCurrent)

/-- What one visit of a variable of the current level does: the search of the prefix goes through
the bound, and the one of the layout does the same, with the variable itself in addition if it is
not solved. -/
theorem Lays.visit (h : S.Lays ρ p) {e : Entry} (he : p.find? x = some e)
    (hCurrent : p.Current x) {seen : List String} (hx : x ∉ seen) (hAlike : SeenAlike ρ p seen Z) :
    ∃ Z', Z ⊆ Z' ∧ SeenAlike ρ p (x :: seen) Z' ∧
      ∀ out Z'', S.Searches (e.bound.type.nameless ρ).occurrences Z' out Z'' →
        S.Searches (ρ x).occurrences Z (out ++ numbers ρ [⟨x, e.bound⟩]) Z'' := by
  -- for other variables, to have seen this one makes no difference
  have hOthers {y : String} {j : ℕ} (hyx : y ≠ x) (hy : p.Unsolved y) (hyCurrent : p.Current y)
      (hj : ρ y = .var j) : y ∈ x :: seen ↔ j ∈ Z := by
    rw [List.mem_cons, or_iff_right hyx]
    exact hAlike y j hy hyCurrent hj
  cases hMono : e.bound.type.mono? with
  | some m =>
    -- a solved variable is read as what it stands for
    have hType : e.bound.type = .mono m := by
      cases hCase : e.bound.type <;> simp_all [Polytype.mono?]
    refine ⟨Z, subset_rfl, fun y j hy hyCurrent hj => ?_, fun out Z'' hBound => ?_⟩
    · refine hOthers ?_ hy hyCurrent hj
      rintro rfl
      rw [Prefix.unsolved_iff he, hMono] at hy
      cases hy
    · rw [numbers_solved (by simp [hMono]), List.append_nil,
        h.solved x m (Prefix.solution?_eq_some.2 ⟨e, he, hType⟩)]
      rw [hType] at hBound
      exact hBound
  | none =>
    have hUnsolved : p.Unsolved x := (Prefix.unsolved_iff he).2 hMono
    obtain ⟨i, hi, hCell⟩ := h.cell x e he hMono
    obtain ⟨e', he', hLevel⟩ := hCurrent
    obtain rfl := Option.some.inj (he.symm.trans he')
    have hiZ : i ∉ Z := mt (hAlike x i hUnsolved ⟨e, he, hLevel⟩ hi).2 hx
    refine ⟨insert i Z, Set.subset_insert i Z, fun y j hy hyCurrent hj => ?_,
      fun out Z'' hBound => ?_⟩
    · by_cases hyx : y = x
      · subst hyx
        obtain rfl : i = j := by
          rw [hi] at hj
          injection hj
        exact iff_of_true List.mem_cons_self (Set.mem_insert i Z)
      · have hji : j ≠ i := by
          rintro rfl
          exact hyx (h.unique y x j hy hUnsolved hj hi)
        rw [hOthers hyx hy hyCurrent hj, Set.mem_insert_iff, or_iff_right hji]
    · rw [numbers_unsolved hMono hi, hi]
      exact .visit hiZ hCell (h.level ▸ hLevel) hBound .nil

/-- The search of a prefix is one of its layout. It may have seen solved variables already; as long
as those that it can come to again have been seen through, that makes no difference. -/
theorem Lays.searches (h : S.Lays ρ p) {seen : List String} {names : List String}
    (hBinds : ∀ x ∈ names, p.Binds x) (hAlike : SeenAlike ρ p seen Z)
    (hThrough : ∀ x ∈ names, ∀ y, p.Reaches x y → y ∈ seen → p.Current y → SeenThrough S ρ Z y) :
    ∃ bs seen' Z', S.Searches (names.flatMap fun x => (ρ x).occurrences) Z (numbers ρ bs) Z' ∧
      (∀ rest, (p.gather (names.map .visit ++ rest) seen).1 = bs ++ (p.gather rest seen').1) ∧
      SeenAlike ρ p seen' Z' ∧ (∀ y ∈ seen, y ∈ seen') ∧
      ∀ y ∈ seen', y ∉ seen → p.Current y → SeenThrough S ρ Z' y := by
  -- the search sees a variable that it has not seen, or it has fewer names to look at
  induction hn : p.unseen seen using Nat.strongRecOn generalizing seen names Z with
  | ind n ihSeen =>
    induction names with
    | nil =>
      exact ⟨[], seen, Z, .nil, fun _ => rfl, hAlike, fun _ => id, fun y hy hNew => absurd hy hNew⟩
    | cons x names ihNames =>
      obtain ⟨e, he⟩ := hBinds x List.mem_cons_self
      have hBindsRest : ∀ y ∈ names, p.Binds y := fun y hy => hBinds y (List.mem_cons_of_mem x hy)
      by_cases hx : x ∈ seen
      · -- a variable that has been seen leads to nothing new
        obtain ⟨bs, seen', Z', hSearch, hGather, hPost⟩ := ihNames hBindsRest
          fun y hy => hThrough y (List.mem_cons_of_mem x hy)
        have hSkip : S.Searches (ρ x).occurrences Z [] Z := by
          refine searches_skip fun i hi => ?_
          have hUses := Nameless.Mono.mem_occurrences.1 hi
          refine (h.current_or_older ⟨e, he⟩ hUses).imp_left fun ⟨hCurrent, hxCurrent⟩ => ?_
          exact hThrough x List.mem_cons_self x .refl hx hxCurrent i hUses hCurrent
        refine ⟨bs, seen', Z', hSkip.append hSearch, fun rest => ?_, hPost⟩
        rw [List.map_cons, List.cons_append, Prefix.gather_visit_of_mem hx, hGather]
      · have hLess : p.unseen (x :: seen) < n := hn ▸ Prefix.unseen_cons_lt he hx
        by_cases hCurrent : p.Current x
        · obtain ⟨Z₁, hZ₁, hAlike₁, hVisit⟩ := h.visit he hCurrent hx hAlike
          obtain ⟨e', he', hLevel⟩ := id hCurrent
          obtain rfl := Option.some.inj (he.symm.trans he')
          have hMentions {w : String} (hw : w ∈ e.bound.type.occurrences) : p.Mentions x w :=
            ⟨e, he, Polytype.mem_occurrences.1 hw⟩
          -- first the bound
          obtain ⟨bs₁, seen₁, Z₂, hSearch₁, hGather₁, hAlike₂, hMore₁, hNew₁⟩ :=
            ihSeen _ hLess (fun w hw => h.wellFormed.scoping.binds (hMentions hw)) hAlike₁
              (fun w hw y hwy hy hyCurrent => by
                have hyx : y ≠ x := by
                  rintro rfl
                  exact h.wellFormed.acyclic.not_reaches (hMentions hw) hwy
                have hySeen : y ∈ seen := (List.mem_cons.1 hy).resolve_left hyx
                exact (hThrough x List.mem_cons_self y (.head (hMentions hw) hwy) hySeen
                  hyCurrent).mono hZ₁) rfl
          rw [← Polytype.occurrences_nameless] at hSearch₁
          have hSearchX := hVisit _ _ hSearch₁
          have hxThrough : SeenThrough S ρ Z₂ x := fun i hi hiCurrent =>
            hSearchX.mem (Nameless.Mono.mem_occurrences.2 hi) hiCurrent
          have hLess₁ : p.unseen seen₁ < n := by
            refine Nat.lt_of_le_of_lt (List.countP_mono_left fun y _ hy => ?_) hLess
            simp only [decide_eq_true_eq] at hy ⊢
            exact fun hySeen => hy (hMore₁ y hySeen)
          have hThrough₁ {y : String} (hy : y ∈ seen₁) (hyCurrent : p.Current y)
              (hOld : y ∈ seen → SeenThrough S ρ Z y) : SeenThrough S ρ Z₂ y := by
            by_cases hyx : y = x
            · rw [hyx]
              exact hxThrough
            · by_cases hySeen : y ∈ seen
              · exact (hOld hySeen).mono hSearchX.subset
              · exact hNew₁ y hy (by simp [hyx, hySeen]) hyCurrent
          -- then the other names
          obtain ⟨bs₂, seen₂, Z₃, hSearch₂, hGather₂, hAlike₃, hMore₂, hNew₂⟩ :=
            ihSeen _ hLess₁ hBindsRest hAlike₂ (fun w hw y hwy hy hyCurrent =>
              hThrough₁ hy hyCurrent fun hySeen =>
                hThrough w (List.mem_cons_of_mem x hw) y hwy hySeen hyCurrent) rfl
          refine ⟨bs₁ ++ ⟨x, e.bound⟩ :: bs₂, seen₂, Z₃, ?_, fun rest => ?_, hAlike₃,
            fun y hy => hMore₂ y (hMore₁ y (List.mem_cons_of_mem x hy)),
            fun y hy hyNew hyCurrent => ?_⟩
          · rw [numbers_append, numbers_cons, ← List.append_assoc]
            exact hSearchX.append hSearch₂
          · rw [List.map_cons, List.cons_append, Prefix.gather_visit_of_current hx he hLevel,
              hGather₁, Prefix.gather]
            show bs₁ ++ ⟨x, e.bound⟩ :: (p.gather (names.map .visit ++ rest) seen₁).1 = _
            rw [hGather₂, List.append_assoc, List.cons_append]
          · by_cases hy₁ : y ∈ seen₁
            · exact (hThrough₁ hy₁ hyCurrent fun hySeen => absurd hySeen hyNew).mono hSearch₂.subset
            · exact hNew₂ y hy hy₁ hyCurrent
        · -- a variable of an older level leads to others of such levels
          have hOlder : e.level < p.level := Nat.not_le.1 fun hLevel => hCurrent ⟨e, he, hLevel⟩
          have hSame := Prefix.sameSeen_cons hCurrent seen
          obtain ⟨bs, seen', Z', hSearch, hGather, hAlike', hMore, hNew⟩ :=
            ihSeen _ hLess hBindsRest (Z := Z)
              (fun y j hy hyCurrent hj => (hSame y hyCurrent).trans (hAlike y j hy hyCurrent hj))
              (fun w hw y hwy hy hyCurrent => hThrough w (List.mem_cons_of_mem x hw) y hwy
                ((hSame y hyCurrent).1 hy) hyCurrent) rfl
          have hSkip : S.Searches (ρ x).occurrences Z [] Z := searches_skip fun i hi => Or.inr <|
            (h.current_or_older ⟨e, he⟩ (Nameless.Mono.mem_occurrences.1 hi)).resolve_left
              fun hBoth => hCurrent hBoth.2
          refine ⟨bs, seen', Z', hSkip.append hSearch, fun rest => ?_, hAlike',
            fun y hy => hMore y (List.mem_cons_of_mem x hy), fun y hy hyNew hyCurrent => ?_⟩
          · rw [List.map_cons, List.cons_append, Prefix.gather, dif_neg hx]
            split
            · next hNone =>
              rw [hNone] at he
              cases he
            · next e' he' =>
              obtain rfl := Option.some.inj (he.symm.trans he')
              rw [if_pos hOlder, hGather]
          · exact hNew y hy (mt (hSame y hyCurrent).1 hyNew) hyCurrent

/-- The variables that a type is quantified over come in the order of the layout. -/
theorem Lays.searches_generalizable (h : S.Lays ρ p) {m : Monotype} (hm : p.Covers m) :
    ∃ Z, S.Searches (m.nameless ρ).occurrences ∅ (numbers ρ (p.generalizable m).1) Z := by
  have hBinds : ∀ x ∈ (Polytype.mono m).occurrences, p.Binds x := fun x hx =>
    hm x (Polytype.mem_occurrences.1 hx)
  have hAlike : SeenAlike ρ p [] ∅ := fun x i _ _ _ => by simp
  obtain ⟨bs, seen, Z, hSearch, hGather, -⟩ := h.searches hBinds hAlike (by simp)
  -- nothing is left to do after the names of the type
  have hList : (p.generalizable m).1 = bs := by
    have hAll := hGather []
    rw [List.append_nil] at hAll
    rw [Prefix.generalizable, hAll, Prefix.gather, List.append_nil]
  rw [← Polytype.occurrences_nameless] at hSearch
  rw [hList]
  exact ⟨Z, hSearch⟩

end Layout

/-! ## The reading of a generalized type -/

/-- The type with one of its variables as the one that is quantified. -/
def Nameless.abstract (i : ℕ) (t : Nameless ℕ) : Nameless (Option ℕ) :=
  t.bind fun v => if v = i then .var none else .var (some v)

namespace Layout

variable {S : Layout} {ρ : Reading ℕ} {p q : Prefix}

/-- Quantifies a type over variables, the first one outermost. -/
noncomputable def quantifyAll (S : Layout) : List ℕ → Nameless ℕ → Nameless ℕ
  | [], t => t
  | i :: is, t =>
    match S.cell? i with
    | some c => .quantify c.kind c.bound.norm ((S.quantifyAll is t).abstract i)
    | none => S.quantifyAll is t

end Layout

namespace Prefix

/-- Bindings of variables with their bounds, each of which mentions only names in `D` and earlier
variables. -/
def Stacked (p : Prefix) : Set String → List Binding → Prop
  | _, [] => True
  | D, b :: bs => (∃ e, p.find? b.name = some e ∧ e.bound = b.bound) ∧ b.name ∉ D ∧
      (∀ y ∈ b.bound.type.freeVars, y ∈ D) ∧ p.Stacked (insert b.name D) bs

/-- Bindings that come after all that they mention are stacked on what they mention beyond each
other. -/
theorem stacked_of_ordered {p : Prefix} {D : Set String} {bs : List Binding} (hOrdered : Ordered bs)
    (hEntries : ∀ b ∈ bs, ∃ e, p.find? b.name = some e ∧ e.bound = b.bound)
    (hNew : ∀ b ∈ bs, b.name ∉ D)
    (hNames : ∀ b ∈ bs, ∀ y ∈ b.bound.type.freeVars, y ∈ D ∨ ∃ c ∈ bs, c.name = y) :
    p.Stacked D bs := by
  induction bs generalizing D with
  | nil => trivial
  | cons b bs ih =>
    refine ⟨hEntries b List.mem_cons_self, hNew b List.mem_cons_self, fun y hy => ?_,
      ih hOrdered.tail (fun c hc => hEntries c (List.mem_cons_of_mem b hc)) (fun c hc => ?_)
        fun c hc y hy => ?_⟩
    · -- the bound mentions neither its own name nor those that come later
      refine (hNames b List.mem_cons_self y hy).resolve_right ?_
      rintro ⟨c, hc, rfl⟩
      rcases List.mem_cons.1 hc with rfl | hc
      · exact hOrdered.apart c List.mem_cons_self hy
      · exact (hOrdered.head hc).2 hy
    · rintro (hEq | hD)
      · exact (hOrdered.head hc).1 hEq.symm
      · exact hNew c (List.mem_cons_of_mem b hc) hD
    · rcases hNames c (List.mem_cons_of_mem b hc) y hy with hD | ⟨d, hd, hdy⟩
      · exact Or.inl (Or.inr hD)
      · rcases List.mem_cons.1 hd with rfl | hd
        · exact Or.inl (Or.inl hdy.symm)
        · exact Or.inr ⟨d, hd, hdy⟩

/-- The variables of older levels. -/
def Outer (p : Prefix) : Set String := {x | p.Binds x ∧ ¬ p.Current x}

theorem Scoped.closed_outer {p : Prefix} (h : p.Scoped) : p.Closed p.Outer :=
  fun _ hx _ hxy => ⟨h.binds hxy, fun hy => hx.2 (h.current hx.1 (.single hxy) hy)⟩

/-- What a type reaches belongs to an older level, or the type is quantified over it. -/
theorem WellFormed.outer_or_listed {p : Prefix} (hp : p.WellFormed) {t : Polytype}
    (ht : p.Covers t) {x y : String} (hx : x ∈ t.freeVars) (hxy : p.Reaches x y) :
    y ∈ p.Outer ∨ ∃ b ∈ (p.generalizable t).1, b.name = y := by
  by_cases hy : p.Current y
  · obtain ⟨e, he, hLevel⟩ := hy
    exact Or.inr ⟨⟨y, e.bound⟩, (mem_generalizable hp.scoping ht).2
      ⟨⟨e, he, rfl, hLevel⟩, x, hx, hxy⟩, rfl⟩
  · exact Or.inl ⟨hp.reaches_binds (ht x hx) hxy, hy⟩

theorem WellFormed.stacked_generalizable {p : Prefix} (hp : p.WellFormed) {t : Polytype}
    (ht : p.Covers t) : p.Stacked p.Outer (p.generalizable t).1 := by
  have hMem {b : Binding} := (mem_generalizable hp.scoping ht (b := b)).1
  refine stacked_of_ordered (generalizable_ordered hp.acyclic t) (fun b hb => ?_)
    (fun b hb hOuter => ?_) fun b hb y hy => ?_
  · obtain ⟨⟨e, he, hBound, -⟩, -⟩ := hMem hb
    exact ⟨e, he, hBound⟩
  · obtain ⟨⟨e, he, -, hLevel⟩, -⟩ := hMem hb
    exact hOuter.2 ⟨e, he, hLevel⟩
  · -- what a bound mentions is of an older level or is listed itself
    obtain ⟨⟨e, he, hBound, -⟩, x, hx, hReach⟩ := hMem hb
    exact hp.outer_or_listed ht hx (hReach.tail ⟨e, he, hBound ▸ hy⟩)

end Prefix

namespace Layout

variable {S : Layout} {ρ : Reading ℕ} {p q : Prefix}

/-- The normal form of a chain of quantifiers over variables of a prefix. Solved variables are
replaced by what they stand for, and the others are quantified in the layout. -/
theorem Lays.norm_chain (h : S.Lays ρ p) {bs : List Binding} {D : Set String}
    (hStacked : p.Stacked D bs) (hClosed : p.Closed D) (hBinds : ∀ z ∈ D, p.Binds z) {m : Monotype}
    (hBody : ∀ z ∈ m.freeVars, z ∈ D ∨ ∃ b ∈ bs, b.name = z) {W : Type} {r : Reading W}
    {g : ℕ → Nameless.Mono W} (hr : ∀ z ∈ D, r z = (ρ z).bind g) :
    ((Polytype.chain bs (.mono m)).nameless r).norm =
      (S.quantifyAll (numbers ρ bs) (.mono (m.nameless ρ))).bind g := by
  induction bs generalizing D W with
  | nil =>
    show Nameless.mono (m.nameless r) = .mono ((m.nameless ρ).bind g)
    rw [Monotype.nameless_bind]
    refine congrArg Nameless.mono (Monotype.nameless_congr fun z hz => hr z ?_)
    simpa using hBody z hz
  | cons b bs ih =>
    obtain ⟨⟨e, he, hBound⟩, hNew, hNames, hRest⟩ := hStacked
    have hClosed' : p.Closed (insert b.name D) := by
      rintro z (rfl | hz) w hzw
      · rw [Prefix.mentions_iff he, hBound] at hzw
        exact Or.inr (hNames w hzw)
      · exact Or.inr (hClosed z hz w hzw)
    have hBinds' : ∀ z ∈ insert b.name D, p.Binds z := by
      rintro z (rfl | hz)
      · exact ⟨e, he⟩
      · exact hBinds z hz
    have hBody' : ∀ z ∈ m.freeVars, z ∈ insert b.name D ∨ ∃ c ∈ bs, c.name = z := by
      intro z hz
      rcases hBody z hz with hD | ⟨c, hc, rfl⟩
      · exact Or.inl (Or.inr hD)
      · rcases List.mem_cons.1 hc with rfl | hc
        · exact Or.inl (Or.inl rfl)
        · exact Or.inr ⟨c, hc, rfl⟩
    have hneD {z : String} (hz : z ∈ D) : z ≠ b.name := by
      rintro rfl
      exact hNew hz
    -- a bound is over earlier variables, whose readings are known
    have hBoundRead : b.bound.type.nameless r = (b.bound.type.nameless ρ).bind g := by
      rw [Polytype.nameless_bind]
      exact Polytype.nameless_congr fun z hz => hr z (hNames z hz)
    rw [numbers_cons, Polytype.chain_cons, Polytype.nameless, Nameless.norm, hBoundRead]
    cases hMono : b.bound.type.mono? with
    | some n =>
      have hType : b.bound.type = .mono n := by
        cases hCase : b.bound.type <;> simp_all [Polytype.mono?]
      have hValue : ρ b.name = n.nameless ρ :=
        h.solved b.name n (Prefix.solution?_eq_some.2 ⟨e, he, by rw [hBound, hType]⟩)
      -- the monotype is filled in, as if the variable were read as what it stands for
      rw [numbers_solved (by simp [hMono]), List.nil_append, hType]
      show (Nameless.norm _).fill ((n.nameless ρ).bind g) = _
      rw [Nameless.fill, ← Nameless.norm_bind]
      show (Nameless.fill ((n.nameless ρ).bind g) _).norm = _
      rw [Polytype.fill_nameless, ← hValue]
      refine ih hRest hClosed' hBinds' hBody' ?_
      rintro z (rfl | hz)
      · rw [Function.update_self]
      · rw [Function.update_of_ne (hneD hz), hr z hz]
    -- an open variable is quantified in the layout, too
    | none =>
      have hOpen : e.bound.type.mono? = none := by rw [hBound, hMono]
      have hUnsolved : p.Unsolved b.name := (Prefix.unsolved_iff he).2 hOpen
      obtain ⟨i, hi, hCell⟩ := h.cell b.name e he hOpen
      rw [hBound] at hCell
      rw [numbers_unsolved hMono hi, List.singleton_append, quantifyAll, hCell,
        Nameless.bind_quantify, Nameless.norm_bind, Nameless.abstract, Nameless.bind_bind]
      congr 1
      refine ih hRest hClosed' hBinds' hBody' ?_
      rintro z (rfl | hz)
      · rw [Reading.under_self, hi, Nameless.Mono.bind, if_pos rfl]
        rfl
      · rw [Reading.under_of_ne r (hneD hz), hr z hz, Nameless.Mono.weaken,
          Nameless.Mono.bind_bind]
        refine Nameless.Mono.bind_congr fun v hv => ?_
        -- earlier variables do not lead to this one
        have hvi : v ≠ i := by
          rintro rfl
          obtain ⟨y, hy, hyv, hzy⟩ := h.uses (hBinds z hz) hv
          obtain rfl := h.unique y b.name v hy hUnsolved hyv hi
          exact hNew (hClosed.reaches hz hzy)
        rw [if_neg hvi]
        rfl

/-- The reading of a generalized type, from the layout and the reading of the type. -/
theorem Lays.nameless_generalize (h : S.Lays ρ p) {m : Monotype} (hm : p.Covers m) :
    (p.generalize m).1.nameless ρ =
      S.quantifyAll (numbers ρ (p.generalizable m).1) (.mono (m.nameless ρ)) := by
  have hNormal (bs : List Binding) : (Polytype.quantifyAll bs (.mono m)).nameless ρ =
      ((Polytype.chain bs (.mono m)).nameless ρ).norm := by
    cases bs with
    | nil => rfl
    | cons b bs => rw [Polytype.quantifyAll_cons, Polytype.nameless_normal]
  rw [Prefix.generalize_eq h.wellFormed.scoping hm, hNormal,
    h.norm_chain (h.wellFormed.stacked_generalizable hm) h.wellFormed.scoping.closed_outer
      (fun z hz => hz.1) (fun z hz => h.wellFormed.outer_or_listed hm hz .refl)
      (fun z _ => (Nameless.Mono.bind_var (ρ z)).symm), Nameless.bind_var]

/-- Prefixes with one layout generalize types with one reading alike. -/
theorem generalize_alike {ρ' : Reading ℕ} (h : S.Lays ρ p) (h' : S.Lays ρ' q) {m n : Monotype}
    (hm : p.Covers m) (hn : q.Covers n) (hmn : m.nameless ρ = n.nameless ρ') :
    (p.generalize m).1.nameless ρ = (q.generalize n).1.nameless ρ' := by
  obtain ⟨Z, hSearch⟩ := h.searches_generalizable hm
  obtain ⟨Z', hSearch'⟩ := h'.searches_generalizable hn
  rw [hmn] at hSearch
  rw [h.nameless_generalize hm, h'.nameless_generalize hn, hmn, (hSearch.eq hSearch').1]

end Layout

end Mlf
