import Mathlib
import Mlf.Proofs.WellFormed

/-!
# Moving variables to an older level, in any order

When a variable gets a new bound, the variables that the bound reaches move to its level, if they
belong to a younger one. A move goes on with what the bound of the moved variable mentions, and it
stops at a variable that is old enough, although younger variables might be reached through it. That
is right because there are none: bounds mention no younger variables, except for those that are still
to be moved.

The names that a bound mentions form a set, and nothing says in which order they are taken up. A step
takes up one name and leaves the order of the names that come after it open. Every sequence of steps
ends, since each move leaves one variable less at a younger level, also where bounds lead in a circle.
What holds after every step fixes the level of every variable at the end, so all orders end alike.

Main results:

* `lowers_wellFounded`, `exists_lowers` — a move ends, and only when nothing is left to do;
* `Lowering.next` — what a step keeps, with `lowering_of_run` for all of a run;
* `Lowering.find?_eq` — where variables are at the end of a run;
* `update_moves_reached` — what a new bound does.
-/

namespace Mlf

open Relation

namespace Prefix

/-- No bound mentions a variable of a younger level. Bounds may lead in a circle, and may mention names
that are not in play. -/
def Layered (p : Prefix) : Prop :=
  ∀ x e, p.find? x = some e → ∀ y ∈ e.bound.type.freeVars, ∀ e', p.find? y = some e' →
    e'.level ≤ e.level

/-- Prefixes that differ at most in the order in which their maps and sets list names. -/
structure SameUpToOrder (p q : Prefix) : Prop where
  counter : q.counter = p.counter
  failures : q.failures = p.failures
  trace : q.trace = p.trace
  level : q.level = p.level
  find? : ∀ x, q.find? x = p.find? x
  owns : ∀ l x, q.Owns l x ↔ p.Owns l x

/-! ## Steps -/

/-- A step of a move to level `l`: variables, and names that are still to do. The first name stays if it
does not belong to a younger level. Otherwise it moves, and what its bound mentions is next, in any
order. -/
inductive Lowers (l : Nat) : Prefix × List String → Prefix × List String → Prop
  | stay {p : Prefix} {x : String} {rest : List String}
    (h : ∀ e, p.find? x = some e → e.level ≤ l) : Lowers l (p, x :: rest) (p, rest)
  | move {p : Prefix} {x : String} {e : Entry} {names rest : List String}
    (hx : p.find? x = some e) (hl : l < e.level) (hNames : names.Perm e.bound.type.freeVars.toList) :
    Lowers l (p, x :: rest) (p.place x ⟨l, e.bound⟩, names ++ rest)

/-- Moves end, whatever the bounds lead to: a variable that moves is young no more, and otherwise
there is less to do. -/
theorem lowers_wellFounded (l : Nat) : WellFounded fun c d => Lowers l d c := by
  let measure (c : Prefix × List String) : Nat × Nat := (c.1.younger l, c.2.length)
  have hLess : ∀ {c d}, Lowers l d c → Prod.Lex (· < ·) (· < ·) (measure c) (measure d) := by
    intro c d h
    cases h with
    | stay h => exact .right _ (by simp)
    | move hx hl hNames => exact .left _ _ (younger_place_lt hx hl)
  have hLex := (Prod.lex ⟨_, Nat.lt_wfRel.wf⟩ ⟨_, Nat.lt_wfRel.wf⟩).wf
  exact Subrelation.wf hLess (InvImage.wf measure hLex)

/-- As long as there are names to do, there is a step to take. -/
theorem exists_lowers (l : Nat) (p : Prefix) (x : String) (rest : List String) :
    ∃ c, Lowers l (p, x :: rest) c := by
  by_cases hOld : ∀ e, p.find? x = some e → e.level ≤ l
  · exact ⟨_, .stay hOld⟩
  · push Not at hOld
    obtain ⟨e, hx, hl⟩ := hOld
    exact ⟨_, .move hx hl (.refl _)⟩

/-- Moving variables is one of the runs. -/
theorem run_lower (p : Prefix) (l : Nat) (todo : List String) :
    ReflTransGen (Lowers l) (p, todo) (p.lower l todo, []) := by
  induction p, todo using lower_induct l with
  | nil p =>
    rw [lower_nil]
  | unknown p x rest hNone ih =>
    rw [lower_unknown rest hNone]
    exact .head (.stay (by simp [hNone])) ih
  | moved p x rest e hx hl ih =>
    rw [lower_moved rest hx hl]
    exact .head (.move hx hl (.refl _)) ih
  | kept p x rest e hx hl ih =>
    rw [lower_kept rest hx hl]
    refine .head (.stay fun e' he' => ?_) ih
    obtain rfl : e = e' := Option.some.inj (hx.symm.trans he')
    omega

/-! ## What a run keeps -/

section Runs

variable {p q : Prefix} {l : Nat} {names : List String} {c d : Prefix × List String}

/-- Where a move of the variables `names` of a prefix `p` to level `l` stands. A variable keeps its
bound. It has the level it had, or it was younger, is reached and has moved. A bound mentions no younger
variable, except that a variable at level `l` or younger may mention names still to do. -/
structure Lowering (l : Nat) (p : Prefix) (names : List String) (c : Prefix × List String) : Prop where
  same : c.1.counter = p.counter ∧ c.1.failures = p.failures ∧ c.1.trace = p.trace ∧
    c.1.level = p.level
  owned : c.1.Owned
  binds : ∀ y, c.1.Binds y ↔ p.Binds y
  entry : ∀ y e, p.find? y = some e → ∃ k, c.1.find? y = some ⟨k, e.bound⟩ ∧
    (k = e.level ∨ k = l ∧ l < e.level ∧ ∃ z ∈ names, p.Reaches z y)
  todo : ∀ y ∈ c.2, ∃ z ∈ names, p.Reaches z y
  start : ∀ y ∈ names, y ∈ c.2 ∨ ∀ e, c.1.find? y = some e → e.level ≤ l
  layered : ∀ x e, c.1.find? x = some e → ∀ y ∈ e.bound.type.freeVars, ∀ e', c.1.find? y = some e' →
    e'.level ≤ e.level ∨ (l ≤ e.level ∧ y ∈ c.2)

/-- An entry on the way has the bound that the variable had at the start. -/
theorem Lowering.bound_eq (h : Lowering l p names c) {y : String} {e : Entry}
    (he : c.1.find? y = some e) : ∃ e₀, p.find? y = some e₀ ∧ e.bound = e₀.bound := by
  obtain ⟨e₀, he₀⟩ := (h.binds y).1 ⟨e, he⟩
  obtain ⟨k, hk, -⟩ := h.entry y e₀ he₀
  obtain rfl := Option.some.inj (he.symm.trans hk)
  exact ⟨e₀, he₀, rfl⟩

theorem place_same (p : Prefix) (x : String) (e : Entry) :
    (p.place x e).counter = p.counter ∧ (p.place x e).failures = p.failures ∧
      (p.place x e).trace = p.trace ∧ (p.place x e).level = p.level := by
  refine ⟨counter_place p x e, failures_place p x e, ?_, level_place p x e⟩
  unfold place disown
  split <;> rfl

/-- A name that stays needs no attention any more. -/
theorem Lowering.stay {x : String} {rest : List String} (h : Lowering l p names (q, x :: rest))
    (hx : ∀ e, q.find? x = some e → e.level ≤ l) : Lowering l p names (q, rest) := by
  refine { h with todo := fun y hy => h.todo y (by simp [hy]), start := ?_, layered := ?_ }
  · intro y hy
    rcases h.start y hy with hTodo | hOld
    · rcases List.mem_cons.1 hTodo with rfl | hRest
      · exact Or.inr hx
      · exact Or.inl hRest
    · exact Or.inr hOld
  · intro w e he y hy e' he'
    rcases h.layered w e he y hy e' he' with hLe | ⟨hLe, hTodo⟩
    · exact Or.inl hLe
    · rcases List.mem_cons.1 hTodo with rfl | hRest
      · exact Or.inl ((hx e' he').trans hLe)
      · exact Or.inr ⟨hLe, hRest⟩

/-- A name that moves hands on to the names that its bound mentions. -/
theorem Lowering.move {x : String} {e : Entry} {next rest : List String}
    (h : Lowering l p names (q, x :: rest)) (hPos : 1 ≤ l) (hLe : l ≤ p.level)
    (hx : q.find? x = some e) (hl : l < e.level)
    (hNext : ∀ y, y ∈ next ↔ y ∈ e.bound.type.freeVars) :
    Lowering l p names (q.place x ⟨l, e.bound⟩, next ++ rest) := by
  have hSame := place_same q x ⟨l, e.bound⟩
  have hReached := h.todo x (by simp)
  obtain ⟨e₀, he₀, hBound⟩ := h.bound_eq hx
  have hMoved : (q.place x ⟨l, e.bound⟩).find? x = some ⟨l, e.bound⟩ := by simp
  -- only the one variable moves
  have hKept {y : String} (hyx : y ≠ x) : (q.place x ⟨l, e.bound⟩).find? y = q.find? y := by simp [hyx]
  refine ⟨?_, ?_, fun y => ?_, fun y ey hy => ?_, fun y hy => ?_, fun y hy => ?_, ?_⟩
  · obtain ⟨hCounter, hFailures, hTrace, hLevel⟩ := h.same
    exact ⟨hSame.1.trans hCounter, hSame.2.1.trans hFailures, hSame.2.2.1.trans hTrace,
      hSame.2.2.2.trans hLevel⟩
  · exact h.owned.place hPos (hLe.trans_eq h.same.2.2.2.symm)
  · rw [← h.binds y]
    by_cases hyx : y = x
    · subst hyx
      exact ⟨fun _ => ⟨e, hx⟩, fun _ => ⟨_, hMoved⟩⟩
    · simp [Binds, hKept hyx]
  · by_cases hyx : y = x
    · subst hyx
      obtain rfl : e₀ = ey := Option.some.inj (he₀.symm.trans hy)
      -- it has not moved before, since it would be old enough then
      obtain ⟨k, hk, hLevel⟩ := h.entry y e₀ hy
      obtain rfl := Option.some.inj (hx.symm.trans hk)
      refine ⟨l, hMoved, Or.inr ⟨rfl, ?_, hReached⟩⟩
      rcases hLevel with rfl | ⟨rfl, hlt, -⟩
      · exact hl
      · exact hlt
    · obtain ⟨k, hk, hLevel⟩ := h.entry y ey hy
      exact ⟨k, (hKept hyx).trans hk, hLevel⟩
  · rcases List.mem_append.1 hy with hy | hy
    · obtain ⟨z, hz, hzx⟩ := hReached
      refine ⟨z, hz, hzx.tail ⟨e₀, he₀, ?_⟩⟩
      rw [← hBound]
      exact (hNext y).1 hy
    · exact h.todo y (by simp [hy])
  · by_cases hyx : y = x
    · subst hyx
      refine Or.inr fun e' he' => ?_
      obtain rfl := Option.some.inj (hMoved.symm.trans he')
      exact Nat.le_refl l
    · rcases h.start y hy with hTodo | hOld
      · exact Or.inl (List.mem_append_right _ ((List.mem_cons.1 hTodo).resolve_left hyx))
      · refine Or.inr fun e' he' => hOld e' ?_
        rwa [← hKept hyx]
  · intro w ew hw y hy ey hey
    -- the level of what is mentioned has not risen
    have hOld : ∃ e', q.find? y = some e' ∧ ey.level ≤ e'.level ∧ (y = x → ey.level = l) := by
      by_cases hyx : y = x
      · subst hyx
        obtain rfl := Option.some.inj (hMoved.symm.trans hey)
        exact ⟨e, hx, hl.le, fun _ => rfl⟩
      · exact ⟨ey, (hKept hyx).symm.trans hey, Nat.le_refl _, fun hEq => absurd hEq hyx⟩
    obtain ⟨e', he', hLower, hHere⟩ := hOld
    by_cases hwx : w = x
    · -- what the moved variable mentions is to be done now
      subst hwx
      obtain rfl := Option.some.inj (hMoved.symm.trans hw)
      exact Or.inr ⟨Nat.le_refl l, List.mem_append_left _ ((hNext y).2 hy)⟩
    · rw [hKept hwx] at hw
      rcases h.layered w ew hw y hy e' he' with hLevel | ⟨hLevel, hTodo⟩
      · exact Or.inl (hLower.trans hLevel)
      · rcases List.mem_cons.1 hTodo with hyx | hRest
        · exact Or.inl ((hHere hyx).trans_le hLevel)
        · exact Or.inr ⟨hLevel, List.mem_append_right _ hRest⟩

/-- What a step keeps. -/
theorem Lowering.next (h : Lowering l p names c) (hPos : 1 ≤ l) (hLe : l ≤ p.level)
    (hStep : Lowers l c d) : Lowering l p names d := by
  cases hStep with
  | stay hx => exact h.stay hx
  | move hx hl hNames => exact h.move hPos hLe hx hl fun y => hNames.mem_iff

/-- What a run keeps. -/
theorem lowering_of_run (h : Lowering l p names c) (hPos : 1 ≤ l) (hLe : l ≤ p.level)
    (hRun : ReflTransGen (Lowers l) c d) : Lowering l p names d := by
  induction hRun with
  | refl => exact h
  | tail _ hStep ih => exact ih.next hPos hLe hStep

/-! ## Where a run ends -/

theorem Lowering.layered_end (h : Lowering l p names (q, [])) : q.Layered := by
  intro x e he y hy e' he'
  exact (h.layered x e he y hy e' he').resolve_right (by simp)

theorem Lowering.mentions_eq (h : Lowering l p names c) : c.1.Mentions = p.Mentions := by
  ext x y
  constructor
  · rintro ⟨e, he, hy⟩
    obtain ⟨e₀, he₀, hBound⟩ := h.bound_eq he
    exact ⟨e₀, he₀, hBound ▸ hy⟩
  · rintro ⟨e, he, hy⟩
    obtain ⟨k, hk, -⟩ := h.entry x e he
    exact ⟨_, hk, hy⟩

/-- Nothing that is reached is left at a younger level. The induction is along the mentions: the
names themselves are old enough, and no bound leads to a younger level. -/
theorem Lowering.level_le_of_reaches (h : Lowering l p names (q, [])) {z y : String} (hz : z ∈ names)
    (hReaches : p.Reaches z y) {e : Entry} (he : q.find? y = some e) : e.level ≤ l := by
  induction hReaches generalizing e with
  | refl => exact (h.start z hz).resolve_left (by simp) e he
  | @tail a b _ hMentions ih =>
    rw [← h.mentions_eq] at hMentions
    obtain ⟨ea, hea, hb⟩ := hMentions
    exact (h.layered_end a ea hea b hb e he).trans (ih hea)

/-- At the end of a run the bounds are as they were, what is reached is at level `l` or where it was
below, and all other levels are as they were. -/
theorem Lowering.find?_eq (h : Lowering l p names (q, [])) {y : String} {e : Entry}
    (he : p.find? y = some e) : ∃ k, q.find? y = some ⟨k, e.bound⟩ ∧
      ((∃ z ∈ names, p.Reaches z y) → k = min e.level l) ∧
      ((¬ ∃ z ∈ names, p.Reaches z y) → k = e.level) := by
  obtain ⟨k, hk, hLevel⟩ := h.entry y e he
  refine ⟨k, hk, fun hReached => ?_, fun hApart => ?_⟩
  · obtain ⟨z, hz, hzy⟩ := hReached
    have hOld : k ≤ l := h.level_le_of_reaches hz hzy hk
    rcases hLevel with rfl | ⟨rfl, hlt, -⟩ <;> omega
  · exact hLevel.resolve_right fun hMoved => hApart hMoved.2.2

/-- Two runs over the same names end alike. -/
theorem Lowering.sameUpToOrder {r : Prefix} {names' : List String} (h : Lowering l p names (q, []))
    (h' : Lowering l p names' (r, [])) (hNames : ∀ y, y ∈ names' ↔ y ∈ names) : q.SameUpToOrder r := by
  have hFind (y : String) : r.find? y = q.find? y := by
    cases hy : p.find? y with
    | none =>
      have hNone {s : Prefix} (hs : ∀ y, s.Binds y ↔ p.Binds y) : s.find? y = none := by
        refine Option.eq_none_iff_forall_ne_some.2 fun e he => ?_
        obtain ⟨e₀, he₀⟩ := (hs y).1 ⟨e, he⟩
        rw [hy] at he₀
        cases he₀
      rw [hNone h.binds, hNone h'.binds]
    | some e =>
      obtain ⟨k, hk, hIn, hOut⟩ := h.find?_eq hy
      obtain ⟨k', hk', hIn', hOut'⟩ := h'.find?_eq hy
      simp only [hNames] at hIn' hOut'
      -- where a variable ends up depends only on whether it is reached
      by_cases hReached : ∃ z ∈ names, p.Reaches z y
      · rw [hk, hk', hIn hReached, hIn' hReached]
      · rw [hk, hk', hOut hReached, hOut' hReached]
  obtain ⟨hCounter, hFailures, hTrace, hLevel⟩ := h.same
  obtain ⟨hCounter', hFailures', hTrace', hLevel'⟩ := h'.same
  refine ⟨hCounter'.trans hCounter.symm, hFailures'.trans hFailures.symm, hTrace'.trans hTrace.symm,
    hLevel'.trans hLevel.symm, hFind, fun k y => ?_⟩
  -- who owns a variable is told by its entry
  rw [h.owned y k, h'.owned y k, hFind]

end Runs

/-! ## New bounds -/

section NewBounds

variable {p q : Prefix} {x y z : String} {e : Entry}

/-- A variable with a new bound at the level that it had, before anything moves. -/
def rebound (p : Prefix) (x : String) (e : Entry) (b : Bound) : Prefix :=
  { p with entries := p.entries.insert x ⟨e.level, b⟩ }

/-- To give the variable `x` the bound `b` can end in `q`, where the names that a bound mentions are
taken up in any order. -/
def UpdatesTo (p : Prefix) (x : String) (b : Bound) (q : Prefix) : Prop :=
  ∃ e names r, p.find? x = some e ∧ names.Perm b.type.freeVars.toList ∧
    ReflTransGen (Lowers e.level) (p.rebound x e b, names) (r, []) ∧ q = r.note (.update x b)

theorem find?_rebound (p : Prefix) (x : String) (e : Entry) (b : Bound) (y : String) :
    (p.rebound x e b).find? y = if y = x then some ⟨e.level, b⟩ else p.find? y :=
  NameMap.find?_insert p.entries x y ⟨e.level, b⟩

theorem updatesTo_update (hx : p.find? x = some e) (b : Bound) : p.UpdatesTo x b (p.update x b) := by
  refine ⟨e, b.type.freeVars.toList, _, hx, .refl _, run_lower _ _ _, ?_⟩
  rw [update_def]
  rw [hx]
  rfl

/-- A move for a new bound starts right: only what the new bound mentions may be too young. -/
theorem lowering_rebound (hOwned : p.Owned) (hLayered : p.Layered) (hx : p.find? x = some e)
    (b : Bound) {names : List String} (hNames : names.Perm b.type.freeVars.toList) :
    Lowering e.level (p.rebound x e b) names (p.rebound x e b, names) := by
  refine ⟨⟨rfl, rfl, rfl, rfl⟩, hOwned.rebound hx (find?_rebound p x e b) rfl, fun _ => Iff.rfl,
    fun y ey hy => ⟨ey.level, hy, Or.inl rfl⟩, fun y hy => ⟨y, hy, .refl⟩, fun y hy => Or.inl hy, ?_⟩
  intro w ew hw y hy ey hey
  -- levels are as they were
  obtain ⟨ey₀, hey₀, hLevel⟩ : ∃ ey₀, p.find? y = some ey₀ ∧ ey.level = ey₀.level := by
    rw [find?_rebound] at hey
    split_ifs at hey with hyx
    · obtain rfl := Option.some.inj hey
      exact ⟨e, hyx ▸ hx, rfl⟩
    · exact ⟨ey, hey, rfl⟩
  rw [find?_rebound] at hw
  split_ifs at hw with hwx
  · obtain rfl := Option.some.inj hw
    exact Or.inr ⟨Nat.le_refl _, hNames.mem_iff.2 hy⟩
  · exact Or.inl (hLevel.trans_le (hLayered w ew hw y hy ey₀ hey₀))

/-- What a variable reaches is at most as young as the variable. -/
theorem Layered.level_le_of_reaches (h : p.Layered) (hx : p.find? x = some e) (hxy : p.Reaches x y)
    {ey : Entry} (hy : p.find? y = some ey) : ey.level ≤ e.level := by
  induction hxy generalizing ey with
  | refl => exact (congrArg Entry.level (Option.some.inj (hy.symm.trans hx))).le
  | @tail a c _ hMentions ih =>
    obtain ⟨ea, hea, hc⟩ := hMentions
    exact (h a ea hea c hc ey hy).trans (ih hea)

/-- A name that was reached is still reached, unless it was reached through the variable with the
new bound. -/
theorem reaches_rebound (e : Entry) (b : Bound) (hzy : p.Reaches z y) :
    (p.rebound x e b).Reaches z y ∨ p.Reaches x y := by
  induction hzy with
  | refl => exact Or.inl .refl
  | @tail a c _ hac ih =>
    -- only the variable itself mentions something else now
    by_cases hax : a = x
    · exact Or.inr (.single (hax ▸ hac))
    · refine ih.imp (fun hza => hza.tail ?_) fun hxa => hxa.tail hac
      obtain ⟨ea, hea, hc⟩ := hac
      exact ⟨ea, by rw [find?_rebound, if_neg hax, hea], hc⟩

/-- A new bound for a variable moves exactly the variables that it must. Let no bound mention a
younger variable; bounds may lead in a circle. Then the variables that the new bound reaches,
through the bounds as they were or as they are now, are at the level of the variable or where they
were if that is older. The others are where they were, and the bounds are those from before except
for the new one. Again no bound mentions a younger variable. The moves end, whatever the bounds are,
and the outcome does not depend on the order in which names are taken up. -/
theorem update_moves_reached (hOwned : p.Owned) (hLayered : p.Layered) (hx : p.find? x = some e)
    (b : Bound) :
    (∀ y, (p.update x b).Binds y ↔ p.Binds y) ∧
    (∀ y ey, p.find? y = some ey →
      ∃ k, (p.update x b).find? y = some ⟨k, if y = x then b else ey.bound⟩ ∧
        ((∃ z ∈ b.type.freeVars, p.Reaches z y ∨ (p.update x b).Reaches z y) →
          k = min ey.level e.level) ∧
        ((¬ ∃ z ∈ b.type.freeVars, (p.update x b).Reaches z y) → k = ey.level)) ∧
    (p.update x b).Owned ∧ (p.update x b).Layered ∧
    (∀ l, WellFounded fun c d => Lowers l d c) ∧ (∀ l c, (¬ ∃ d, Lowers l c d) → c.2 = []) ∧
    p.UpdatesTo x b (p.update x b) ∧
    ∀ q, p.UpdatesTo x b q → (p.update x b).SameUpToOrder q := by
  have hPos := hOwned.level_pos hx
  have hLe := hOwned.level_le hx
  -- every run for the new bound ends in the same kind of state
  have hEnd {names : List String} {r : Prefix} (hNames : names.Perm b.type.freeVars.toList)
      (hRun : ReflTransGen (Lowers e.level) (p.rebound x e b, names) (r, [])) :
      Lowering e.level (p.rebound x e b) names (r, []) :=
    lowering_of_run (lowering_rebound hOwned hLayered hx b hNames) hPos hLe hRun
  -- the update itself is such a run
  obtain ⟨e', names, r, hx', hNames, hRun, hUpdate⟩ := updatesTo_update hx b
  obtain rfl : e = e' := Option.some.inj (hx.symm.trans hx')
  have hLowering := hEnd hNames hRun
  have hReaches : (p.update x b).Reaches = (p.rebound x e b).Reaches := by
    rw [hUpdate, Reaches, Reaches, ← hLowering.mentions_eq]
    rfl
  refine ⟨fun y => ?_, fun y ey hy => ?_, ?_, ?_, lowers_wellFounded, fun l c hStuck => ?_,
    updatesTo_update hx b, fun q hq => ?_⟩
  · rw [hUpdate]
    refine (hLowering.binds y).trans ?_
    simp only [Binds, find?_rebound]
    split_ifs with hyx
    · exact ⟨fun _ => ⟨e, hyx ▸ hx⟩, fun _ => ⟨_, rfl⟩⟩
    · rfl
  · have hStart : (p.rebound x e b).find? y = some ⟨ey.level, if y = x then b else ey.bound⟩ := by
      rw [find?_rebound]
      split_ifs with hyx
      · subst hyx
        rw [Option.some.inj (hx.symm.trans hy)]
      · exact hy
    obtain ⟨k, hk, hIn, hOut⟩ := hLowering.find?_eq hStart
    simp only [hNames.mem_iff, NameSet.mem_toList, hReaches] at hIn hOut ⊢
    refine ⟨k, by rw [hUpdate]; exact hk, ?_, hOut⟩
    rintro ⟨z, hz, hOld | hNew⟩
    · rcases reaches_rebound e b hOld with hNew | hThrough
      · exact hIn ⟨z, hz, hNew⟩
      · -- what the old bound reached is old enough, so it makes no difference whether it is reached
        have hOlder := hLayered.level_le_of_reaches hx hThrough hy
        by_cases hReached : ∃ z ∈ b.type.freeVars, (p.rebound x e b).Reaches z y
        · exact hIn hReached
        · rw [hOut hReached]
          omega
    · exact hIn ⟨z, hz, hNew⟩
  · rw [hUpdate]
    exact hLowering.owned.congr rfl rfl
  · rw [hUpdate]
    exact hLowering.layered_end
  · obtain ⟨r, todo⟩ := c
    cases todo with
    | nil => rfl
    | cons y rest => exact absurd (exists_lowers l r y rest) hStuck
  · obtain ⟨e', names', r', hx', hNames', hRun', rfl⟩ := hq
    obtain rfl : e = e' := Option.some.inj (hx.symm.trans hx')
    have hSame := hLowering.sameUpToOrder (hEnd hNames' hRun') fun y => by
      rw [hNames'.mem_iff, hNames.mem_iff]
    rw [hUpdate]
    exact ⟨hSame.counter, hSame.failures, congrArg (_ :: ·) hSame.trace, hSame.level, hSame.find?,
      hSame.owns⟩

/-- The bounds of `b` and `c` lead in a circle at the second level, next to `d`, and nothing binds
`z`. When the older `a` gets the bound `b → z`, the circle moves to the first level, and `d` stays.
-/
theorem update_moves_reached_circle : ∃ (p : Prefix) (circle new : Bound),
    circle = ⟨.flexible, .all "y" .flexible .bottom (.mono (.fn (.var "y") (.var "b")))⟩ ∧
    new = ⟨.rigid, .mono (.fn (.var "b") (.var "z"))⟩ ∧
    p.find? "a" = some ⟨1, .unbounded⟩ ∧ p.find? "b" = some ⟨2, .flexible, .mono (.var "c")⟩ ∧
    p.find? "c" = some ⟨2, circle⟩ ∧ p.find? "d" = some ⟨2, .rigid, .mono (.var "z")⟩ ∧
    (p.update "a" new).find? "a" = some ⟨1, new⟩ ∧
    (p.update "a" new).find? "b" = some ⟨1, .flexible, .mono (.var "c")⟩ ∧
    (p.update "a" new).find? "c" = some ⟨1, circle⟩ ∧
    (p.update "a" new).find? "d" = some ⟨2, .rigid, .mono (.var "z")⟩ ∧
    (p.update "a" new).Layered := by
  obtain ⟨p, circle, new, hCircle, hNew, hp⟩ : ∃ (p : Prefix) (circle new : Bound),
      circle = ⟨.flexible, .all "y" .flexible .bottom (.mono (.fn (.var "y") (.var "b")))⟩ ∧
      new = ⟨.rigid, .mono (.fn (.var "b") (.var "z"))⟩ ∧
      p = (((empty.enter.add "a" .unbounded).enter.add "b" ⟨.flexible, .mono (.var "c")⟩).add "c"
        circle).add "d" ⟨.rigid, .mono (.var "z")⟩ := ⟨_, _, _, rfl, rfl, rfl⟩
  have hEmpty : empty.level = 0 ∧ ∀ y, empty.find? y = none := ⟨rfl, fun _ => rfl⟩
  have hFind (y : String) : p.find? y =
      if y = "d" then some ⟨2, .rigid, .mono (.var "z")⟩ else if y = "c" then some ⟨2, circle⟩
      else if y = "b" then some ⟨2, .flexible, .mono (.var "c")⟩
      else if y = "a" then some ⟨1, .unbounded⟩ else none := by
    rw [hp]
    simp [find?_add, level_add, hEmpty]
  have hOwned : p.Owned := by
    rw [hp]
    exact (((wellFormed_empty.owned.enter.add _ _).enter.add _ _).add _ _).add _ _
  have hLayered : p.Layered := by
    intro x e he y hy e' he'
    have hLevel : p.level = 2 := by
      rw [hp]
      simp [level_add, hEmpty]
    have hTop : e'.level ≤ 2 := hLevel ▸ hOwned.level_le he'
    rw [hFind] at he
    split_ifs at he
    all_goals obtain rfl := Option.some.inj he
    · exact hTop
    · exact hTop
    · exact hTop
    · -- the bound of the only variable of the first level mentions nothing
      exact absurd hy (NameSet.not_mem_empty y)
  have hA : p.find? "a" = some ⟨1, .unbounded⟩ := by simp [hFind]
  have hB : p.find? "b" = some ⟨2, .flexible, .mono (.var "c")⟩ := by simp [hFind]
  have hC : p.find? "c" = some ⟨2, circle⟩ := by simp [hFind]
  have hD : p.find? "d" = some ⟨2, .rigid, .mono (.var "z")⟩ := by simp [hFind]
  have hMentions : "b" ∈ new.type.freeVars ∧ p.Mentions "b" "c" := by
    rw [hNew]
    exact ⟨by decide, _, hB, by decide⟩
  have hApart : (p.update "a" new).occurs "a" new.type = false ∧
      (p.update "a" new).occurs "d" new.type = false := by
    subst hp hNew hCircle
    exact ⟨by cbv, by cbv⟩
  obtain ⟨-, hMoves, -, hLayered', -⟩ := update_moves_reached hOwned hLayered hA new
  obtain ⟨ka, hA', -, hStayA⟩ := hMoves "a" _ hA
  obtain ⟨kb, hB', hMoveB, -⟩ := hMoves "b" _ hB
  obtain ⟨kc, hC', hMoveC, -⟩ := hMoves "c" _ hC
  obtain ⟨kd, hD', -, hStayD⟩ := hMoves "d" _ hD
  rw [← occurs_iff] at hStayA hStayD
  obtain rfl : ka = 1 := hStayA (by simp [hApart.1])
  obtain rfl : kb = 1 := hMoveB ⟨"b", hMentions.1, Or.inl .refl⟩
  obtain rfl : kc = 1 := hMoveC ⟨"b", hMentions.1, Or.inl (.single hMentions.2)⟩
  obtain rfl : kd = 2 := hStayD (by simp [hApart.2])
  exact ⟨p, circle, new, hCircle, hNew, hA, hB, hC, hD, hA', hB', hC', hD', hLayered'⟩

end NewBounds

end Prefix

end Mlf
