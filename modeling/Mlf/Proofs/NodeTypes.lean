import Mathlib
import Mlf.Proofs.Marks
import Mlf.Proofs.RecordedRuns
import Mlf.Proofs.Resolution
import Mlf.Proofs.WholePrograms

/-!
# Types of nodes over time

The type of a node is resolved whenever a level around it is left, as long as it mentions variables
of older levels. Two things can go wrong. A name in the type may be forgotten while the node waits,
and be born again as another variable before the next level is left. And a variable that is solved
may stay in the type for good.

Neither happens to a name that is born once. While it is in play its node is pending, so the node is
resolved with its level at the latest; a name that is left in the type then was not solved. What
inference makes up is born once. A written name is born once if the scope has it, or if no two
annotations introduce it side by side.

Main results:

* `exprIn_sound` — what is kept of the nodes of a part of a program;
* `infer_forgets_unsolved` — a made-up name in the type of a node was forgotten unsolved;
* `infer_keeps_apart` — a name that is introduced once is never taken for another;
* `infer_mistakes_wildcard` — one that is introduced twice may be.
-/

namespace Mlf

open Solve

/-! ## Nodes and histories -/

namespace Dated

/-- The types of a node are dated in the history, and name variables that had been in play then. -/
structure Tracks (h : History) (d : Dated) : Prop where
  latest : ∃ k past, d.past = (k, d.stamp.type) :: past
  dates : ∀ kt ∈ d.past, kt.1 < h.length
  entered : ∀ kt ∈ d.past, ∀ x ∈ kt.2.freeVars, ∃ k ≤ kt.1, h.InPlay k x

/-- A name was forgotten while it was not solved. -/
def ForgottenUnsolved (h : History) (x : String) : Prop :=
  ∃ k e, h.Pops k x e ∧ e.bound.type.mono? = none

/-- What holds of a node at the state `p`: a name in its type that is born once is in play, and then
the node is pending, or it was forgotten while it was not solved. -/
structure Sound (h : History) (p : Prefix) (d : Dated) : Prop extends Tracks h d where
  standing : ∀ x ∈ d.stamp.type.freeVars, h.births x ≤ 1 →
    (p.Binds x ∧ d.stamp.pending = true) ∨ (¬ p.Binds x ∧ ForgottenUnsolved h x)

/-- What holds of a node that has been resolved and whose level is about to be left: it is pending
if a name in its type is going to stay in play, and names that are solved are gone. -/
structure Leaving (h : History) (p : Prefix) (d : Dated) : Prop extends Tracks h d where
  standing : ∀ x ∈ d.stamp.type.freeVars, h.births x ≤ 1 →
    (∃ e, p.find? x = some e ∧ e.bound.type.mono? = none ∧
      (e.level < p.level → d.stamp.pending = true)) ∨ (¬ p.Binds x ∧ ForgottenUnsolved h x)

/-- A node never takes a name for another variable: whenever its type is resolved, a name that is in
play then has been so ever since it came into the type. -/
def KeepsApart (h : History) (x : String) (d : Dated) : Prop :=
  ∀ later now t stay start u earlier, d.past = later ++ (now, t) :: (stay ++ (start, u) :: earlier) →
    x ∈ u.freeVars → (∀ kt ∈ stay, x ∈ kt.2.freeVars) → h.InPlay now x →
      ∀ k, start ≤ k → k ≤ now → h.InPlay k x

section

variable {h h' : History} {p q w : Prefix} {d : Dated} {born : String → Nat}

theorem ForgottenUnsolved.append {x : String} (hx : ForgottenUnsolved h x) (later : History) :
    ForgottenUnsolved (later ++ h) x := by
  obtain ⟨k, e, hPops, hUnsolved⟩ := hx
  exact ⟨k, e, hPops.append later, hUnsolved⟩

theorem Tracks.append (hd : d.Tracks h) (later : History) : d.Tracks (later ++ h) where
  latest := hd.latest
  dates kt hkt := by
    have hLt := hd.dates kt hkt
    rw [List.length_append]
    omega
  entered kt hkt x hx := by
    obtain ⟨k, hk, hIn⟩ := hd.entered kt hkt x hx
    exact ⟨k, hk, hIn.append later⟩

/-- A name that is born once is in play from before it comes into the type. -/
theorem Tracks.keepsApart (hd : d.Tracks h) {x : String} (hOnce : h.births x ≤ 1) :
    d.KeepsApart h x := by
  intro later now t stay start u earlier hPast hx _ hNow k hStart hLe
  obtain ⟨i, hi, hIn⟩ := hd.entered (start, u) (by simp [hPast]) x hx
  exact History.inPlay_between hOnce hIn hNow (Nat.le_trans hi hStart) hLe

theorem at?_last {h : History} {p : Prefix} (hHead : h.head? = some p) :
    h.at? (h.length - 1) = some p := by
  cases h with
  | nil => cases hHead
  | cons q h =>
    obtain rfl := Option.some.inj hHead
    exact History.at?_now q h

/-- A type over the variables in play, as a node gets it. -/
theorem sound_of (hHead : h.head? = some p) {t : Polytype} (ht : p.Covers t) :
    (Dated.of (h.length - 1) t).Sound h p where
  latest := ⟨_, [], rfl⟩
  dates kt hkt := by
    obtain rfl := List.mem_singleton.1 hkt
    exact History.lt_length_of_at? (at?_last hHead)
  entered kt hkt x hx := by
    obtain rfl := List.mem_singleton.1 hkt
    exact ⟨_, Nat.le_refl _, p, at?_last hHead, ht x hx⟩
  standing x hx _ := by
    refine Or.inl ⟨ht x hx, ?_⟩
    -- a type with free names is pending
    have hSize : t.freeVars.size ≠ 0 := fun hZero =>
      List.not_mem_nil (List.length_eq_zero_iff.1 hZero ▸ hx : x ∈ ([] : List String))
    simpa [Dated.of, Stamp.of] using hSize

/-- A type without free variables, as a node gets it. -/
theorem sound_settled (hHead : h.head? = some p) {t : Polytype} (ht : ∀ x, x ∉ t.freeVars) :
    (Dated.settled (h.length - 1) t).Sound h p where
  latest := ⟨_, [], rfl⟩
  dates kt hkt := by
    obtain rfl := List.mem_singleton.1 hkt
    exact History.lt_length_of_at? (at?_last hHead)
  entered kt hkt x hx := by
    obtain rfl := List.mem_singleton.1 hkt
    exact absurd hx (ht x)
  standing x hx _ := absurd hx (ht x)

/-- Nodes are let alone by what else happens. -/
theorem Sound.mono (hd : d.Sound h p) (hHead : h.head? = some p) (hPass : Passage born h h' p q) :
    d.Sound h' q := by
  obtain ⟨later, hLater, -⟩ := hPass.steady
  have hTracks : d.Tracks h' := hLater ▸ hd.toTracks.append later
  refine ⟨hTracks, fun x hx hOnce => ?_⟩
  -- births are only ever added
  have hBefore : h.births x ≤ 1 := by
    have hLe := History.births_le_append x later h
    rw [← hLater] at hLe
    omega
  rcases hd.standing x hx hBefore with ⟨hBinds, hPending⟩ | ⟨hNot, hGone⟩
  · exact Or.inl ⟨hPass.binds hBinds, hPending⟩
  · have hGone' : ForgottenUnsolved h' x := hLater ▸ hGone.append later
    refine Or.inr ⟨fun hBinds => ?_, hGone'⟩
    -- a name that has come back was born twice
    obtain ⟨k, e, hPops, -⟩ := hGone
    have hkLt : k < h.length := by
      obtain ⟨r, hr, -⟩ := hPops.inPlay.1
      exact History.lt_length_of_at? hr
    have hIn : h'.InPlay (h.length - 1) x := by
      refine History.inPlay_between hOnce (i := k) (k := h'.length - 1) ?_ ?_ (by omega) ?_
      · exact hLater ▸ hPops.inPlay.1.append later
      · exact ⟨q, at?_last hPass.last, hBinds⟩
      · rw [hLater, List.length_append]
        omega
    obtain ⟨r, hr, hrx⟩ := hIn
    rw [hLater, History.at?_append (by omega), at?_last hHead] at hr
    exact hNot (Option.some.inj hr ▸ hrx)

/-- A pending type is resolved, and then what is solved is gone from it. -/
theorem Sound.settle (hd : d.Sound h p) (hHead : h.head? = some p) (hp : p.WellFormed) :
    (d.settle p (h.length - 1)).Leaving h p := by
  unfold Dated.settle
  split_ifs with hPending
  · obtain ⟨k, past, hPast⟩ := hd.latest
    have hOld : (k, d.stamp.type) ∈ d.past := by simp [hPast]
    have hType : (p.settle d.stamp).type = p.resolved d.stamp.type := by
      simp [Prefix.settle, hPending]
    -- a name of the resolved type was there before, or it is in play
    have hNames (x : String) (hx : x ∈ (p.resolved d.stamp.type).freeVars) :
        p.solution? x = none ∧ (x ∈ d.stamp.type.freeVars ∨ p.Binds x) := by
      obtain ⟨hUnsolved, y, hy, hReach⟩ :=
        Prefix.mem_freeVars_resolved hp.acyclic.untangled hx
      refine ⟨hUnsolved, ?_⟩
      rcases Relation.ReflTransGen.cases_tail hReach with rfl | ⟨z, -, hMentions⟩
      · exact Or.inl hy
      · exact Or.inr (hp.scoping.binds hMentions)
    refine ⟨⟨⟨_, _, by rw [hType]⟩, fun kt hkt => ?_, fun kt hkt x hx => ?_⟩, fun x hx hOnce => ?_⟩
    · -- the new type is dated now, and its names have been in play by now
      rcases List.mem_cons.1 hkt with rfl | hkt
      · exact History.lt_length_of_at? (at?_last hHead)
      · exact hd.dates kt hkt
    · rcases List.mem_cons.1 hkt with rfl | hkt
      · rcases (hNames x hx).2 with hx | hBinds
        · obtain ⟨j, hj, hIn⟩ := hd.entered _ hOld x hx
          have hLt := hd.dates _ hOld
          exact ⟨j, by simp only at hj hLt ⊢; omega, hIn⟩
        · exact ⟨_, Nat.le_refl _, p, at?_last hHead, hBinds⟩
      · exact hd.entered kt hkt x hx
    · simp only [hType] at hx
      obtain ⟨hUnsolved, hSource⟩ := hNames x hx
      by_cases hBinds : p.Binds x
      · obtain ⟨e, he⟩ := hBinds
        refine Or.inl ⟨e, he, (Prefix.solution?_eq_none he).1 hUnsolved, fun hLt => ?_⟩
        have hOlder : p.mentionsOlder (p.resolved d.stamp.type) = true :=
          List.any_eq_true.2 ⟨x, hx, by simp [he, hLt]⟩
        simp [Prefix.settle, hPending, hOlder]
      · rcases hd.standing x (hSource.resolve_right hBinds) hOnce with ⟨hb, -⟩ | hGone
        · exact absurd hb hBinds
        · exact Or.inr hGone
  · refine ⟨hd.toTracks, fun x hx hOnce => ?_⟩
    rcases hd.standing x hx hOnce with ⟨-, hp⟩ | hGone
    · exact absurd hp hPending
    · exact Or.inr hGone

theorem Leaving.quiet (hd : d.Leaving h p) (hQuiet : p.Quiet w) : d.Leaving (w :: h) w := by
  refine ⟨hd.toTracks.append [w], fun x hx hOnce => ?_⟩
  have hLevel : w.level = p.level := by rw [Prefix.level, hQuiet.levels, ← Prefix.level]
  have hBefore := Nat.le_trans (History.births_le_cons x w h) hOnce
  rw [hQuiet.find?, hLevel, hQuiet.binds]
  exact (hd.standing x hx hBefore).imp_right
    (And.imp_right fun hGone => hGone.append [w])

/-- The level of a resolved node is left. -/
theorem Leaving.leave (hd : d.Leaving h w) (hHead : h.head? = some w) (hOwned : w.Owned)
    (hLevel : 1 ≤ w.level) : d.Sound (w.leave :: h) w.leave := by
  refine ⟨hd.toTracks.append [w.leave], fun x hx hOnce => ?_⟩
  have hBefore := Nat.le_trans (History.births_le_cons x w.leave h) hOnce
  have hLeave := hOwned.find?_leave hLevel x
  rcases hd.standing x hx hBefore with ⟨e, he, hUnsolved, hPending⟩ | ⟨hNot, hGone⟩
  · -- older, or of the level that is left
    by_cases hLt : e.level < w.level
    · exact Or.inl ⟨⟨e, (hLeave e).2 ⟨he, hLt⟩⟩, hPending hLt⟩
    · -- the level that is left owns the name
      have hLe := hOwned.level_le he
      have hGone : ¬ w.leave.Binds x := by
        rintro ⟨e', he'⟩
        obtain ⟨he', hLt'⟩ := (hLeave e').1 he'
        obtain rfl : e = e' := Option.some.inj (he.symm.trans he')
        exact hLt hLt'
      have hNow := at?_last hHead
      have hLength : h.length - 1 + 1 = h.length := by
        have := History.lt_length_of_at? hNow
        omega
      refine Or.inr ⟨hGone, h.length - 1, e, ⟨w, ?_, ?_, he, by omega, hGone⟩, hUnsolved⟩
      · exact History.at?_append_of_some hNow [w.leave]
      · rw [hLength]
        exact History.at?_now w.leave h
  · refine Or.inr ⟨?_, hGone.append [w.leave]⟩
    rintro ⟨e, he⟩
    exact hNot ⟨e, ((hLeave e).1 he).1⟩

end

end Dated

theorem Prefix.WellFormed.generalize {p : Prefix} (hp : p.WellFormed) (t : Polytype) :
    (p.generalize t).2.WellFormed :=
  hp.congr (entries_failAll p _) (levels_failAll p _)

/-! ## Nodes of a tree -/

namespace Infer

open Prefix Recorded

/-- All nodes of a tree are sound. -/
def SoundTree (h : History) (p : Prefix) (e : Expr Dated) : Prop := ∀ d ∈ e.infos, d.Sound h p

/-- All nodes of a tree have been resolved and wait for their level to be left. -/
def LeavingTree (h : History) (p : Prefix) (e : Expr Dated) : Prop := ∀ d ∈ e.infos, d.Leaving h p

section

variable {h h' : History} {p q w : Prefix} {e : Expr Dated} {born : String → Nat}

theorem SoundTree.mono (he : SoundTree h p e) (hHead : h.head? = some p)
    (hPass : Passage born h h' p q) : SoundTree h' q e :=
  fun d hd => (he d hd).mono hHead hPass

theorem SoundTree.note (he : SoundTree h p e) (hHead : h.head? = some p) (hOwned : p.Owned)
    (event : Event) : SoundTree (p.note event :: h) (p.note event) e :=
  he.mono hHead (.of_advance hHead (.of_same hOwned rfl rfl rfl) :
    Passage 0 h (p.note event :: h) p (p.note event))

theorem SoundTree.settle (he : SoundTree h p e) (hHead : h.head? = some p) (hp : p.WellFormed) :
    LeavingTree (p.settled (e.map Dated.stamp) :: h) (p.settled (e.map Dated.stamp))
      (e.map (Dated.settle p (h.length - 1))) := by
  intro d hd
  rw [Expr.infos_map] at hd
  obtain ⟨d', hd', rfl⟩ := List.mem_map.1 hd
  exact ((he d' hd').settle hHead hp).quiet (settled_quiet p _)

theorem LeavingTree.quiet (he : LeavingTree h p e) (hQuiet : p.Quiet w) :
    LeavingTree (w :: h) w e :=
  fun d hd => (he d hd).quiet hQuiet

theorem LeavingTree.leave (he : LeavingTree h p e) (hHead : h.head? = some p) (hOwned : p.Owned)
    (hLevel : 1 ≤ p.level) : SoundTree (p.leave :: h) p.leave e :=
  fun d hd => (he d hd).leave hHead hOwned hLevel

/-- The level is left right after the only tree that has it is resolved. -/
theorem SoundTree.close (he : SoundTree h p e) (hHead : h.head? = some p) (hp : p.WellFormed)
    (hLevel : 1 ≤ p.level) :
    (p.settled (e.map Dated.stamp)).leave.Owned ∧
      SoundTree ((p.settled (e.map Dated.stamp)).leave :: p.settled (e.map Dated.stamp) :: h)
        (p.settled (e.map Dated.stamp)).leave (e.map (Dated.settle p (h.length - 1))) := by
  have hQuiet := settled_quiet p (e.map Dated.stamp)
  have hOwned := (hQuiet.wellFormed hp).1.owned
  have hLevel' : 1 ≤ (p.settled (e.map Dated.stamp)).level := by
    rwa [Prefix.level, hQuiet.levels, ← Prefix.level]
  exact ⟨hOwned.leave hLevel', (he.settle hHead hp).leave rfl hOwned hLevel'⟩

/-- The level is left after two trees are resolved, one after the other. -/
theorem SoundTree.closeBoth {e' : Expr Dated} (he : SoundTree h p e) (he' : SoundTree h p e')
    (hHead : h.head? = some p) (hp : p.WellFormed) (hLevel : 1 ≤ p.level)
    (hq : p.settled (e.map Dated.stamp) = q) (hw : q.settled (e'.map Dated.stamp) = w) :
    w.leave.Owned ∧ SoundTree (w.leave :: w :: q :: h) w.leave (e.map (Dated.settle p (h.length - 1))) ∧
      SoundTree (w.leave :: w :: q :: h) w.leave
        (e'.map (Dated.settle q ((q :: h : History).length - 1))) := by
  subst hq hw
  have hQuiet := settled_quiet p (e.map Dated.stamp)
  have hQuiet' := settled_quiet (p.settled (e.map Dated.stamp)) (e'.map Dated.stamp)
  have hWellFormed := (hQuiet.wellFormed hp).1
  have hOwned := (hQuiet'.wellFormed hWellFormed).1.owned
  have hLevel' : 1 ≤ ((p.settled (e.map Dated.stamp)).settled (e'.map Dated.stamp)).level := by
    rwa [Prefix.level, hQuiet'.levels, hQuiet.levels, ← Prefix.level]
  -- the second tree waits while the first one is resolved
  have hStill : SoundTree (p.settled (e.map Dated.stamp) :: h) (p.settled (e.map Dated.stamp)) e' :=
    he'.mono hHead (.of_advance hHead (advance_failAll hp.owned _) : Passage 0 h _ p _)
  exact ⟨hOwned.leave hLevel', ((he.settle hHead hp).quiet hQuiet').leave rfl hOwned hLevel',
    (hStill.settle rfl hWellFormed).leave rfl hOwned hLevel'⟩

theorem SoundTree.wrap {verdict : Verdict} {d : Dated} (he : SoundTree h p e) (hd : d.Sound h p) :
    SoundTree h p (wrap verdict d e) := by
  cases verdict with
  | none => exact he
  | some report =>
    intro d' hd'
    rw [Infer.wrap, Expr.infos_error] at hd'
    rcases List.mem_cons.1 hd' with rfl | hd'
    · exact hd
    · exact he d' hd'

end

end Infer

theorem Recorded.Records.passage {α β : Type} {born : String → Nat} {f : α → β} {r : Recorded α}
    {part : Solve β} {h h' : History} {s s' : Session} {a : α} (hRecords : Records born f r part)
    (hr : r h s = .ok ((a, h'), s')) (hHead : h.head? = some s.vars) (hOwned : s.vars.Owned) :
    part s = .ok (f a, s') ∧ Passage born h h' s.vars s'.vars := by
  rcases hRecords h s hHead hOwned with ⟨halt, hError, -⟩ | ⟨a', h'', s'', hOk, hPart, hPass⟩
  · rw [hr] at hError
    cases hError
  · rw [hr] at hOk
    cases hOk
    exact ⟨hPart, hPass⟩

namespace Infer

open Prefix Recorded

section

variable {config : Config} {scope : Scope} {e callee arg value body inner : Program} {h h' : History}
  {s s' : Session} {out : Expr Dated × Polytype}

/-- What a recorded run on a part of a program keeps. -/
theorem exprIn_keeps (hRun : exprIn dates config scope e h s = .ok ((out, h'), s'))
    (hHead : h.head? = some s.vars) (hp : s.vars.WellFormed) (hLevel : 1 ≤ s.vars.level)
    (hScope : scope.Over s.vars) :
    Passage e.introductions h h' s.vars s'.vars ∧ Keeps e s out.2 s' := by
  obtain ⟨hExpr, hPass⟩ := (expr_records _ scope e).passage hRun hHead hp.owned
  exact ⟨hPass, (run_of_ok hExpr).keeps hp hLevel hScope⟩

/-- The node of a part of a program has its type over the variables in play. -/
theorem exprIn_node (hRun : exprIn dates config scope e h s = .ok ((out, h'), s'))
    (hHead : h.head? = some s.vars) (hp : s.vars.WellFormed) (hLevel : 1 ≤ s.vars.level)
    (hScope : scope.Over s.vars) :
    (Dated.of (h'.length - 1) out.2).Sound h' s'.vars ∧
      (Dated.settled (h'.length - 1) .bottom).Sound h' s'.vars := by
  obtain ⟨hPass, hKept⟩ := exprIn_keeps hRun hHead hp hLevel hScope
  exact ⟨Dated.sound_of hPass.last hKept.covers,
    Dated.sound_settled hPass.last fun x => by simp [Polytype.freeVars]⟩

/-- Recorded runs on a part of a program leave sound nodes behind. Those below the node of the part
itself have been resolved with its level, if it has one. -/
def Sounds (config : Config) (e : Program) : Prop :=
  ∀ {scope : Scope} {h h' : History} {s s' : Session} {out : Expr Dated × Polytype},
    exprIn dates config scope e h s = .ok ((out, h'), s') → h.head? = some s.vars →
    s.vars.WellFormed → 1 ≤ s.vars.level → scope.Over s.vars → SoundTree h' s'.vars out.1

/-- A function: its body is under a new variable, and the level goes with the type of the function.
-/
theorem func_sounds (info : Unit) (x : String) (ih : Sounds config body) :
    Sounds config (.func info x body) := by
  intro scope h h' s s' out hRun hHead hp hLevel hScope
  obtain ⟨hNode, -⟩ := exprIn_node hRun hHead hp hLevel hScope
  rw [exprIn] at hRun
  obtain ⟨⟨tree, u⟩, h₁, s₁, hAtLevel, hRun⟩ := Recorded.of_bind_ok hRun
  obtain ⟨h₂, s₂, hAct, rfl, rfl⟩ := Recorded.of_atLevel_ok hAtLevel
  rw [perform_eq, Recorded.bind_of_ok (act_of_ok (onVars_apply _ _))] at hAct
  obtain ⟨⟨bodyTree, t⟩, h₃, s₃, hBody, hAct⟩ := Recorded.of_bind_ok hAct
  obtain ⟨m, h₄, s₄, hResult, hAct⟩ := Recorded.of_bind_ok hAct
  obtain ⟨u', h₅, s₅, hType, hAct⟩ := Recorded.of_bind_ok hAct
  rw [dates_settle, Recorded.bind_of_ok (recordSettle_apply _ _ _)] at hAct
  cases hAct
  cases hRun
  -- the body, under the new variable
  have hNew := param_opens hp Prod.mk.eta.symm
  have hLevelNew := hNew.narrows.one_le_level (one_le_level_enter _)
  have hScopeNew := (hScope.enter.mono hNew.narrows).insert x hNew.covers
  obtain ⟨hPass, hKept⟩ := exprIn_keeps hBody rfl hNew.narrows.wellFormed hLevelNew hScopeNew
  have hSound := ih hBody rfl hNew.narrows.wellFormed hLevelNew hScopeNew
  -- the type of the function
  obtain ⟨hMono, hPassMono⟩ := (monomorphize_records _ _).passage hResult hPass.last hPass.owned
  obtain ⟨hGen, hPassGen⟩ := (@Unify.generalize_records 0 _).passage hType hPassMono.last
    hPassMono.owned
  rw [monomorphize_apply] at hMono
  cases hMono
  cases hGen
  obtain ⟨-, hNarrows, -⟩ := result_opens hNew hKept.narrows hKept.covers Prod.mk.eta.symm
  have hPassType := hPassMono.trans hPassGen
  obtain ⟨hOwned, hClosed⟩ := (hSound.mono hPass.last hPassType).close hPassType.last
    (hNarrows.wellFormed.generalize _)
    (hPassGen.level ▸ hNarrows.one_le_level (one_le_level_enter _))
  -- the node of the function itself has its type over the variables in play
  intro d hd
  rw [Expr.infos_func] at hd
  rcases List.mem_cons.1 hd with rfl | hd
  · exact hNode
  · exact hClosed.note rfl hOwned _ d hd

/-- A call: two parts, one after the other, and then unification at their level. -/
theorem call_sounds (info : Unit) (ihCallee : Sounds config callee) (ihArg : Sounds config arg) :
    Sounds config (.call info callee arg) := by
  intro scope h h' s s' out hRun hHead hp hLevel hScope
  obtain ⟨hNode, -⟩ := exprIn_node hRun hHead hp hLevel hScope
  rw [exprIn] at hRun
  obtain ⟨⟨callee', arg', u, verdict⟩, h₁, s₁, hAtLevel, hRun⟩ := Recorded.of_bind_ok hRun
  obtain ⟨h₂, s₂, hAct, rfl, rfl⟩ := Recorded.of_atLevel_ok hAtLevel
  obtain ⟨⟨calleeTree, calleeType⟩, h₃, s₃, hCallee, hAct⟩ := Recorded.of_bind_ok hAct
  obtain ⟨⟨argTree, argType⟩, h₄, s₄, hArg, hAct⟩ := Recorded.of_bind_ok hAct
  obtain ⟨f, h₅, s₅, hFunction, hAct⟩ := Recorded.of_bind_ok hAct
  obtain ⟨a, h₆, s₆, hParam, hAct⟩ := Recorded.of_bind_ok hAct
  obtain ⟨x, h₇, s₇, hResult, hAct⟩ := Recorded.of_bind_ok hAct
  obtain ⟨verdict', h₈, s₈, hUnify, hAct⟩ := Recorded.of_bind_ok hAct
  obtain ⟨u', h₉, s₉, hType, hAct⟩ := Recorded.of_bind_ok hAct
  rw [dates_settle, Recorded.bind_of_ok (recordSettle_apply _ _ _),
    Recorded.bind_of_ok (recordSettle_apply _ _ _)] at hAct
  cases hAct
  cases hRun
  -- the two parts, one after the other
  obtain ⟨hPass, hKept⟩ := exprIn_keeps hCallee rfl hp.enter (one_le_level_enter _) hScope.enter
  have hSound := ihCallee hCallee rfl hp.enter (one_le_level_enter _) hScope.enter
  have hNarrows := hKept.narrows 0
  have hLevel' := hNarrows.one_le_level (one_le_level_enter _)
  obtain ⟨hPass', hKept'⟩ := exprIn_keeps hArg hPass.last hNarrows.wellFormed hLevel'
    (hScope.enter.mono hNarrows)
  have hSound' := ihArg hArg hPass.last hNarrows.wellFormed hLevel' (hScope.enter.mono hNarrows)
  -- the call
  obtain ⟨hFun, hPassFun⟩ := (monomorphize_records _ _).passage hFunction hPass'.last hPass'.owned
  obtain ⟨hArg, hPassArg⟩ := (monomorphize_records _ _).passage hParam hPassFun.last hPassFun.owned
  obtain ⟨hNew, hPassNew⟩ := (newType_records _).passage hResult hPassArg.last hPassArg.owned
  obtain ⟨hUnified, hPassUnify⟩ := (Unify.within_records _ _ _ _ _).passage hUnify hPassNew.last
    hPassNew.owned
  obtain ⟨hGen, hPassGen⟩ := (@Unify.generalize_records 0 _).passage hType hPassUnify.last
    hPassUnify.owned
  rw [monomorphize_apply] at hFun hArg
  cases hFun
  cases hArg
  cases hNew
  cases hGen
  obtain ⟨hOpens, hOpened⟩ := applied_opens hKept.narrows hKept.covers hKept'.narrows hKept'.covers
    Prod.mk.eta.symm Prod.mk.eta.symm Prod.mk.eta.symm
  obtain ⟨hTied, -⟩ := Unify.within_keeps hUnified hOpens.narrows.wellFormed hOpens.function
    hOpens.applied (s.vars.level + 1)
  have hLevel'' := (hOpened.trans_univ hTied).one_le_level (one_le_level_enter _)
  have hPassCall := (((hPassFun.trans hPassArg).trans hPassNew).trans hPassUnify).trans hPassGen
  obtain ⟨hOwned, hClosed, hClosed'⟩ := ((hSound.mono hPass.last hPass').mono hPass'.last
    hPassCall).closeBoth (hSound'.mono hPass'.last hPassCall) hPassCall.last
    (hTied.wellFormed.generalize _) (hPassGen.level ▸ hLevel'') rfl rfl
  -- the node of the call, and those of the two parts as they were closed with the level
  refine SoundTree.wrap (fun d hd => ?_) hNode
  rw [Expr.infos_call, List.mem_cons, List.mem_append] at hd
  rcases hd with rfl | hd | hd
  · exact hNode
  · exact hClosed.note rfl hOwned _ d hd
  · exact hClosed'.note rfl hOwned _ d hd

/-- A local definition has no level of its own, so the nodes of its parts stay as they are. -/
theorem letIn_sounds (info : Unit) (x : String) (ihValue : Sounds config value)
    (ihBody : Sounds config body) : Sounds config (.letIn info x value body) := by
  intro scope h h' s s' out hRun hHead hp hLevel hScope
  obtain ⟨hNode, -⟩ := exprIn_node hRun hHead hp hLevel hScope
  rw [exprIn] at hRun
  obtain ⟨⟨valueTree, valueType⟩, h₁, s₁, hValue, hRun⟩ := Recorded.of_bind_ok hRun
  obtain ⟨⟨bodyTree, t⟩, h₂, s₂, hBody, hRun⟩ := Recorded.of_bind_ok hRun
  cases hRun
  obtain ⟨hPass, hKept⟩ := exprIn_keeps hValue hHead hp hLevel hScope
  have hNarrows := hKept.narrows 0
  have hLevel' := hNarrows.one_le_level hLevel
  have hScope' := (hScope.mono hNarrows).insert x hKept.covers
  obtain ⟨hPass', -⟩ := exprIn_keeps hBody hPass.last hNarrows.wellFormed hLevel' hScope'
  -- the nodes of the value are there while the body is inferred
  have hSound := (ihValue hValue hHead hp hLevel hScope).mono hPass.last hPass'
  have hSound' := ihBody hBody hPass.last hNarrows.wellFormed hLevel' hScope'
  intro d hd
  rw [Expr.infos_letIn, List.mem_cons, List.mem_append] at hd
  rcases hd with rfl | hd | hd
  · exact hNode
  · exact hSound d hd
  · exact hSound' d hd

/-- An annotation: its value is under the names that the declared type introduces. -/
theorem annot_sounds (info : Unit) (declared : Polytype) (ih : Sounds config value) :
    Sounds config (.annot info value declared) := by
  intro scope h h' s s' out hRun hHead hp hLevel hScope
  obtain ⟨hNode, -⟩ := exprIn_node hRun hHead hp hLevel hScope
  rw [exprIn] at hRun
  obtain ⟨⟨tree, u, verdict⟩, h₁, s₁, hAtLevel, hRun⟩ := Recorded.of_bind_ok hRun
  obtain ⟨h₂, s₂, hAct, rfl, rfl⟩ := Recorded.of_atLevel_ok hAtLevel
  rw [perform_eq, Recorded.bind_of_ok (act_of_ok (changeVars_apply _ _))] at hAct
  obtain ⟨⟨valueTree, valueType⟩, h₃, s₃, hValue, hAct⟩ := Recorded.of_bind_ok hAct
  obtain ⟨a, h₄, s₄, hActual, hAct⟩ := Recorded.of_bind_ok hAct
  obtain ⟨e, h₅, s₅, hExpected, hAct⟩ := Recorded.of_bind_ok hAct
  obtain ⟨verdict', h₆, s₆, hUnify, hAct⟩ := Recorded.of_bind_ok hAct
  obtain ⟨u', h₇, s₇, hType, hAct⟩ := Recorded.of_bind_ok hAct
  rw [dates_settle, Recorded.bind_of_ok (recordSettle_apply _ _ _)] at hAct
  cases hAct
  cases hRun
  -- the value, under the names of the annotation
  obtain ⟨hNames, hDeclared⟩ := wildcards_narrows hp.enter (one_le_level_enter _) declared
  have hLevelNames := hNames.one_le_level (one_le_level_enter _)
  obtain ⟨hPass, hKept⟩ := exprIn_keeps hValue rfl hNames.wellFormed hLevelNames
    (hScope.enter.mono hNames)
  have hSound := ih hValue rfl hNames.wellFormed hLevelNames (hScope.enter.mono hNames)
  -- its type and the declared one
  obtain ⟨hAct, hPassAct⟩ := (monomorphize_records _ _).passage hActual hPass.last hPass.owned
  obtain ⟨hExp, hPassExp⟩ := (monomorphize_records _ _).passage hExpected hPassAct.last
    hPassAct.owned
  obtain ⟨hUnified, hPassUnify⟩ := (Unify.within_records _ _ _ _ _).passage hUnify hPassExp.last
    hPassExp.owned
  obtain ⟨hGen, hPassGen⟩ := (@Unify.generalize_records 0 _).passage hType hPassUnify.last
    hPassUnify.owned
  rw [monomorphize_apply] at hAct hExp
  cases hAct
  cases hExp
  cases hGen
  obtain ⟨hNarrows, ha, he, -⟩ := annotated_narrows (hNames.trans_univ (hKept.narrows _))
    hKept.covers ((hKept.narrows 0).covers hDeclared) Prod.mk.eta.symm Prod.mk.eta.symm
  obtain ⟨hTied, -⟩ := Unify.within_keeps hUnified hNarrows.wellFormed ha he (s.vars.level + 1)
  have hLevel' := (hNarrows.trans_univ hTied).one_le_level (one_le_level_enter _)
  have hPassType := ((hPassAct.trans hPassExp).trans hPassUnify).trans hPassGen
  obtain ⟨-, hClosed⟩ := (hSound.mono hPass.last hPassType).close hPassType.last
    (hTied.wellFormed.generalize _) (hPassGen.level ▸ hLevel')
  -- the node of the annotation, and those of the value as they were closed with the level
  refine SoundTree.wrap (fun d hd => ?_) hNode
  rw [Expr.infos_annot] at hd
  rcases List.mem_cons.1 hd with rfl | hd
  · exact hNode
  · exact hClosed d hd

/-- An error: what is inside keeps its types, and an error that stands alone has no level. -/
theorem error_sounds (info : Unit) (d : Diagnostic) (ih : Sounds config inner) :
    Sounds config (.error info d inner) := by
  intro scope h h' s s' out hRun hHead hp hLevel hScope
  obtain ⟨-, hNode⟩ := exprIn_node hRun hHead hp hLevel hScope
  by_cases hInner : inner = .missing
  · subst hInner
    cases hRun
    exact fun d hd => List.mem_singleton.1 hd ▸ hNode
  rw [exprIn] at hRun
  swap
  · exact hInner
  obtain ⟨tree, h₁, s₁, hAtLevel, hRun⟩ := Recorded.of_bind_ok hRun
  obtain ⟨h₂, s₂, hAct, rfl, rfl⟩ := Recorded.of_atLevel_ok hAtLevel
  obtain ⟨⟨innerTree, t⟩, h₃, s₃, hInnerRun, hAct⟩ := Recorded.of_bind_ok hAct
  cases hAct
  cases hRun
  -- the nodes inside are settled as the level of the error is left
  obtain ⟨hPass, hKept⟩ := exprIn_keeps hInnerRun rfl hp.enter (one_le_level_enter _) hScope.enter
  have hNarrows := hKept.narrows 0
  obtain ⟨-, hClosed⟩ := (ih hInnerRun rfl hp.enter (one_le_level_enter _) hScope.enter).close
    hPass.last hNarrows.wellFormed (hNarrows.one_le_level (one_le_level_enter _))
  intro d hd
  rw [Expr.infos_error] at hd
  rcases List.mem_cons.1 hd with rfl | hd
  · exact hNode
  · exact hClosed d hd

end

/-- What is kept of the nodes of a part of a program. -/
theorem exprIn_sound (config : Config) (e : Program) : Sounds config e := by
  induction e with
  | missing =>
    intro scope h h' s s' out hRun hHead hp hLevel hScope
    obtain ⟨_, h₁, s₁, -, hRun⟩ := Recorded.of_bind_ok hRun
    cases hRun
    exact fun d hd => absurd hd List.not_mem_nil
  | unknown =>
    intro scope h h' s s' out hRun hHead hp hLevel hScope
    obtain ⟨-, hNode⟩ := exprIn_node hRun hHead hp hLevel hScope
    obtain ⟨_, h₁, s₁, -, hRun⟩ := Recorded.of_bind_ok hRun
    cases hRun
    exact fun d hd => List.mem_singleton.1 hd ▸ hNode
  | var info x =>
    intro scope h h' s s' out hRun hHead hp hLevel hScope
    obtain ⟨hNode, hError⟩ := exprIn_node hRun hHead hp hLevel hScope
    rw [exprIn] at hRun
    cases hx : scope.find? x with
    | some t =>
      rw [hx] at hRun
      cases hRun
      exact fun d hd => List.mem_singleton.1 hd ▸ hNode
    | none =>
      rw [hx] at hRun
      cases hRun
      intro d hd
      rw [Expr.infos_error] at hd
      -- the error and the variable inside it have the same mark
      rcases List.mem_cons.1 hd with rfl | hd
      · exact hError
      · exact List.mem_singleton.1 hd ▸ hError
  | const info v =>
    intro scope h h' s s' out hRun hHead hp hLevel hScope
    cases hRun
    intro d hd
    obtain rfl := List.mem_singleton.1 hd
    exact Dated.sound_settled hHead fun x => by simp [Polytype.freeVars, Monotype.freeVars]
  | func info x body ih => exact func_sounds info x ih
  | call info callee arg ihCallee ihArg => exact call_sounds info ihCallee ihArg
  | letIn info x value body ihValue ihBody => exact letIn_sounds info x ihValue ihBody
  | annot info value declared ih => exact annot_sounds info declared ih
  | error info d inner ih => exact error_sounds info d ih

/-! ## Whole programs -/

/-- What is kept of the nodes of a whole program and of the names in its history. -/
structure Chronicled (scope : Scope) (e : Program) (tree : Expr Dated) (h : History) : Prop where
  tracks : ∀ d ∈ tree.infos, d.Tracks h
  forgotten : ∀ d ∈ tree.infos, ∀ x ∈ d.stamp.type.freeVars, h.births x ≤ 1 →
    Dated.ForgottenUnsolved h x
  births_scope : ∀ x ∈ scope.freeVars, h.births x ≤ 1
  births : ∀ x ∉ scope.freeVars, ∃ p q, h.births x ≤ e.introductions x + made x p q

/-- A run on a whole program can be recorded. -/
theorem treeIn_of_ok {config : Config} {scope : Scope} {e : Program} (he : e ≠ .missing)
    {sink : Sink} {out : Expr Stamp × Polytype} {s : Session}
    (hExpr : expr config scope e ⟨empty.enter.declare scope.freeVars.sorted, sink⟩ = .ok (out, s)) :
    ∃ dated h s', treeIn dates config scope e [.empty] ⟨.empty, sink⟩ = .ok ((dated, h), s') ∧
      dated.map Dated.stamp = out.1.map s.vars.settle ∧ Chronicled scope e dated h := by
  obtain ⟨hNarrows, hScope⟩ := scope_over scope
  have hLevel := hNarrows.one_le_level (one_le_level_enter _)
  -- the level that owns the names of the scope
  have hNew : ∀ x ∈ scope.freeVars.sorted, ¬ (empty.enter).Binds x := fun x _ => not_binds_empty x
  have hDeclare : Passage _ [empty.enter, .empty] [empty.enter.declare scope.freeVars.sorted,
      empty.enter, .empty] empty.enter (empty.enter.declare scope.freeVars.sorted) :=
    .of_advance rfl (advance_declare wellFormed_empty.enter.owned hNew)
  rcases expr_records config scope e [empty.enter.declare scope.freeVars.sorted, empty.enter,
    .empty] ⟨empty.enter.declare scope.freeVars.sorted, sink⟩ rfl hNarrows.wellFormed.owned with
    ⟨halt, -, hError⟩ | ⟨dated, h', s', hRun, hPart, hPass⟩
  · rw [hExpr] at hError
    cases hError
  · rw [hExpr] at hPart
    cases hPart
    have hSound := exprIn_sound config e hRun rfl hNarrows.wellFormed hLevel hScope
    have hKept := (run_of_ok hExpr).keeps hNarrows.wellFormed hLevel hScope
    have hWellFormed := (hKept.narrows 0).wellFormed
    obtain ⟨hOwned, hClosed⟩ :=
      hSound.close hPass.last hWellFormed ((hKept.narrows 0).one_le_level hLevel)
    -- in the end no name is in play
    have hEnd : (s.vars.settled (dated.1.map Dated.stamp)).leave.level = 0 :=
      (run_of_ok hExpr).clean.1
    have hNone (x : String) : ¬ (s.vars.settled (dated.1.map Dated.stamp)).leave.Binds x := by
      rintro ⟨e, he⟩
      have hPos := hOwned.level_pos he
      have hLe := hOwned.level_le he
      omega
    have hSettle : Passage 0 h' (s.vars.settled (dated.1.map Dated.stamp) :: h') s.vars _ :=
      .of_advance hPass.last (advance_failAll hPass.owned _)
    -- the recorded run, from the declaration to the end of the level
    have hInner : (do
        act (changeVars (·.declare scope.freeVars.sorted))
        let (e, _) ← exprIn dates config scope e
        recordSettle e : Recorded (Expr Dated)) [empty.enter, .empty] ⟨empty.enter, sink⟩ =
          .ok ((dated.1.map (Dated.settle s.vars (h'.length - 1)),
            s.vars.settled (dated.1.map Dated.stamp) :: h'),
            ⟨s.vars.settled (dated.1.map Dated.stamp), s.sink⟩) := by
      rw [Recorded.bind_of_ok (act_of_ok (changeVars_apply _ _)), Recorded.bind_of_ok hRun]
      exact recordSettle_apply _ _ _
    have hRecorded := atLevel_of_ok (h := [.empty]) (s := ⟨.empty, sink⟩) hInner
    rw [treeIn_of_ne dates config scope he]
    refine ⟨_, _, _, hRecorded, map_stamp_settle _ _ _, fun d hd => (hClosed d hd).toTracks,
      fun d hd x hx hOnce => ?_, fun x hx => ?_, fun x hx => ?_⟩
    · rcases (hClosed d hd).standing x hx hOnce with ⟨hBinds, -⟩ | ⟨-, hGone⟩
      · exact absurd hBinds (hNone x)
      · exact hGone
    · -- a name of the scope is born once, with the declaration
      have hBinds : (empty.enter.declare scope.freeVars.sorted).Binds x := by
        refine ⟨_, by rw [find?_declare, if_pos ⟨by simp [level_enter], ?_⟩]⟩
        exact NameSet.mem_sorted.2 hx
      rw [History.births_cons_of_not (hNone x), (hPass.trans hSettle).births_eq rfl hBinds]
      exact History.births_cons_le x _ [empty.enter, .empty]
    · -- any other name is born as often as it is introduced or made up, at most
      have hAll := Passage.atLevel (h := [.empty]) rfl wellFormed_empty.owned
        (hDeclare.trans (hPass.trans hSettle))
      have hNot : x ∉ scope.freeVars.sorted := fun hMem => hx (NameSet.mem_sorted.1 hMem)
      have hBirths := hAll.births x
      rw [if_neg hNot, show History.births x [.empty] = 0 from rfl] at hBirths
      exact ⟨.empty, (s.vars.settled (dated.1.map Dated.stamp)).leave, by simpa using hBirths⟩

end Infer

/-- The typed tree of a program with the past of each node, and the history of the variables. -/
def chronicle (config : Config) (sink : Sink) (scope : Scope) (program : Program) :
    Except Halt (Expr Dated × History) :=
  return (← Infer.treeIn Infer.dates config scope program [.empty] ⟨.empty, sink⟩).1

namespace Infer

open Prefix Recorded

/-- What inference returns can be recorded. -/
theorem chronicle_of_infer {config : Config} {sink : Sink} {scope : Scope} {e : Program}
    {r : Inferred} (h : infer config sink scope e = .ok r) :
    ∃ tree history, chronicle config sink scope e = .ok (tree, history) ∧
      r.tree = tree.map (·.stamp.type) ∧ Chronicled scope e tree history := by
  by_cases he : e = .missing
  · subst he
    cases hFault : fault config .emptyExpression ⟨.empty, sink⟩ with
    | error halt =>
      rw [infer, StateT.run, root_missing, Solve.bind_of_error hFault] at h
      cases h
    | ok out =>
      obtain ⟨_, s⟩ := out
      rw [infer, StateT.run, root_missing, Solve.bind_of_ok hFault] at h
      cases h
      have hRecorded : treeIn dates config scope .missing [.empty] ⟨.empty, sink⟩ =
          .ok ((.missing, [s.vars, .empty]), s) :=
        Recorded.bind_of_ok (act_of_ok hFault)
      refine ⟨.missing, [s.vars, .empty], ?_, rfl, ?_⟩
      · rw [chronicle, hRecorded]
        rfl
      · -- no node, so there is nothing to say about types
        obtain rfl := of_fault_ok hFault
        have hNone (d : Dated) : d ∉ (Expr.missing : Expr Dated).infos := List.not_mem_nil
        exact ⟨fun d hd => absurd hd (hNone d), fun d hd => absurd hd (hNone d),
          fun x _ => Nat.zero_le 1, fun x _ => ⟨.empty, .empty, Nat.zero_le _⟩⟩
  · cases hExpr : expr config scope e ⟨empty.enter.declare scope.freeVars.sorted, sink⟩ with
    | error halt =>
      rw [infer, StateT.run, root_of_error he hExpr] at h
      cases h
    | ok out =>
      obtain ⟨hLevel, hSize, hFailures, -⟩ := (run_of_ok hExpr).clean
      rw [infer, StateT.run, root_of_ok he hExpr hLevel hSize hFailures] at h
      cases h
      -- the same run with dates; at its end nothing is left that could be reported
      obtain ⟨dated, history, s', hRecorded, hStamps, hKept⟩ := treeIn_of_ok he hExpr
      refine ⟨dated, history, ?_, ?_, hKept⟩
      · rw [chronicle, hRecorded]
        rfl
      · show (out.1.1.map out.2.vars.settle).map (·.type) = dated.map (·.stamp.type)
        rw [← hStamps, Expr.map_map]

end Infer

theorem Expr.introductions_eq_zero {α : Type} {e : Expr α} {x : String}
    (h : ∀ t ∈ e.declaredTypes, x ∉ t.freeVars) : e.introductions x = 0 := by
  induction e with
  | missing => rfl
  | unknown => rfl
  | var a y => rfl
  | const a v => rfl
  | func a y body ih => exact ih h
  | call a callee arg ihCallee ihArg =>
    rw [introductions, ihCallee fun t ht => h t (List.mem_append_left _ ht),
      ihArg fun t ht => h t (List.mem_append_right _ ht)]
  | letIn a y value body ihValue ihBody =>
    rw [introductions, ihValue fun t ht => h t (List.mem_append_left _ ht),
      ihBody fun t ht => h t (List.mem_append_right _ ht)]
  | annot a value declared ih =>
    rw [introductions, if_neg (h declared (List.mem_append_right _ (by simp))),
      ih fun t ht => h t (List.mem_append_left _ ht)]
  | error a d inner ih => exact ih h

namespace Infer

open Prefix

/-- No solved variable is left in a type: if no name of the scope or of an annotation looks made up,
a made-up name in the type of a node was forgotten with a bound that is no monotype, and it was
forgotten once. -/
theorem infer_forgets_unsolved {config : Config} {sink : Sink} {scope : Scope} {e : Program}
    {r : Inferred} (hr : infer config sink scope e = .ok r)
    (hScope : ∀ y ∈ scope.freeVars, Supply.isGenerated y = false)
    (hWritten : ∀ t ∈ e.declaredTypes, ∀ y ∈ t.freeVars, Supply.isGenerated y = false) :
    ∃ tree history, chronicle config sink scope e = .ok (tree, history) ∧
      r.tree = tree.map (·.stamp.type) ∧
      ∀ t ∈ r.tree.infos, ∀ i, Supply.numbered i ∈ t.freeVars →
        (∃ k entry, history.Pops k (Supply.numbered i) entry) ∧
          ∀ k entry, history.Pops k (Supply.numbered i) entry → entry.bound.type.mono? = none := by
  obtain ⟨tree, history, hRecorded, hTree, hKept⟩ := chronicle_of_infer hr
  refine ⟨tree, history, hRecorded, hTree, fun t ht i hi => ?_⟩
  rw [hTree, Expr.infos_map] at ht
  obtain ⟨d, hd, rfl⟩ := List.mem_map.1 ht
  -- what is made up is not written, so it is born once
  have hOnce : history.births (Supply.numbered i) ≤ 1 := by
    obtain ⟨p, q, hBirths⟩ := hKept.births (Supply.numbered i) fun hMem =>
      Supply.ne_numbered_of_written (hScope _ hMem) i rfl
    rw [Expr.introductions_eq_zero fun t ht hMem =>
      Supply.ne_numbered_of_written (hWritten t ht _ hMem) i rfl] at hBirths
    have hMade := made_le_one (Supply.numbered i) p q
    omega
  obtain ⟨k, entry, hPops, hUnsolved⟩ := hKept.forgotten d hd _ hi hOnce
  refine ⟨⟨k, entry, hPops⟩, fun k' entry' hPops' => ?_⟩
  rw [hPops.unique hOnce hPops']
  exact hUnsolved

/-- A function is applied to an argument of unknown type: `$3` is left in the type of the call. -/
theorem infer_forgets_unsolved_result : ∃ r tree history,
    infer ⟨true, 8⟩ (.collect []) ∅
      (.func () "f" (.func () "x" (.call () (.var () "f") (.var () "x")))) = .ok r ∧
    r.tree.infos[2]? = some (.mono (.var (Supply.numbered 2))) ∧
    chronicle ⟨true, 8⟩ (.collect []) ∅
      (.func () "f" (.func () "x" (.call () (.var () "f") (.var () "x")))) = .ok (tree, history) ∧
    r.tree = tree.map (·.stamp.type) ∧
    ∃ k entry, history.Pops k (Supply.numbered 2) entry ∧ entry.bound.type.mono? = none := by
  obtain ⟨r, hr, hNode⟩ : ∃ r, infer ⟨true, 8⟩ (.collect []) ∅
      (.func () "f" (.func () "x" (.call () (.var () "f") (.var () "x")))) = .ok r ∧
        r.tree.infos[2]? = some (.mono (.var (Supply.numbered 2))) :=
    ⟨_, by unfold infer Infer.root; cbv, by cbv⟩
  obtain ⟨tree, history, hRecorded, hTree, hAll⟩ := infer_forgets_unsolved hr
    (fun y hy => absurd hy List.not_mem_nil) (fun t ht => absurd ht List.not_mem_nil)
  obtain ⟨⟨k, entry, hPops⟩, hUnsolved⟩ := hAll _ (List.mem_of_getElem? hNode) 2
    (by simp [Polytype.freeVars, Monotype.freeVars])
  exact ⟨r, tree, history, hr, hNode, hRecorded, hTree, k, entry, hPops, hUnsolved k entry hPops⟩

/-- A name of the scope is never taken for another variable in the type of a node, and neither is
one that is only written or only made up, if no two annotations introduce it side by side. -/
theorem infer_keeps_apart {config : Config} {sink : Sink} {scope : Scope} {e : Program}
    {r : Inferred} (hr : infer config sink scope e = .ok r) :
    ∃ tree history, chronicle config sink scope e = .ok (tree, history) ∧
      r.tree = tree.map (·.stamp.type) ∧
      ∀ x, (x ∈ scope.freeVars ∨ e.introductions x = 0 ∨
          e.introductions x = 1 ∧ ∀ i, x ≠ Supply.numbered i) →
        ∀ d ∈ tree.infos, d.KeepsApart history x := by
  obtain ⟨tree, history, hRecorded, hTree, hKept⟩ := chronicle_of_infer hr
  refine ⟨tree, history, hRecorded, hTree, fun x hx d hd => (hKept.tracks d hd).keepsApart ?_⟩
  -- a name of the scope is born once
  by_cases hMem : x ∈ scope.freeVars
  · exact hKept.births_scope x hMem
  · obtain ⟨p, q, hBirths⟩ := hKept.births x hMem
    rcases hx with hx | hNone | ⟨hOne, hNew⟩
    · exact absurd hx hMem
    · -- only made up, and then only introduced: at most once in either case
      have hMade := made_le_one x p q
      omega
    · rw [made_eq_zero hNew] at hBirths
      omega

/-- A name that is introduced once, and used again within. -/
theorem infer_keeps_apart_nested : ∃ (e : Program) (r : Inferred) (tree : Expr Dated)
    (history : History),
    e = .func () "w" (.annot () (.annot () (.var () "w") (.mono (.fn (.var "T") (.var "T"))))
      (.mono (.fn (.var "T") (.var "T")))) ∧
    e.introductions "T" = 1 ∧ infer ⟨true, 8⟩ (.collect []) ∅ e = .ok r ∧
    chronicle ⟨true, 8⟩ (.collect []) ∅ e = .ok (tree, history) ∧
    r.tree = tree.map (·.stamp.type) ∧ ∀ d ∈ tree.infos, d.KeepsApart history "T" := by
  let e : Program := .func () "w" (.annot () (.annot () (.var () "w")
    (.mono (.fn (.var "T") (.var "T")))) (.mono (.fn (.var "T") (.var "T"))))
  obtain ⟨r, hr⟩ : ∃ r, infer ⟨true, 8⟩ (.collect []) ∅ e = .ok r :=
    ⟨_, by unfold infer Infer.root; cbv⟩
  obtain ⟨tree, history, hRecorded, hTree, hAll⟩ := infer_keeps_apart hr
  have hOnce : e.introductions "T" = 1 := by cbv
  -- no made-up name is a letter
  have hWritten (i : Nat) : "T" ≠ Supply.numbered i :=
    (Supply.ne_numbered_of_written (by decide) i).symm
  exact ⟨e, r, tree, history, rfl, hOnce, hr, hRecorded, hTree,
    hAll "T" (Or.inr (Or.inr ⟨hOnce, hWritten⟩))⟩

/-- A name is taken for another variable. The first annotation introduces `T`, which is forgotten
with it, but the node within stays pending because of `U`. The second one introduces `T` again,
where it comes to be the type of numbers, and then that is put into the pending node. -/
theorem infer_mistakes_wildcard : ∃ (scope : Scope) (e : Program) (r : Inferred)
    (tree : Expr Dated) (history : History) (d : Dated),
    scope.toList = [("v", .all "a" .flexible .bottom (.mono (.var "a"))), ("u", .mono (.var "U"))] ∧
    e = .func () "w"
      (.letIn () "p" (.annot () (.annot () (.var () "v") (.mono (.fn (.var "T") (.var "U"))))
        (.mono (.fn (.var "T") (.var "U"))))
      (.letIn () "q" (.annot () (.var () "w") (.mono (.fn (.var "T") (.var "T"))))
      (.call () (.var () "w") (.const () (.number (.finite false 5 0)))))) ∧
    infer ⟨true, 8⟩ (.collect []) scope e = .ok r ∧
    chronicle ⟨true, 8⟩ (.collect []) scope e = .ok (tree, history) ∧
    r.tree = tree.map (·.stamp.type) ∧ d ∈ tree.infos ∧
    d.stamp.type = .mono (.fn (.const .number) (.var "U")) ∧ ¬ d.KeepsApart history "T" := by
  let scope : Scope :=
    ⟨[("v", .all "a" .flexible .bottom (.mono (.var "a"))), ("u", .mono (.var "U"))], by simp⟩
  let e : Program := .func () "w"
    (.letIn () "p" (.annot () (.annot () (.var () "v") (.mono (.fn (.var "T") (.var "U"))))
      (.mono (.fn (.var "T") (.var "U"))))
    (.letIn () "q" (.annot () (.var () "w") (.mono (.fn (.var "T") (.var "T"))))
    (.call () (.var () "w") (.const () (.number (.finite false 5 0))))))
  obtain ⟨r, hr⟩ : ∃ r, infer ⟨true, 8⟩ (.collect []) scope e = .ok r :=
    ⟨_, by unfold infer Infer.root; cbv⟩
  obtain ⟨tree, history, hRecorded, hTree, -⟩ := chronicle_of_infer hr
  -- the past of the pending node, and whether `T` is in play at two times
  have hLook : (chronicle ⟨true, 8⟩ (.collect []) scope e).toOption.map (fun out =>
      (out.1.infos[3]?.map fun d => (d.stamp.type, d.past.drop 1),
        (out.2.at? 38).map (·.entries.contains "T"), (out.2.at? 84).map (·.entries.contains "T"))) =
      some (some (.mono (.fn (.const .number) (.var "U")),
        [(84, .mono (.fn (.const .number) (.var "U"))), (36, .mono (.fn (.var "T") (.var "U"))),
          (21, .mono (.fn (.var "T") (.var "U")))]), some false, some true) := by
    unfold chronicle Infer.treeIn
    cbv
  rw [hRecorded] at hLook
  simp only [Except.toOption, Option.map_some, Option.some.injEq, Prod.mk.injEq,
    Option.map_eq_some_iff] at hLook
  obtain ⟨⟨d, hd, hType, hPast⟩, ⟨p, hp, hGone⟩, q, hq, hBack⟩ := hLook
  refine ⟨scope, e, r, tree, history, d, rfl, rfl, hr, hRecorded, hTree, List.mem_of_getElem? hd,
    hType, fun hApart => ?_⟩
  have hSplit := (List.take_append_drop 1 d.past).symm
  rw [hPast] at hSplit
  obtain ⟨p', hp', hBinds⟩ := hApart _ 84 _ [] 36 _ _ hSplit
    (by simp [Polytype.freeVars, Monotype.freeVars]) (by simp)
    ⟨q, hq, mem_keys_iff.1 (NameMap.mem_keys.2 hBack)⟩ 38 (by omega) (by omega)
  rw [hp] at hp'
  obtain rfl := Option.some.inj hp'
  rw [NameMap.mem_keys.1 (mem_keys_iff.2 hBinds)] at hGone
  cases hGone

end Infer

end Mlf
