import Mathlib
import Mlf.Proofs.LetChains
import Mlf.Proofs.RecordedRuns

/-!
# Inference in place is inference

Inference that puts types on a board comes to the same as inference that keeps them in the tree. At any
moment, a node of the tree carries the type that its number has on the board, and this type may still
change if the number is on the list of the current level. A part that runs later owns other nodes, so
it leaves alone what a part before it has returned. When a level is left, what waits on the board and
what is not settled in the tree is resolved in the same variables.

Together with the comparison of loop and rule on boards, this says that the loops for chains of local
definitions come to the same as the rules that take one definition at a time.

Main results:

* `Pass.Tracks` — a part of inference in place that follows a part of inference, with a rule for each
  step;
* `InPlace.each_tracks`, `InPlace.loop_tracks` — inference in place follows inference, by the rule and
  in a loop;
* `InPlace.root_eq` — the same for whole programs;
* `InPlace.loops_follow_rules` — loops and rules, for inference, walks and copies.
-/

namespace Mlf

open Solve

/-- Only the values at the marks of an expression matter for a change of marks. -/
theorem Expr.map_congr {α β : Type} {f g : α → β} {e : Expr α} (h : ∀ a ∈ e.infos, f a = g a) :
    e.map f = e.map g := by
  induction e with
  | missing => rfl
  | unknown => rfl
  | var a x => rw [map, map, h a (List.mem_singleton.2 rfl)]
  | const a v => rw [map, map, h a (List.mem_singleton.2 rfl)]
  | func a x b ih =>
    -- from here on, the mark of the node first and then those of its parts
    rw [infos_func, List.forall_mem_cons] at h
    rw [map, map, h.1, ih h.2]
  | call a c d ihc ihd =>
    rw [infos_call, List.forall_mem_cons, List.forall_mem_append] at h
    rw [map, map, h.1, ihc h.2.1, ihd h.2.2]
  | letIn a x v b ihv ihb =>
    rw [infos_letIn, List.forall_mem_cons, List.forall_mem_append] at h
    rw [map, map, h.1, ihv h.2.1, ihb h.2.2]
  | annot a v t ih =>
    rw [infos_annot, List.forall_mem_cons] at h
    rw [map, map, h.1, ih h.2]
  | error a d e ih =>
    rw [infos_error, List.forall_mem_cons] at h
    rw [map, map, h.1, ih h.2]

theorem Solve.bind_congr {α β : Type} {m m' : Solve α} {s : Session} (h : m s = m' s)
    (next : α → Solve β) : (m >>= next) s = (m' >>= next) s := by
  cases hm : m s with
  | error halt => rw [Solve.bind_of_error hm, Solve.bind_of_error (h.symm.trans hm)]
  | ok out => rw [Solve.bind_of_ok hm, Solve.bind_of_ok (h.symm.trans hm)]

namespace Board

variable {own : Set Nat} {b c : Board} {n : Nat} {t : Polytype}

/-- What a node carries while inference goes on: its type on the board, which may still change if the
node waits for the current level to be left. -/
def stampOf (b : Board) (n : Nat) : Stamp := ⟨b.types n, decide (n ∈ b.top)⟩

theorem Ready.not_mem_top (hReady : b.Ready own) (hn : n ∈ own ∨ b.next ≤ n) : n ∉ b.top := by
  -- what waits at the current level waits
  have hSub : n ∈ b.top → n ∈ b.pending.flatten := by
    unfold top
    cases b.pending with
    | nil => exact id
    | cons ns rest => exact fun hMem => List.mem_append_left _ hMem
  intro hMem
  rcases hn with hn | hn
  · exact hReady.own_free n hn (hSub hMem)
  · exact absurd (hReady.lt_next n (hSub hMem)) (by omega)

/-- A part of inference leaves the stamps of nodes that it does not own. -/
theorem Grows.stampOf (h : b.Grows own c) (hLt : n < b.next) (hOwn : n ∉ own) :
    c.stampOf n = b.stampOf n := by
  obtain ⟨new, hPending, -, hNew⟩ := h.pending
  -- what is added to the list is owned or new
  have hFresh : n ∉ new := fun hn => (hNew n hn).2.elim hOwn hLt.not_ge
  have hTop : n ∈ c.top ↔ n ∈ b.top := by
    unfold top
    rw [hPending]
    cases b.pending with
    | nil => rfl
    | cons ns rest => simp [hFresh]
  unfold Board.stampOf
  rw [h.types n hLt hOwn]
  simp only [hTop]

theorem Grows.level (h : b.Grows own c) (hLevel : b.pending ≠ []) : c.pending ≠ [] := by
  obtain ⟨new, hPending, -⟩ := h.pending
  rw [hPending]
  cases hb : b.pending with
  | nil => exact absurd hb hLevel
  | cons ns rest => simp

theorem types_left (c : Board) (p : Prefix) (n : Nat) :
    (c.left p).types n = (p.settle (c.stampOf n)).type := by
  unfold Board.stampOf Prefix.settle
  by_cases hMem : n ∈ c.top
  · simp [hMem, Board.left, resolve]
  · simp [hMem, Board.left, resolve]

/-- The stamp of a node after a level is left. -/
theorem Grows.stampOf_left (h : b.entered.Grows own c) (hLevel : b.pending ≠ []) (hn : n ∉ b.top)
    (p : Prefix) : (c.left p).stampOf n = p.settle (c.stampOf n) := by
  obtain ⟨new, hPending, -⟩ := h.pending
  -- the node was not on the list around, so it gets there from the list of this level only
  have hTop : n ∈ (c.left p).top ↔ n ∈ c.top ∧ p.mentionsOlder (p.resolved (c.types n)) = true := by
    have hTail : (c.left p).pending = b.pending.modifyHead
        (· ++ c.top.filter fun n => p.mentionsOlder (p.resolved (c.types n))) := by
      rw [Board.left, resolve, hPending]
      rfl
    unfold top at hn ⊢
    rw [hTail]
    cases hb : b.pending with
    | nil => exact absurd hb hLevel
    | cons ns rest =>
      rw [hb] at hn
      simp only [List.modifyHead_cons, List.headD_cons, List.mem_append, List.mem_filter] at hn ⊢
      exact ⟨fun hMem => hMem.resolve_left hn, Or.inr⟩
  unfold Board.stampOf
  rw [types_left]
  unfold Board.stampOf Prefix.settle
  -- waiting or not
  by_cases hMem : n ∈ c.top
  · simp [hTop, hMem]
  · simp [hTop, hMem]

theorem stampOf_stamp (hLevel : b.pending ≠ []) (hn : n ∉ b.top) (t : Polytype) :
    (b.stamp n t).stampOf n = .of t := by
  unfold Board.top at hn
  rw [stamp_eq]
  unfold Board.stampOf Stamp.of stampAll top
  dsimp only
  -- with a level open, the node joins its list if the type is pending
  cases hb : b.pending with
  | nil => exact absurd hb hLevel
  | cons ns rest =>
    rw [hb] at hn
    split_ifs <;> simp_all

theorem stampOf_assign (hn : n ∉ b.top) (t : Polytype) : (b.assign n t).stampOf n = .settled t := by
  have hTop : (b.assign n t).top = b.top := rfl
  unfold Board.stampOf
  rw [hTop]
  simp [hn, assign, Stamp.settled]

end Board

/-! ## Following inference -/

/-- Something made up of nodes that is read as something made up of stamps. -/
structure View (γ δ : Type) where
  look : (Nat → Stamp) → γ → δ
  nodes : γ → Set Nat
  congr : ∀ {f g : Nat → Stamp} {a : γ}, (∀ n ∈ nodes a, f n = g n) → look f a = look g a

/-- An expression is read node by node. -/
def View.tree : View (Expr Nat) (Expr Stamp) where
  look f e := e.map f
  nodes := Expr.nodes
  congr h := Expr.map_congr h

/-- Two things are read one beside the other. -/
def View.pair {γ γ' δ δ' : Type} (R : View γ δ) (S : View γ' δ') :
    View (γ × γ') (δ × δ') where
  look f a := (R.look f a.1, S.look f a.2)
  nodes a := R.nodes a.1 ∪ S.nodes a.2
  congr h := by rw [R.congr fun n hn => h n (Or.inl hn), S.congr fun n hn => h n (Or.inr hn)]

namespace Pass

variable {γ γ' δ δ' ρ ρ' α : Type} {R : View γ δ} {S : View γ' δ'} {own own₁ own₂ : Set Nat}
  {b : Board} {s : Session} {m : Pass (γ × ρ)} {k : Solve (δ × ρ)}

/-- A part of inference in place follows a part of inference: it stops for the same reason, or it
returns what is read as the result of the other, leaves the same in play, and has touched nothing but
its own nodes. -/
def Tracks (R : View γ δ) (own : Set Nat) (b : Board) (s : Session) (m : Pass (γ × ρ))
    (k : Solve (δ × ρ)) : Prop :=
  (∃ halt, m b s = .error halt ∧ k s = .error halt) ∨
  ∃ a r c s', m b s = .ok (((a, r), c), s') ∧ k s = .ok ((R.look c.stampOf a, r), s') ∧
    b.Grows own c ∧ ∀ n ∈ R.nodes a, n < c.next ∧ (n ∈ own ∨ b.next ≤ n)

theorem Tracks.act_bind {part : Solve α} {m : α → Pass (γ × ρ)} {k : α → Solve (δ × ρ)}
    (h : ∀ a s', part s = .ok (a, s') → Tracks R own b s' (m a) (k a)) :
    Tracks R own b s (act part >>= m) (part >>= k) := by
  cases hPart : part s with
  | error halt =>
    exact Or.inl ⟨halt, bind_of_error (act_of_error hPart), Solve.bind_of_error hPart⟩
  | ok out =>
    unfold Tracks
    rw [bind_of_ok (act_of_ok hPart), Solve.bind_of_ok hPart]
    exact h out.1 out.2 hPart

/-- What comes after and has nothing to do with the board. -/
theorem Tracks.bind_act (h : Tracks R own b s m k) (part : ρ → Solve ρ') :
    Tracks R own b s (m >>= fun out => act (part out.2) >>= fun r => pure (out.1, r))
      (k >>= fun out => part out.2 >>= fun r => pure (out.1, r)) := by
  rcases h with ⟨halt, hm, hk⟩ | ⟨a, r, c, s', hm, hk, hGrows, hNodes⟩
  · exact Or.inl ⟨halt, bind_of_error hm, Solve.bind_of_error hk⟩
  · unfold Tracks
    rw [bind_of_ok hm, Solve.bind_of_ok hk]
    cases hPart : part r s' with
    | error halt =>
      exact Or.inl ⟨halt, bind_of_error (act_of_error hPart), Solve.bind_of_error hPart⟩
    | ok out =>
      rw [bind_of_ok (act_of_ok hPart), Solve.bind_of_ok hPart]
      exact Or.inr ⟨a, out.1, c, out.2, rfl, rfl, hGrows, hNodes⟩

/-- Two parts one after the other. The second one leaves alone what the first one has returned. -/
theorem Tracks.both {m' : ρ → Pass (γ' × ρ')} {k' : ρ → Solve (δ' × ρ')} (h : Tracks R own₁ b s m k)
    (hReady : b.Ready (own₁ ∪ own₂)) (hDisjoint : Disjoint own₁ own₂)
    (hNext : ∀ v r c s', k s = .ok ((v, r), s') → b.Grows own₁ c → c.Ready own₂ →
      Tracks S own₂ c s' (m' r) (k' r)) :
    Tracks (R.pair S) (own₁ ∪ own₂) b s
      (m >>= fun out => m' out.2 >>= fun out' => pure ((out.1, out'.1), out.2, out'.2))
      (k >>= fun out => k' out.2 >>= fun out' => pure ((out.1, out'.1), out.2, out'.2)) := by
  rcases h with ⟨halt, hm, hk⟩ | ⟨a, r, c, s', hm, hk, hGrows, hNodes⟩
  · exact Or.inl ⟨halt, bind_of_error hm, Solve.bind_of_error hk⟩
  · -- the nodes of the second part do not wait yet
    have hReady' := hReady.grows hDisjoint hGrows
    unfold Tracks
    rw [bind_of_ok hm, Solve.bind_of_ok hk]
    rcases hNext _ r c s' hk hGrows hReady' with
      ⟨halt, hm', hk'⟩ | ⟨a', r', d, s'', hm', hk', hGrows', hNodes'⟩
    · exact Or.inl ⟨halt, bind_of_error hm', Solve.bind_of_error hk'⟩
    · rw [bind_of_ok hm', Solve.bind_of_ok hk']
      have hLe := hGrows.next_le
      have hLe' := hGrows'.next_le
      -- what the first part has returned is its own or was built by it
      have hFirst : R.look d.stampOf a = R.look c.stampOf a := by
        refine R.congr fun n hn => hGrows'.stampOf (hNodes n hn).1 fun hOwn => ?_
        rcases (hNodes n hn).2 with hn | hn
        · exact hDisjoint.notMem_of_mem_left hn hOwn
        · exact absurd (hReady.own_lt n (Or.inr hOwn)) (by omega)
      refine Or.inr ⟨(a, a'), (r, r'), d, s'', rfl, ?_, hGrows.trans hGrows' hReady'
        Set.subset_union_left fun n hn => Or.inl (Or.inr hn), fun n hn => ?_⟩
      · show _ = Except.ok (((R.look d.stampOf a, _), _), _)
        rw [hFirst]
        rfl
      · rcases hn with hn | hn
        · exact ⟨(hNodes n hn).1.trans_le hLe', (hNodes n hn).2.imp_left Or.inl⟩
        · exact ⟨(hNodes' n hn).1, (hNodes' n hn).2.imp Or.inr hLe.trans⟩

/-- A level is left by resolving all that is read. -/
theorem Tracks.atLevel (h : Tracks R own b.entered ⟨s.vars.enter, s.sink⟩ m k) (hReady : b.Ready own)
    (hLevel : b.pending ≠ []) (settle : δ → Solve δ)
    (hSettle : ∀ (f : Nat → Stamp) (a : γ) (s : Session), s.vars.Acyclic →
      settle (R.look f a) s = .ok (R.look (fun n => s.vars.settle (f n)) a, s))
    (hAcyclic : ∀ v s', k ⟨s.vars.enter, s.sink⟩ = .ok (v, s') → s'.vars.Acyclic) :
    Tracks R own b s (atLevel m)
      (Solve.atLevel (k >>= fun out => settle out.1 >>= fun v => pure (v, out.2))) := by
  rcases h with ⟨halt, hm, hk⟩ | ⟨a, r, c, s', hm, hk, hGrows, hNodes⟩
  · exact Or.inl ⟨halt, atLevel_of_error hm, Solve.atLevel_of_error (Solve.bind_of_error hk)⟩
  · have hNone := hAcyclic _ _ hk
    have hEnd : c.Ready ∅ := (hReady.entered.mono (by simp)).grows (Set.disjoint_empty own) hGrows
    -- what is read after the level is what is read before, settled
    have hLook : R.look (c.left s'.vars).stampOf a =
        R.look (fun n => s'.vars.settle (c.stampOf n)) a := by
      refine R.congr fun n hn => hGrows.stampOf_left hLevel ?_ s'.vars
      exact hReady.not_mem_top (hNodes n hn).2
    refine Or.inr ⟨a, r, c.left s'.vars, ⟨s'.vars.leave, s'.sink⟩, ?_, ?_, hGrows.left _, hNodes⟩
    · rw [atLevel_of_ok hm hEnd.nodup_top, failures_of_acyclic hNone, Prefix.failAll_nil]
    · rw [hLook]
      refine Solve.atLevel_of_ok ?_
      rw [Solve.bind_of_ok hk, Solve.bind_of_ok (hSettle _ a s' hNone)]
      rfl

/-- A node that gets its type after its parts are done, which it leaves as they are. -/
theorem stampOf_stamped {n : Nat} {c : Board} (hReady : b.Ready (own ∪ {n})) (hn : n ∉ own)
    (hLevel : b.pending ≠ []) (hGrows : b.Grows own c) (t : Polytype) :
    b.Grows (own ∪ {n}) (c.stamp n t) ∧ (c.stamp n t).stampOf n = .of t ∧
      ∀ j < c.next, (j ∈ own ∨ b.next ≤ j) → (c.stamp n t).stampOf j = c.stampOf j := by
  have hReady' : c.Ready {n} := hReady.grows (Set.disjoint_singleton_right.2 hn) hGrows
  have hStamp : c.Grows {n} (c.stamp n t) := Board.grows_stamp (hReady'.own_lt n rfl) t
  have hLt : n < b.next := hReady.own_lt n (Or.inr rfl)
  refine ⟨hGrows.trans hStamp hReady' Set.subset_union_left fun j hj => Or.inl (Or.inr hj),
    Board.stampOf_stamp (hGrows.level hLevel) (hReady'.not_mem_top (Or.inl rfl)) t, ?_⟩
  intro j hj hOwn
  refine hStamp.stampOf hj fun hEq => ?_
  obtain rfl := Set.mem_singleton_iff.1 hEq
  rcases hOwn with hOwn | hLe
  · exact hn hOwn
  · omega

/-- An expression is wrapped into a new node, or stays as it is. -/
theorem mark_apply {c : Board} (hReady : c.Ready ∅) (hLevel : c.pending ≠ []) (verdict : Verdict)
    (t : Polytype) {e : Expr Nat} (he : ∀ n ∈ e.nodes, n < c.next) (s : Session) :
    ∃ e' d, InPlace.mark verdict t e c s = .ok ((e', d), s) ∧ c.Grows ∅ d ∧
      e'.map d.stampOf = Infer.wrap verdict (.of t) (e.map c.stampOf) ∧
      ∀ n ∈ e'.nodes, n < d.next ∧ (n ∈ e.nodes ∨ c.next ≤ n) := by
  cases verdict with
  | none => exact ⟨e, c, rfl, .refl ∅ c, rfl, fun n hn => ⟨he n hn, Or.inl hn⟩⟩
  | some r =>
    have hReady' := hReady.build
    -- a node is built and then stamped
    have hStamp : c.build.2.Grows {c.next} (c.build.2.stamp c.next t) :=
      Board.grows_stamp (hReady'.own_lt _ rfl) t
    have hGrows : c.Grows ∅ (c.build.2.stamp c.next t) :=
      c.grows_build.trans hStamp hReady' le_rfl fun n hn => Or.inr (Set.mem_singleton_iff.1 hn).ge
    refine ⟨.error c.next r e, c.build.2.stamp c.next t, rfl, hGrows, ?_, fun n hn => ?_⟩
    · -- the error is a new node, and the expression in it is read as before
      have hLevel' : c.build.2.pending ≠ [] := hLevel
      have hNew : (c.build.2.stamp c.next t).stampOf c.next = .of t :=
        Board.stampOf_stamp hLevel' (hReady'.not_mem_top (Or.inl rfl)) t
      have hOld : e.map (c.build.2.stamp c.next t).stampOf = e.map c.stampOf :=
        Expr.map_congr fun n hn => hGrows.stampOf (he n hn) (Set.notMem_empty n)
      rw [Expr.map, hNew, hOld]
      rfl
    · have hLe : c.next + 1 ≤ (c.build.2.stamp c.next t).next := hStamp.next_le
      rw [Expr.nodes_error] at hn
      rcases hn with hn | hn
      · have hLt := he n hn
        exact ⟨by omega, Or.inl hn⟩
      · obtain rfl := Set.mem_singleton_iff.1 hn
        exact ⟨by omega, Or.inr le_rfl⟩

/-- A node that gets its type after its parts are done, and is wrapped into an error if there is a
report. -/
theorem Tracks.node {n : Nat} (h : Tracks R own b s m k) (hReady : b.Ready (own ∪ {n})) (hn : n ∉ own)
    (hLevel : b.pending ≠ []) (whole : γ → Expr Nat) (whole' : Stamp → δ → Expr Stamp)
    (hWhole : ∀ f a, (whole a).map f = whole' (f n) (R.look f a))
    (hNodes : ∀ a, (whole a).nodes ⊆ R.nodes a ∪ {n})
    (t : ρ → Polytype) (verdict : ρ → Verdict) (event : ρ → Solve Unit) :
    Tracks .tree (own ∪ {n}) b s
      (m >>= fun out => stamp n (t out.2) >>= fun _ => act (event out.2) >>= fun _ =>
        InPlace.mark (verdict out.2) (t out.2) (whole out.1) >>= fun e => pure (e, t out.2))
      (k >>= fun out => event out.2 >>= fun _ => pure
        (Infer.wrap (verdict out.2) (.of (t out.2)) (whole' (.of (t out.2)) out.1), t out.2)) := by
  rcases h with ⟨halt, hm, hk⟩ | ⟨a, r, c, s', hm, hk, hGrows, hParts⟩
  · exact Or.inl ⟨halt, bind_of_error hm, Solve.bind_of_error hk⟩
  obtain ⟨hStamp, hNew, hOld⟩ := stampOf_stamped hReady hn hLevel hGrows (t r)
  have hReady' : (c.stamp n (t r)).Ready ∅ :=
    (hReady.mono (by simp)).grows (Set.disjoint_empty _) hStamp
  have hLt : n < b.next := hReady.own_lt n (Or.inr rfl)
  have hNext : (c.stamp n (t r)).next = c.next := by rw [Board.stamp_eq]; rfl
  -- the nodes of the whole are those of the parts and the node itself
  have hAll : ∀ j ∈ (whole a).nodes, j < c.next ∧ (j ∈ own ∪ {n} ∨ b.next ≤ j) := by
    intro j hj
    rcases hNodes a hj with hj | hj
    · exact ⟨(hParts j hj).1, (hParts j hj).2.imp_left Or.inl⟩
    · obtain rfl := Set.mem_singleton_iff.1 hj
      exact ⟨hLt.trans_le hGrows.next_le, Or.inl (Or.inr rfl)⟩
  unfold Tracks
  rw [bind_of_ok hm, Solve.bind_of_ok hk, bind_of_ok (rfl : stamp n (t r) c s' = _)]
  cases hEvent : event r s' with
  | error halt =>
    exact Or.inl ⟨halt, bind_of_error (act_of_error hEvent), Solve.bind_of_error hEvent⟩
  | ok out =>
    rw [bind_of_ok (act_of_ok hEvent), Solve.bind_of_ok hEvent]
    -- the node may be wrapped into an error, which is a node of its own
    obtain ⟨e', d, hMark, hGrows', hRead, hNodes'⟩ := mark_apply hReady' (hStamp.level hLevel)
      (verdict r) (t r) (fun j hj => (hAll j hj).1.trans_eq hNext.symm) out.2
    have hLe := hStamp.next_le
    refine Or.inr ⟨e', t r, d, out.2, ?_, ?_, hStamp.trans hGrows' hReady' le_rfl (by simp), ?_⟩
    · rw [bind_of_ok hMark]
      rfl
    · show _ = Except.ok ((e'.map d.stampOf, t r), out.2)
      have hLook : R.look (c.stamp n (t r)).stampOf a = R.look c.stampOf a :=
        R.congr fun j hj => hOld j (hParts j hj).1 (hParts j hj).2
      rw [hRead, hWhole, hNew, hLook]
      rfl
    · intro j hj
      refine ⟨(hNodes' j hj).1, ?_⟩
      rcases (hNodes' j hj).2 with hj | hj
      · exact (hAll j hj).2
      · exact Or.inr (hLe.trans hj)

/-- A node that gets its type for good after its parts are done. -/
theorem Tracks.assigned {n : Nat} (h : Tracks R own b s m k) (hReady : b.Ready (own ∪ {n}))
    (hn : n ∉ own) (whole : γ → Expr Nat) (whole' : Stamp → δ → Expr Stamp)
    (hWhole : ∀ f a, (whole a).map f = whole' (f n) (R.look f a))
    (hNodes : ∀ a, (whole a).nodes ⊆ R.nodes a ∪ {n}) (t : Polytype) :
    Tracks .tree (own ∪ {n}) b s (m >>= fun out => assign n t >>= fun _ => pure (whole out.1, t))
      (k >>= fun out => pure (whole' (.settled t) out.1, t)) := by
  rcases h with ⟨halt, hm, hk⟩ | ⟨a, r, c, s', hm, hk, hGrows, hParts⟩
  · exact Or.inl ⟨halt, bind_of_error hm, Solve.bind_of_error hk⟩
  have hReady' : c.Ready {n} := hReady.grows (Set.disjoint_singleton_right.2 hn) hGrows
  have hLt : n < b.next := hReady.own_lt n (Or.inr rfl)
  have hNew : (c.assign n t).stampOf n = .settled t :=
    Board.stampOf_assign (hReady'.not_mem_top (Or.inl rfl)) t
  -- the parts are read as before, as none of their nodes is this one
  have hLook : R.look (c.assign n t).stampOf a = R.look c.stampOf a := by
    refine R.congr fun j hj => (c.grows_assign n t).stampOf (hParts j hj).1 fun hEq => ?_
    obtain rfl := Set.mem_singleton_iff.1 hEq
    rcases (hParts j hj).2 with hOwn | hLe
    · exact hn hOwn
    · omega
  unfold Tracks
  rw [bind_of_ok hm, Solve.bind_of_ok hk]
  refine Or.inr ⟨whole a, t, c.assign n t, s', rfl, ?_, hGrows.trans (c.grows_assign n t) hReady'
    Set.subset_union_left fun j hj => Or.inl (Or.inr hj), fun j hj => ?_⟩
  · show _ = Except.ok (((whole a).map (c.assign n t).stampOf, t), s')
    rw [hWhole, hNew, hLook]
    rfl
  · rcases hNodes a hj with hj | hj
    · exact ⟨(hParts j hj).1, (hParts j hj).2.imp_left Or.inl⟩
    · obtain rfl := Set.mem_singleton_iff.1 hj
      exact ⟨hLt.trans_le hGrows.next_le, Or.inl (Or.inr rfl)⟩

end Pass

namespace InPlace

open Pass Prefix Infer

theorem expr_func (config : Config) (scope : Scope) (i : Unit) (x : String) (body : Program) :
    expr config scope (.func i x body) =
      (Solve.atLevel ((onVars (·.newType .unbounded) >>= fun y =>
        (expr config (scope.insert x (.mono (.var y))) body >>= fun out =>
          functionType (.var y) out.2 >>= fun t => pure (out.1, t))) >>= fun out =>
        settle out.1 >>= fun v => pure (v, out.2)) >>= fun out =>
      note (.function x out.2) >>= fun _ => pure (.func (.of out.2) x out.1, out.2)) := by
  rw [Infer.expr_func]
  simp only [functionType, bind_assoc, pure_bind]

theorem expr_call (config : Config) (scope : Scope) (i : Unit) (callee arg : Program) :
    expr config scope (.call i callee arg) =
      (Solve.atLevel (((expr config scope callee >>= fun out => expr config scope arg >>= fun out' =>
        pure ((out.1, out'.1), out.2, out'.2)) >>= fun out =>
          callType config.fuel out.2.1 out.2.2 >>= fun r => pure (out.1, r)) >>= fun out =>
        (settle out.1.1 >>= fun c => settle out.1.2 >>= fun d => pure (c, d)) >>= fun v =>
          pure (v, out.2)) >>= fun out =>
      note (.call out.2.1 out.2.2.isSome) >>= fun _ =>
        pure (wrap out.2.2 (.of out.2.1) (.call (.of out.2.1) out.1.1 out.1.2), out.2.1)) := by
  rw [Infer.expr_call]
  simp only [callType, Solve.atLevel, bind_assoc, pure_bind]

theorem expr_letIn (config : Config) (scope : Scope) (i : Unit) (x : String) (value body : Program) :
    expr config scope (.letIn i x value body) =
      ((expr config scope value >>= fun out => expr config (scope.insert x out.2) body >>= fun out' =>
        pure ((out.1, out'.1), out.2, out'.2)) >>= fun out =>
      pure (.letIn (.of out.2.2) x out.1.1 out.1.2, out.2.2)) := by
  rw [Infer.expr_letIn]
  simp only [bind_assoc, pure_bind]

theorem expr_annot (config : Config) (scope : Scope) (i : Unit) (value : Program)
    (declared : Polytype) :
    expr config scope (.annot i value declared) =
      (Solve.atLevel ((changeVars (fun p => p.declare (p.wildcards declared)) >>= fun _ =>
        (expr config scope value >>= fun out =>
          annotationType config.fuel out.2 declared >>= fun r => pure (out.1, r))) >>= fun out =>
        settle out.1 >>= fun v => pure (v, out.2)) >>= fun out =>
      pure (wrap out.2.2 (.of out.2.1) (.annot (.of out.2.1) out.1 declared), out.2.1)) := by
  rw [Infer.expr_annot]
  simp only [annotationType, Solve.atLevel, bind_assoc, pure_bind]

theorem expr_error (config : Config) (scope : Scope) (i : Unit) (d : Diagnostic) {inner : Program}
    (hInner : inner ≠ .missing) :
    expr config scope (.error i d inner) =
      (Solve.atLevel (expr config scope inner >>= fun out => settle out.1 >>= fun v =>
        pure (v, out.2)) >>= fun out => pure (.error (.settled .bottom) d out.1, .bottom)) := by
  rw [Infer.expr_error _ _ _ _ hInner]
  simp only [Solve.atLevel, bind_assoc, pure_bind]

theorem application_eq (config : Config) (n : Nat) (callee arg : Pass Typed) :
    application config n callee arg =
      (Pass.atLevel ((callee >>= fun out => arg >>= fun out' =>
        pure ((out.1, out'.1), out.2, out'.2)) >>= fun out =>
          act (callType config.fuel out.2.1 out.2.2) >>= fun r => pure (out.1, r)) >>= fun out =>
      stamp n out.2.1 >>= fun _ => act (note (.call out.2.1 out.2.2.isSome)) >>= fun _ =>
        mark out.2.2 out.2.1 (.call n out.1.1 out.1.2) >>= fun e => pure (e, out.2.1)) := by
  unfold application
  simp only [bind_assoc, pure_bind]

theorem each_letIn_eq (config : Config) (scope : Scope) (n : Nat) (x : String) (value body : Expr Nat) :
    inferEach config scope (.letIn n x value body) =
      ((inferEach config scope value >>= fun out => inferEach config (scope.insert x out.2) body >>=
        fun out' => pure ((out.1, out'.1), out.2, out'.2)) >>= fun out =>
      stamp n out.2.2 >>= fun _ => pure (.letIn n x out.1.1 out.1.2, out.2.2)) := by
  rw [inferEach]
  simp only [bind_assoc, pure_bind]

theorem failed_eq (n : Nat) (d : Diagnostic) {inner : Expr Nat} (hInner : inner ≠ .missing)
    (part : Pass Typed) : failed n d inner part =
      (Pass.atLevel part >>= fun out => assign n .bottom >>= fun _ =>
        pure (.error n d out.1, .bottom)) := by
  unfold failed
  split
  · exact absurd rfl hInner
  · rfl

/-! ## Levels -/

theorem functionType_wellFormed {p p₁ : Prefix} (hp : p.WellFormed) {x : String}
    (hParam : p.enter.newType .unbounded = (x, p₁)) {s s' : Session} {t u : Polytype}
    (hBody : ∀ k, Narrows k p₁ s.vars Set.univ) (ht : s.vars.Covers t)
    (h : functionType (.var x) t s = .ok (u, s')) : s'.vars.WellFormed := by
  obtain ⟨-, hNarrows, hCovers⟩ := result_opens (param_opens hp hParam) hBody ht Prod.mk.eta.symm
  unfold functionType at h
  rw [bind_of_ok (monomorphize_apply _ _ _), onVars_apply] at h
  -- generalizing a type changes nothing in play
  dsimp only at h
  rw [generalize_eq hNarrows.wellFormed.scoping hCovers] at h
  cases h
  exact hNarrows.wellFormed

theorem callType_wellFormed {p p₁ : Prefix} {callee arg : Polytype} {s s' : Session} {fuel : Nat}
    {out : Polytype × Verdict} (hCallee : ∀ k, Narrows k p.enter p₁ Set.univ)
    (hCalleeCovers : p₁.Covers callee) (hArg : ∀ k, Narrows k p₁ s.vars Set.univ)
    (hArgCovers : s.vars.Covers arg) (h : callType fuel callee arg s = .ok (out, s')) :
    s'.vars.WellFormed := by
  obtain ⟨hOpens, -⟩ := applied_opens hCallee hCalleeCovers hArg hArgCovers Prod.mk.eta.symm
    Prod.mk.eta.symm Prod.mk.eta.symm
  unfold callType at h
  rw [bind_of_ok (monomorphize_apply _ _ _), bind_of_ok (monomorphize_apply _ _ _),
    bind_of_ok (onVars_apply _ _)] at h
  obtain ⟨verdict, s₁, hUnify, h⟩ := of_bind_ok h
  obtain ⟨hUnified, -⟩ := Unify.within_keeps hUnify hOpens.narrows.wellFormed hOpens.function
    hOpens.applied 0
  rw [bind_of_ok (onVars_apply _ _)] at h
  -- generalizing a type changes nothing in play
  dsimp only at h
  rw [generalize_eq hUnified.wellFormed.scoping (hUnified.covers hOpens.covers_result)] at h
  cases h
  exact hUnified.wellFormed

theorem annotationType_wellFormed {p : Prefix} {t declared : Polytype} {s s' : Session} {fuel : Nat}
    {out : Polytype × Verdict} (hValue : Narrows (p.level + 1) p.enter s.vars Set.univ)
    (ht : s.vars.Covers t) (hDeclared : s.vars.Covers declared)
    (h : annotationType fuel t declared s = .ok (out, s')) : s'.vars.WellFormed := by
  obtain ⟨hNarrows, ha, he, hCovers⟩ := annotated_narrows hValue ht hDeclared Prod.mk.eta.symm
    Prod.mk.eta.symm
  unfold annotationType at h
  rw [bind_of_ok (monomorphize_apply _ _ _), bind_of_ok (monomorphize_apply _ _ _)] at h
  obtain ⟨verdict, s₁, hUnify, h⟩ := of_bind_ok h
  obtain ⟨hUnified, -⟩ := Unify.within_keeps hUnify hNarrows.wellFormed ha he 0
  rw [bind_of_ok (onVars_apply _ _)] at h
  -- generalizing a type changes nothing in play
  rw [generalize_eq hUnified.wellFormed.scoping (hUnified.covers hCovers)] at h
  cases h
  exact hUnified.wellFormed

theorem settle_tree (f : Nat → Stamp) (e : Expr Nat) {s : Session} (h : s.vars.Acyclic) :
    settle (e.map f) s = .ok (e.map fun n => s.vars.settle (f n), s) := by
  have hNone : s.vars.settled (e.map f) = s.vars := by
    refine (congrArg s.vars.failAll (List.flatMap_eq_nil_iff.2 fun t _ => ?_)).trans (failAll_nil _)
    unfold settleFailures
    split_ifs
    · exact h.resolution_failures _
    · rfl
  rw [Infer.settle_apply, hNone, Expr.map_map]

/-! ## One node -/

section

variable {config : Config} {scope : Scope} {own own₁ own₂ : Set Nat} {b : Board} {s : Session} {n : Nat}

theorem stranger_tracks (hReady : b.Ready own) :
    Tracks .tree own b s (stranger config) (expr config scope .unknown) := by
  refine .act_bind fun _ s' _ => Or.inr ⟨.error b.next (.internal .unknownExpression) .unknown, .bottom,
    b.build.2, s', rfl, ?_, b.grows_build.mono (Set.empty_subset _), fun j hj => ?_⟩
  · have hNew : b.build.2.stampOf b.next = .settled .bottom :=
      Board.stampOf_assign (hReady.not_mem_top (Or.inr le_rfl)) .bottom
    show _ = Except.ok ((Expr.error (b.build.2.stampOf b.next) _ .unknown, _), _)
    rw [hNew]
    rfl
  · obtain rfl := List.mem_singleton.1 hj
    exact ⟨Nat.lt_succ_self _, Or.inr le_rfl⟩

/-- A variable follows inference, whether it is in scope or not. -/
theorem name_tracks (hReady : b.Ready {n}) (hLevel : b.pending ≠ []) (x : String) :
    Tracks .tree {n} b s (name scope n x) (expr config scope (.var () x)) := by
  have hLt : n < b.next := hReady.own_lt n rfl
  have hTop : n ∉ b.top := hReady.not_mem_top (Or.inl rfl)
  unfold name
  rw [expr_var]
  cases scope.find? x with
  | some t =>
    -- in scope: the node is stamped
    refine Or.inr ⟨.var n x, t, b.stamp n t, s, rfl, ?_, Board.grows_stamp hLt t, fun j hj => ?_⟩
    · show _ = Except.ok ((Expr.var ((b.stamp n t).stampOf n) x, t), s)
      rw [Board.stampOf_stamp hLevel hTop]
      rfl
    · obtain rfl := List.mem_singleton.1 hj
      exact ⟨hLt.trans_le (Board.grows_stamp hLt t).next_le, Or.inl rfl⟩
  | none =>
    -- the variable gets its type first, and the error around it is a new node
    have hAssign := b.grows_assign n .bottom
    have hReady' : (b.assign n .bottom).Ready ∅ :=
      (hReady.mono (by simp)).grows (Set.disjoint_empty _) hAssign
    have hBuild := (b.assign n .bottom).grows_build
    refine .act_bind fun _ s' _ => Or.inr ⟨.error b.next (.unbound x) (.var n x), .bottom,
      (b.assign n .bottom).build.2, s', rfl, ?_, hAssign.trans hBuild hReady' le_rfl (by simp),
      fun j hj => ?_⟩
    · have hNew : (b.assign n .bottom).build.2.stampOf b.next = .settled .bottom :=
        Board.stampOf_assign (b := b.assign n .bottom) (hReady'.not_mem_top (Or.inr le_rfl)) .bottom
      have hOld : (b.assign n .bottom).build.2.stampOf n = .settled .bottom :=
        (hBuild.stampOf hLt (Set.notMem_empty n)).trans (Board.stampOf_assign hTop .bottom)
      show _ = Except.ok ((Expr.error ((b.assign n .bottom).build.2.stampOf b.next) _
        (.var ((b.assign n .bottom).build.2.stampOf n) x), _), _)
      rw [hNew, hOld]
      rfl
    · rcases List.mem_cons.1 hj with rfl | hj
      · exact ⟨Nat.lt_succ_self _, Or.inr le_rfl⟩
      · obtain rfl := List.mem_singleton.1 hj
        exact ⟨Nat.lt_succ_of_lt hLt, Or.inl rfl⟩

theorem constant_tracks (hReady : b.Ready {n}) (v : Value) :
    Tracks .tree {n} b s (constant n v) (expr config scope (.const () v)) := by
  have hLt : n < b.next := hReady.own_lt n rfl
  refine Or.inr ⟨.const n v, .mono (.const v.base), b.assign n (.mono (.const v.base)), s, rfl, ?_,
    b.grows_assign n _, fun j hj => ?_⟩
  · show _ = Except.ok ((Expr.const ((b.assign n _).stampOf n) v, _), s)
    rw [Board.stampOf_assign (hReady.not_mem_top (Or.inl rfl))]
    rfl
  · obtain rfl := List.mem_singleton.1 hj
    exact ⟨hLt, Or.inl rfl⟩

/-- A function follows inference if its body does, at the level where the parameter is new. -/
theorem function_tracks {part : Monotype → Pass Typed} {body : Program} {x y : String} {p : Prefix}
    (hReady : b.Ready (own ∪ {n})) (hn : n ∉ own) (hLevel : b.pending ≠ []) (hp : s.vars.WellFormed)
    (hScope : scope.Over s.vars) (hParam : s.vars.enter.newType .unbounded = (y, p))
    (hBody : Tracks .tree own b.entered ⟨p, s.sink⟩ (part (.var y))
      (expr config (scope.insert x (.mono (.var y))) body)) :
    Tracks .tree (own ∪ {n}) b s (function n x part) (expr config scope (.func () x body)) := by
  have hNew := param_opens hp hParam
  -- the parameter is made up, then the body is inferred, and the type of the function is put
  -- together
  have hInner : Tracks .tree own b.entered ⟨s.vars.enter, s.sink⟩
      (act (onVars (·.newType .unbounded)) >>= fun y => (part (.var y) >>= fun out =>
        act (functionType (.var y) out.2) >>= fun t => pure (out.1, t)))
      (onVars (·.newType .unbounded) >>= fun y =>
        (expr config (scope.insert x (.mono (.var y))) body >>= fun out =>
          functionType (.var y) out.2 >>= fun t => pure (out.1, t))) := by
    refine .act_bind fun z s₁ hNamed => Tracks.bind_act ?_ fun t => functionType (.var z) t
    rw [onVars_apply, hParam] at hNamed
    cases hNamed
    exact hBody
  rw [expr_func]
  refine (hInner.atLevel (hReady.mono Set.subset_union_left) hLevel settle
    (fun f e s h => settle_tree f e h) fun v s' h => ?_).node hReady hn hLevel
    (.func n x) (fun t e => .func t x e) (fun f a => rfl) (fun a => (Expr.nodes_func n x a).le) id
    (fun _ => none) fun t => note (.function x t)
  -- the level is left in well-formed variables
  obtain ⟨z, s₁, hNamed, h⟩ := of_bind_ok h
  rw [onVars_apply, hParam] at hNamed
  cases hNamed
  obtain ⟨out, s₂, hRun, h⟩ := of_bind_ok h
  obtain ⟨u, s₃, hType, h⟩ := of_bind_ok h
  cases h
  have hKept := (run_of_ok hRun).keeps hNew.narrows.wellFormed
    (hNew.narrows.one_le_level (one_le_level_enter _))
    ((hScope.enter.mono hNew.narrows).insert x hNew.covers)
  exact (functionType_wellFormed hp hParam hKept.narrows hKept.covers hType).acyclic

/-- A call follows inference if both of its parts do, the argument in what is left after what is
called. -/
theorem application_tracks {part part' : Pass Typed} {callee arg : Program}
    (hReady : b.Ready (own₁ ∪ own₂ ∪ {n})) (hDisjoint : Disjoint own₁ own₂) (hn : n ∉ own₁ ∪ own₂)
    (hLevel : b.pending ≠ []) (hp : s.vars.WellFormed) (hScope : scope.Over s.vars)
    (hCallee : Tracks .tree own₁ b.entered ⟨s.vars.enter, s.sink⟩ part (expr config scope callee))
    (hArg : ∀ v t c s₁, expr config scope callee ⟨s.vars.enter, s.sink⟩ = .ok ((v, t), s₁) →
      b.entered.Grows own₁ c → c.Ready own₂ → Tracks .tree own₂ c s₁ part' (expr config scope arg)) :
    Tracks .tree (own₁ ∪ own₂ ∪ {n}) b s (application config n part part')
      (expr config scope (.call () callee arg)) := by
  have hOwn := hReady.mono Set.subset_union_left
  have hInner := (hCallee.both hOwn.entered hDisjoint hArg).bind_act
    fun r => callType config.fuel r.1 r.2
  rw [expr_call, application_eq]
  refine (hInner.atLevel hOwn hLevel
    (fun v => settle v.1 >>= fun c => settle v.2 >>= fun d => pure (c, d)) ?_ ?_).node hReady hn hLevel
    (fun a => .call n a.1 a.2) (fun t a => .call t a.1 a.2) (fun f a => rfl)
    (fun a => (Expr.nodes_call n a.1 a.2).le) (fun r => r.1) (fun r => r.2)
    fun r => note (.call r.1 r.2.isSome)
  · intro f a s₁ h
    show (settle (a.1.map f) >>= fun c => settle (a.2.map f) >>= fun d => pure (c, d)) s₁ = _
    rw [bind_of_ok (settle_tree f a.1 h), bind_of_ok (settle_tree f a.2 h)]
    rfl
  -- the level is left in well-formed variables, from the callee over the argument to the call itself
  · intro v s' h
    obtain ⟨out, s₁, hParts, h⟩ := of_bind_ok h
    obtain ⟨r, s₂, hType, h⟩ := of_bind_ok h
    cases h
    obtain ⟨c, s₃, hRun, hParts⟩ := of_bind_ok hParts
    obtain ⟨d, s₄, hRun', hParts⟩ := of_bind_ok hParts
    cases hParts
    have hKept := (run_of_ok hRun).keeps hp.enter (one_le_level_enter _) hScope.enter
    have hKept' := (run_of_ok hRun').keeps (hKept.narrows 0).wellFormed
      ((hKept.narrows 0).one_le_level (one_le_level_enter _)) (hScope.enter.mono (hKept.narrows 0))
    exact (callType_wellFormed hKept.narrows hKept.covers hKept'.narrows hKept'.covers hType).acyclic

/-- An annotation follows inference if its value does, where the names of the declared type are in
play. -/
theorem annotate_tracks {part : Pass Typed} {value : Program} {declared : Polytype}
    (hReady : b.Ready (own ∪ {n})) (hn : n ∉ own) (hLevel : b.pending ≠ []) (hp : s.vars.WellFormed)
    (hScope : scope.Over s.vars)
    (hValue : Tracks .tree own b.entered
      ⟨s.vars.enter.declare (s.vars.enter.wildcards declared), s.sink⟩ part (expr config scope value)) :
    Tracks .tree (own ∪ {n}) b s (annotate config n declared part)
      (expr config scope (.annot () value declared)) := by
  obtain ⟨hNames, hDeclared⟩ := wildcards_narrows hp.enter (one_le_level_enter _) declared
  have hInner : Tracks .tree own b.entered ⟨s.vars.enter, s.sink⟩
      (act (changeVars fun p => p.declare (p.wildcards declared)) >>= fun _ =>
        (part >>= fun out =>
          act (annotationType config.fuel out.2 declared) >>= fun r => pure (out.1, r)))
      (changeVars (fun p => p.declare (p.wildcards declared)) >>= fun _ =>
        (expr config scope value >>= fun out =>
          annotationType config.fuel out.2 declared >>= fun r => pure (out.1, r))) := by
    refine .act_bind fun _ s₁ hNamed => Tracks.bind_act ?_
      fun t => annotationType config.fuel t declared
    cases hNamed
    exact hValue
  rw [expr_annot]
  refine (hInner.atLevel (hReady.mono Set.subset_union_left) hLevel settle
    (fun f e s h => settle_tree f e h) fun v s' h => ?_).node hReady hn hLevel
    (fun e => .annot n e declared) (fun t e => .annot t e declared) (fun f a => rfl)
    (fun a => (Expr.nodes_annot n a declared).le) (fun r => r.1) (fun r => r.2) fun _ => pure ()
  -- the level is left in well-formed variables
  obtain ⟨_, s₁, hNamed, h⟩ := of_bind_ok h
  cases hNamed
  obtain ⟨out, s₂, hRun, h⟩ := of_bind_ok h
  obtain ⟨r, s₃, hType, h⟩ := of_bind_ok h
  cases h
  have hKept := (run_of_ok hRun).keeps hNames.wellFormed
    (hNames.one_le_level (one_le_level_enter _)) (hScope.enter.mono hNames)
  exact (annotationType_wellFormed (hNames.trans_univ (hKept.narrows _)) hKept.covers
    ((hKept.narrows 0).covers hDeclared) hType).acyclic

theorem failed_missing_tracks (hReady : b.Ready {n}) (d : Diagnostic) (part : Pass Typed) :
    Tracks .tree {n} b s (failed n d .missing part) (expr config scope (.error () d .missing)) := by
  refine Or.inr ⟨.error n d .missing, .bottom, b.assign n .bottom, s, rfl, ?_,
    b.grows_assign n .bottom, fun j hj => ?_⟩
  · show _ = Except.ok ((Expr.error ((b.assign n .bottom).stampOf n) d .missing, _), s)
    rw [Board.stampOf_assign (hReady.not_mem_top (Or.inl rfl))]
    rfl
  · obtain rfl := List.mem_singleton.1 hj
    exact ⟨hReady.own_lt j rfl, Or.inl rfl⟩

theorem failed_tracks {part : Pass Typed} {e : Expr Nat} {inner : Program} (d : Diagnostic)
    (he : e ≠ .missing) (hInner : inner ≠ .missing) (hReady : b.Ready (own ∪ {n})) (hn : n ∉ own)
    (hLevel : b.pending ≠ []) (hp : s.vars.WellFormed) (hScope : scope.Over s.vars)
    (h : Tracks .tree own b.entered ⟨s.vars.enter, s.sink⟩ part (expr config scope inner)) :
    Tracks .tree (own ∪ {n}) b s (failed n d e part) (expr config scope (.error () d inner)) := by
  rw [expr_error _ _ _ _ hInner, failed_eq n d he]
  refine (h.atLevel (hReady.mono Set.subset_union_left) hLevel settle
    (fun f e s h => settle_tree f e h) fun v s' h => ?_).assigned hReady hn
    (.error n d) (fun t e => .error t d e) (fun f a => rfl) (fun a => (Expr.nodes_error n d a).le)
    .bottom
  have hKept := (run_of_ok h).keeps hp.enter (one_le_level_enter _) hScope.enter
  exact (hKept.narrows 0).wellFormed.acyclic

end

/-! ## Whole expressions -/

/-- Inference in place follows inference, one definition at a time. -/
theorem each_tracks (config : Config) {e : Expr Nat} (hNodup : e.infos.Nodup) {scope : Scope}
    {b : Board} {s : Session} (hReady : b.Ready e.nodes) (hLevel : b.pending ≠ [])
    (hp : s.vars.WellFormed) (hPos : 1 ≤ s.vars.level) (hScope : scope.Over s.vars) :
    Tracks .tree e.nodes b s (inferEach config scope e) (expr config scope (e.map fun _ => ())) := by
  induction e generalizing scope b s with
  | missing =>
    refine .act_bind fun _ s' _ => Or.inr ⟨.missing, .bottom, b, s', rfl, rfl, .refl _ b, ?_⟩
    exact fun n hn => absurd hn List.not_mem_nil
  | unknown => exact stranger_tracks hReady
  | var n x =>
    rw [Expr.nodes_var] at hReady ⊢
    exact name_tracks hReady hLevel x
  | const n v =>
    rw [Expr.nodes_const] at hReady ⊢
    exact constant_tracks hReady v
  | func n x body ih =>
    obtain ⟨hn, hBody⟩ := List.nodup_cons.1 hNodup
    rw [Expr.nodes_func] at hReady ⊢
    have hNew := param_opens hp Prod.mk.eta.symm
    refine function_tracks hReady hn hLevel hp hScope Prod.mk.eta.symm ?_
    exact ih hBody (hReady.mono Set.subset_union_left).entered (List.cons_ne_nil _ _)
      hNew.narrows.wellFormed (hNew.narrows.one_le_level (one_le_level_enter _))
      ((hScope.enter.mono hNew.narrows).insert x hNew.covers)
  | call n callee arg ihCallee ihArg =>
    rw [Expr.infos_call] at hNodup
    obtain ⟨hCallee, hArg, hDisjoint, hn⟩ := apart_of_nodup hNodup
    rw [Expr.nodes_call] at hReady ⊢
    have hOwn := (hReady.mono Set.subset_union_left).entered.mono Set.subset_union_left
    have hFirst := ihCallee hCallee hOwn (List.cons_ne_nil _ _) hp.enter (one_le_level_enter _)
      (s := ⟨s.vars.enter, s.sink⟩) hScope.enter
    refine application_tracks hReady hDisjoint hn hLevel hp hScope hFirst ?_
    -- the argument is inferred in what the callee leaves in play
    intro v t c s₁ hRun hGrows hReady'
    have hKept := ((run_of_ok hRun).keeps hp.enter (one_le_level_enter _) hScope.enter).narrows 0
    exact ihArg hArg hReady' (hGrows.level (List.cons_ne_nil _ _)) hKept.wellFormed
      (hKept.one_le_level (one_le_level_enter _)) (hScope.enter.mono hKept)
  | letIn n x value body ihValue ihBody =>
    rw [Expr.infos_letIn] at hNodup
    obtain ⟨hValue, hBody, hDisjoint, hn⟩ := apart_of_nodup hNodup
    rw [Expr.nodes_letIn] at hReady ⊢
    have hOwn := hReady.mono Set.subset_union_left
    have hFirst := ihValue hValue (hOwn.mono Set.subset_union_left) hLevel hp hPos hScope
    have hBoth := hFirst.both hOwn hDisjoint fun v t c s₁ hRun hGrows hReady' => by
      have hKept := (run_of_ok hRun).keeps hp hPos hScope
      exact ihBody hBody hReady' (hGrows.level hLevel) (hKept.narrows 0).wellFormed
        ((hKept.narrows 0).one_le_level hPos)
        ((hScope.mono (hKept.narrows 0)).insert x hKept.covers)
    rw [Expr.map, expr_letIn, each_letIn_eq]
    exact hBoth.node hReady hn hLevel (fun a => .letIn n x a.1 a.2) (fun t a => .letIn t x a.1 a.2)
      (fun f a => rfl) (fun a => (Expr.nodes_letIn n x a.1 a.2).le) (fun r => r.2) (fun _ => none)
      fun _ => pure ()
  | annot n value declared ih =>
    obtain ⟨hn, hValue⟩ := List.nodup_cons.1 hNodup
    rw [Expr.nodes_annot] at hReady ⊢
    obtain ⟨hNames, -⟩ := wildcards_narrows hp.enter (one_le_level_enter _) declared
    refine annotate_tracks hReady hn hLevel hp hScope ?_
    exact ih hValue (hReady.mono Set.subset_union_left).entered (List.cons_ne_nil _ _)
      hNames.wellFormed (hNames.one_le_level (one_le_level_enter _)) (hScope.enter.mono hNames)
  | error n d inner ih =>
    obtain ⟨hn, hInner⟩ := List.nodup_cons.1 hNodup
    rw [Expr.nodes_error] at hReady ⊢
    by_cases hMissing : inner = .missing
    · subst hMissing
      have hNone : Expr.missing.nodes = ∅ :=
        Set.eq_empty_of_forall_notMem fun k hk => absurd hk List.not_mem_nil
      rw [hNone, Set.empty_union] at hReady ⊢
      exact failed_missing_tracks hReady d _
    · have hSame : inner.map (fun _ => ()) ≠ .missing := by
        cases inner <;> simp_all [Expr.map]
      refine failed_tracks d hMissing hSame hReady hn hLevel hp hScope ?_
      exact ih hInner (hReady.mono Set.subset_union_left).entered (List.cons_ne_nil _ _) hp.enter
        (one_le_level_enter _) hScope.enter

/-- What nodes carry does not depend on the order in which they wait. -/
theorem stampOf_of_similar {b c : Board} (h : b.Similar c) (n : Nat) : c.stampOf n = b.stampOf n := by
  unfold Board.stampOf
  rw [h.types]
  simp only [h.top.1.mem_iff]

/-- Inference in a loop follows inference. -/
theorem loop_tracks (config : Config) {e : Expr Nat} (hNodup : e.infos.Nodup) {scope : Scope}
    {b : Board} {s : Session} (hReady : b.Ready e.nodes) (hLevel : b.pending ≠ [])
    (hp : s.vars.WellFormed) (hPos : 1 ≤ s.vars.level) (hScope : scope.Over s.vars) :
    Tracks .tree e.nodes b s (inferLoop config [] scope e)
      (expr config scope (e.map fun _ => ())) := by
  have hEach := each_tracks config hNodup hReady hLevel hp hPos hScope
  rcases loop_alike config hNodup scope b b s hReady (.refl b) with
    ⟨halt, hLoop, hRule⟩ | ⟨⟨tree, t⟩, c, c', s', hLoop, hRule, hGrows, hSimilar⟩
  -- the rule has one outcome, so the loop has that of inference
  · rcases hEach with ⟨halt', hRule', hk⟩ | ⟨_, _, _, _, hRule', -⟩
    · cases hRule.symm.trans hRule'
      exact Or.inl ⟨halt, hLoop, hk⟩
    · cases hRule.symm.trans hRule'
  · rcases hEach with ⟨halt', hRule', -⟩ | ⟨_, _, _, _, hRule', hk, hGrows', hNodes⟩
    · cases hRule.symm.trans hRule'
    · cases hRule.symm.trans hRule'
      have hLook : tree.map c'.stampOf = tree.map c.stampOf :=
        Expr.map_congr fun n _ => stampOf_of_similar hSimilar n
      refine Or.inr ⟨tree, t, c, s', hLoop, ?_, hGrows, fun n hn => ?_⟩
      · rw [hk]
        exact congrArg (fun e => Except.ok ((e, t), s')) hLook
      · rw [← hSimilar.next]
        exact hNodes n hn

/-! ## Whole programs -/

/-- Fills in the types of the nodes of a whole program, at a level of its own. -/
def filled (config : Config) (scope : Scope) (copy : Expr Nat) : Pass (Expr Nat) :=
  Pass.atLevel (act (changeVars fun p => p.declare scope.freeVars.sorted) >>= fun _ =>
    inferLoop config [] scope copy >>= fun out => pure out.1)

/-- A program with the types that are on the board in the end. -/
def typed (config : Config) (scope : Scope) (copy : Expr Nat) (b : Board) : Solve (Expr Polytype) :=
  filled config scope copy b >>= fun out => pure (out.1.map out.2.types)

/-- Infers the types of a whole program: the program is copied, and the types of the nodes of the copy
are filled in. -/
def root (config : Config) (scope : Scope) : Program → Solve (Expr Polytype)
  | .missing => do
    fault config .emptyExpression
    return .missing
  | program => do
    let copy := program.copy 0
    conclude config (← typed config scope (copy.1.map Prod.fst) ⟨fun _ => .bottom, [], copy.2⟩)

theorem root_conclude (config : Config) (scope : Scope) {program : Program} (h : program ≠ .missing) :
    Infer.root config scope program =
      ((Solve.atLevel (changeVars (fun p => p.declare scope.freeVars.sorted) >>= fun _ =>
        expr config scope program >>= fun out => settle out.1) >>= fun e =>
      pure (e.map (·.type))) >>= conclude config) := by
  rw [root_eq_conclude config scope h, treeIn_eq config scope h, bind_assoc]
  rfl

/-- The nodes of a copy have numbers of their own, and a board knows nothing of them yet. -/
theorem copy_ready (program : Program) :
    ((program.copy 0).1.map Prod.fst).infos.Nodup ∧
      Board.Ready ((program.copy 0).1.map Prod.fst).nodes
        (Board.entered ⟨fun _ => .bottom, [], (program.copy 0).2⟩) ∧
      ((program.copy 0).1.map Prod.fst).map (fun _ => ()) = program := by
  rw [Expr.copy_eq]
  have hCopy := program.copyEach_copyOf true 0
  have hNumbers := hCopy.numbers
  rw [← Expr.infos_map] at hNumbers
  refine ⟨hNumbers.nodup_iff.2 List.nodup_range', ⟨List.nodup_nil, by simp [Board.entered],
    fun n hn => ?_, by simp [Board.entered]⟩, ?_⟩
  · -- the numbers of the copy are all below the next one
    rw [hCopy.next]
    exact (List.mem_range'_1.1 (hNumbers.mem_iff.1 hn)).2
  · rw [Expr.map_map]
    exact hCopy.tree

/-- The types are filled in as inference finds them, if the parts of the program are. -/
theorem typed_of_tracks (config : Config) (scope : Scope) {e : Expr Nat} {b : Board} {sink : Sink}
    (hReady : b.entered.Ready e.nodes)
    (h : Tracks .tree e.nodes b.entered ⟨Prefix.empty.enter.declare scope.freeVars.sorted, sink⟩
      (inferLoop config [] scope e) (expr config scope (e.map fun _ => ()))) :
    typed config scope e b ⟨.empty, sink⟩ =
      (Solve.atLevel (changeVars (fun p => p.declare scope.freeVars.sorted) >>= fun _ =>
        expr config scope (e.map fun _ => ()) >>= fun out => settle out.1) >>= fun e =>
      pure (e.map (·.type))) ⟨.empty, sink⟩ := by
  obtain ⟨hDeclared, hScope⟩ := scope_over scope
  rcases h with ⟨halt, hLoop, hk⟩ | ⟨tree, t, c, s', hLoop, hk, hGrows, -⟩
  · have hFilled : filled config scope e b ⟨.empty, sink⟩ = .error halt := by
      refine Pass.atLevel_of_error ?_
      rw [Pass.bind_of_ok (act_of_ok (changeVars_apply _ _)), Pass.bind_of_error hLoop]
    have hPart : Solve.atLevel (changeVars (fun p => p.declare scope.freeVars.sorted) >>= fun _ =>
        expr config scope (e.map fun _ => ()) >>= fun out => settle out.1) ⟨.empty, sink⟩ =
          .error halt := by
      refine Solve.atLevel_of_error ?_
      rw [Solve.bind_of_ok (changeVars_apply _ _), Solve.bind_of_error hk]
    rw [typed, Solve.bind_of_error hFilled, Solve.bind_of_error hPart]
  · have hAcyclic : s'.vars.Acyclic :=
      (((run_of_ok hk).keeps hDeclared.wellFormed (hDeclared.one_le_level (one_le_level_enter _))
        hScope).narrows 0).wellFormed.acyclic
    have hEnd : c.Ready ∅ := (hReady.mono (by simp)).grows (Set.disjoint_empty _) hGrows
    -- both sides enter a level, declare the names of the scope and infer the program
    have hInner : (act (changeVars fun p => p.declare scope.freeVars.sorted) >>= fun _ =>
        inferLoop config [] scope e >>= fun out => pure out.1) b.entered ⟨Prefix.empty.enter, sink⟩ =
          .ok ((tree, c), s') := by
      rw [Pass.bind_of_ok (act_of_ok (changeVars_apply _ _)), Pass.bind_of_ok hLoop]
      rfl
    have hFilled : filled config scope e b ⟨.empty, sink⟩ =
        .ok ((tree, c.left s'.vars), ⟨s'.vars.leave, s'.sink⟩) := by
      refine (Pass.atLevel_of_ok hInner hEnd.nodup_top).trans ?_
      rw [failures_of_acyclic hAcyclic, failAll_nil]
    have hPart : Solve.atLevel (changeVars (fun p => p.declare scope.freeVars.sorted) >>= fun _ =>
        expr config scope (e.map fun _ => ()) >>= fun out => settle out.1) ⟨.empty, sink⟩ =
          .ok (tree.map fun n => s'.vars.settle (c.stampOf n), ⟨s'.vars.leave, s'.sink⟩) := by
      refine Solve.atLevel_of_ok ?_
      rw [Solve.bind_of_ok (changeVars_apply _ _), Solve.bind_of_ok hk]
      exact settle_tree c.stampOf tree hAcyclic
    -- a type on the board after the level is the type that the node of the tree is settled with
    have hTypes : tree.map (c.left s'.vars).types =
        (tree.map fun n => s'.vars.settle (c.stampOf n)).map (·.type) := by
      rw [Expr.map_map]
      exact Expr.map_congr fun n _ => c.types_left s'.vars n
    rw [typed, Solve.bind_of_ok hFilled, Solve.bind_of_ok hPart, ← hTypes]

/-- Inference in place gives the same as inference, for a whole program. -/
theorem root_eq (config : Config) (scope : Scope) (program : Program) (sink : Sink) :
    root config scope program ⟨.empty, sink⟩ = Infer.root config scope program ⟨.empty, sink⟩ := by
  by_cases hMissing : program = .missing
  · subst hMissing
    rw [root, Infer.root, treeIn]
    simp only [perform_solve, bind_assoc, pure_bind, Expr.map]
  obtain ⟨hNodup, hReady, hProgram⟩ := copy_ready program
  obtain ⟨hDeclared, hScope⟩ := scope_over scope
  -- the loop on the copy, from the outermost level on
  have hTracks := loop_tracks config hNodup
    (s := ⟨Prefix.empty.enter.declare scope.freeVars.sorted, sink⟩) hReady (List.cons_ne_nil _ _)
    hDeclared.wellFormed (hDeclared.one_le_level (one_le_level_enter _)) hScope
  have hTyped := typed_of_tracks config scope hReady hTracks
  rw [hProgram] at hTyped
  rw [root_conclude config scope hMissing, root]
  · exact Solve.bind_congr hTyped (conclude config)
  · exact hMissing

end InPlace

/-- Infers the types of a program, with the types of its nodes filled in on a copy of the program. -/
def inferInPlace (config : Config) (sink : Sink) (scope : Scope) (program : Program) :
    Except Halt Inferred := do
  let (tree, s) ← (InPlace.root config scope program).run ⟨.empty, sink⟩
  return ⟨tree, s.sink, s.vars.trace.reverse⟩

namespace Pass

/-- Runs with the same outcome, up to the order in which nodes of the same type wait. -/
def SameOutcome {α : Type} (r r' : Except Halt ((α × Board) × Session)) : Prop :=
  (∃ halt, r = .error halt ∧ r' = .error halt) ∨
  ∃ a c c' s', r = .ok ((a, c), s') ∧ r' = .ok ((a, c'), s') ∧ c.Similar c'

variable {α : Type} {own : Set Nat} {m m' : Pass α} {b : Board}

theorem Alike.outcome (h : Alike own m m') (hReady : b.Ready own) (s : Session) :
    SameOutcome (m b s) (m' b s) := by
  refine (h b b s hReady (.refl b)).imp_right ?_
  rintro ⟨a, c, c', s', hm, hm', -, hSimilar⟩
  exact ⟨a, c, c', s', hm, hm', hSimilar⟩

/-- Nodes of the same type are resolved alike, and report the same. -/
theorem Alike.outcome_left (h : Alike own m m') (hReady : b.Ready own) (s : Session) :
    SameOutcome ((m >>= fun a => leave >>= fun _ => Pure.pure a) b s)
      ((m' >>= fun a => leave >>= fun _ => Pure.pure a) b s) := by
  rcases h b b s hReady (.refl b) with ⟨halt, hm, hm'⟩ | ⟨a, c, c', s', hm, hm', hGrows, hSimilar⟩
  · exact Or.inl ⟨halt, bind_of_error hm, bind_of_error hm'⟩
  · have hEnd : c.Ready ∅ := (hReady.mono (by simp)).grows (Set.disjoint_empty own) hGrows
    have hTop := hSimilar.top
    rw [bind_of_ok hm, bind_of_ok hm', bind_of_ok (leave_apply hEnd.nodup_top s'),
      bind_of_ok (leave_apply (hTop.1.nodup_iff.1 hEnd.nodup_top) s'), hSimilar.types, ← hTop.2]
    exact Or.inr ⟨a, c.left s'.vars, c'.left s'.vars, _, rfl, rfl, hSimilar.left hEnd s'.vars⟩

end Pass

namespace InPlace

open Pass

/-- The loops for chains of local definitions come to the same as the rules that take one definition
at a time. Inference may start with any variables in play and on any board on which the nodes of the
expression do not wait yet. The loop and the rule stop for the same reason, or they return the same
expression and type, report the same, and leave the same in play and the same types on the board,
also when the level around is left after that. From well-formed variables on, both follow the
inference that keeps types in the tree, and so do whole programs. Walks visit the same nodes in the
same order and end in the same way. A copy by the loop is the same expression, with the same types,
as a copy by the rule, and takes as many new nodes, which are all different. The loop builds a
definition before its body and so does the rule if it is told to, and then every node has the same
place in the order in which nodes are built. -/
theorem loops_follow_rules (config : Config) (scope : Scope) :
    (∀ (e : Expr Nat) (b : Board) (s : Session), e.infos.Nodup → b.Ready e.nodes →
      SameOutcome (inferLoop config [] scope e b s) (inferEach config scope e b s) ∧
      SameOutcome ((inferLoop config [] scope e >>= fun out => leave >>= fun _ => pure out) b s)
        ((inferEach config scope e >>= fun out => leave >>= fun _ => pure out) b s) ∧
      (b.pending ≠ [] → s.vars.WellFormed → 1 ≤ s.vars.level → scope.Over s.vars →
        Tracks .tree e.nodes b s (inferLoop config [] scope e)
          (Infer.expr config scope (e.map fun _ => ())))) ∧
    (∀ sink program, inferInPlace config sink scope program = infer config sink scope program) ∧
    ∀ {α : Type} (e : Expr α), (∀ log, e.walk log = (log ++ e.visit.1, e.visit.2)) ∧
      e.copy = e.copyEach true ∧
      ∀ n, (e.copy n).1.map Prod.snd = (e.copyEach false n).1.map Prod.snd ∧
        (e.copy n).2 = (e.copyEach false n).2 ∧ e.CopyOf n (e.copy n) ∧
        e.CopyOf n (e.copyEach false n) := by
  refine ⟨fun e b s hNodup hReady => ?_, fun sink program => ?_, fun e => ?_⟩
  · -- the loop on one definition at a time is alike the rule, also when the level is left
    have hAlike := loop_alike config hNodup scope
    exact ⟨hAlike.outcome hReady s, hAlike.outcome_left hReady s, loop_tracks config hNodup hReady⟩
  · unfold inferInPlace infer StateT.run
    rw [root_eq]
  · refine ⟨fun log => e.walk_eq log, e.copy_eq, fun n => ?_⟩
    -- the loop builds a definition first, the rule its body; both take the next numbers
    have hLoop := e.copyEach_copyOf true n
    have hRule := e.copyEach_copyOf false n
    rw [e.copy_eq]
    exact ⟨hLoop.tree.trans hRule.tree.symm, hLoop.next.trans hRule.next.symm, hLoop, hRule⟩

/-- Two definitions whose common type has a free variable. They go on the list in one order in the
loop, and in the other one by the rule. -/
theorem loops_follow_rules_two :
    let config : Config := ⟨false, 0⟩
    let scope : Scope := (∅ : Scope).insert "y" (.mono (.var "t"))
    let e : Expr Nat := .letIn 0 "a" (.var 1 "y") (.letIn 2 "b" (.var 3 "a") (.var 4 "b"))
    let b : Board := ⟨fun _ => .bottom, [[]], 5⟩
    let s : Session := ⟨Prefix.empty.enter.declare scope.freeVars.sorted, .empty⟩
    (inferLoop config [] scope e b s).toOption.map (·.1.2.pending) = some [[1, 3, 4, 0, 2]] ∧
    (inferEach config scope e b s).toOption.map (·.1.2.pending) = some [[1, 3, 4, 2, 0]] ∧
    SameOutcome ((inferLoop config [] scope e >>= fun out => leave >>= fun _ => pure out) b s)
      ((inferEach config scope e >>= fun out => leave >>= fun _ => pure out) b s) ∧
    Tracks .tree e.nodes b s (inferLoop config [] scope e)
      (Infer.expr config scope (e.map fun _ => ())) ∧
    (e.walk []).1 = e.visit.1 ∧ (e.copy 7).1.map Prod.snd = (e.copyEach false 7).1.map Prod.snd := by
  intro config scope e b s
  obtain ⟨hRuns, -, hTrees⟩ := loops_follow_rules config scope
  obtain ⟨hDeclared, hScope⟩ := Infer.scope_over scope
  have hNumbers : ∀ n ∈ e.infos, n < 5 := by decide
  -- no node waits yet
  have hReady : b.Ready e.nodes :=
    ⟨List.nodup_nil, by decide, hNumbers, fun n hn => List.not_mem_nil⟩
  obtain ⟨-, hLeft, hTracks⟩ := hRuns e b s (by decide) hReady
  obtain ⟨hWalk, -, hCopy⟩ := hTrees e
  refine ⟨by cbv, by cbv, hLeft, hTracks (List.cons_ne_nil _ _) hDeclared.wellFormed
    (hDeclared.one_le_level (Prefix.one_le_level_enter _)) hScope, ?_, (hCopy 7).1⟩
  rw [hWalk, List.nil_append]

end InPlace

end Mlf
