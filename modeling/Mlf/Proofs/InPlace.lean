import Mlf.Proofs.InferInvariant

/-!
# Types that are filled in

Inference can keep the types of nodes apart from the tree. Each node has a number, and a board holds the
type of each number. A type with free variables may change until the level is left at which it was put
on the board, and its node is on the list of that level until then. When a level is left, the types of
the nodes on its list are resolved one after the other, and a node whose type still mentions an older
variable goes on the list of the level around.

What a part of inference does to a board is limited by the nodes that it owns: it gives types to these
and to new nodes only, and it adds to the list of the current level only.

Main results:

* `Pass.leave_apply` — what is on the board and in play after a level is left;
* `Board.Grows`, `Board.Ready` — what a part of inference may do to a board, and when it may do it.
-/

namespace Mlf

open Solve

/-- What is known of the nodes of a program while their types are filled in. -/
@[ext]
structure Board where
  types : Nat → Polytype
  /-- The nodes whose types may still change, by the levels at which they came up, the innermost level
  first, and in the order in which they came up. -/
  pending : List (List Nat)
  /-- The first number that is not in use. -/
  next : Nat

namespace Board

variable {own own₁ own₂ : Set Nat} {b c d : Board} {n : Nat}

/-- Gives a node a type. -/
def assign (b : Board) (n : Nat) (t : Polytype) : Board :=
  { b with types := Function.update b.types n t }

/-- Puts nodes at the end of the list of the current level, if there is one. -/
def pend (b : Board) (ns : List Nat) : Board :=
  { b with pending := b.pending.modifyHead (· ++ ns) }

/-- Gives a node a type, which may still change if it has free variables. -/
def stamp (b : Board) (n : Nat) (t : Polytype) : Board :=
  if t.freeVars.size = 0 then b.assign n t else (b.assign n t).pend [n]

/-- A board with the same type for several nodes. -/
def stampAll (b : Board) (ns : List Nat) (t : Polytype) : Board where
  types n := if n ∈ ns then t else b.types n
  pending := if t.freeVars.size = 0 then b.pending else b.pending.modifyHead (· ++ ns)
  next := b.next

/-- A new node; it has the bottom type as long as it is given no other one. -/
def build (b : Board) : Nat × Board :=
  (b.next, { b.assign b.next .bottom with next := b.next + 1 })

/-- The list of the current level. -/
def top (b : Board) : List Nat := b.pending.headD []

/-- A board with a list for a new level. -/
def entered (b : Board) : Board := { b with pending := [] :: b.pending }

/-- A board with the types of some nodes resolved; those nodes whose types then mention older variables
go on the list of the current level. -/
def resolve (b : Board) (p : Prefix) (ns : List Nat) : Board where
  types n := if n ∈ ns then p.resolved (b.types n) else b.types n
  pending := b.pending.modifyHead
    (· ++ ns.filter fun n => p.mentionsOlder (p.resolved (b.types n)))
  next := b.next

/-- A board after a level is left: the nodes on its list have their types resolved, and the list of the
level around takes in what is left of it. -/
def left (b : Board) (p : Prefix) : Board :=
  resolve { b with pending := b.pending.tail } p b.top

end Board

/-- A part of inference that keeps the types of nodes on a board. -/
abbrev Pass := StateT Board Solve

namespace Pass

variable {α β : Type}

/-- Does a part of a run that has nothing to do with the board. -/
def act (part : Solve α) : Pass α := fun b => do return (← part, b)

/-- A new node. -/
def build : Pass Nat := modifyGet Board.build

/-- Gives a node a type for good. -/
def assign (n : Nat) (t : Polytype) : Pass Unit := modify (·.assign n t)

/-- Gives a node a type that may still change. -/
def stamp (n : Nat) (t : Polytype) : Pass Unit := modify (·.stamp n t)

/-- Resolves the type of a node. -/
def settle (n : Nat) : Pass Unit := do
  let t ← act (onVars (·.resolve ((← get).types n)))
  modify (·.assign n t)
  if (← act get).vars.mentionsOlder t then modify (·.pend [n])

/-- Enters a level. -/
def enter : Pass Unit := do
  act (changeVars (·.enter))
  modify Board.entered

/-- Leaves a level, after the types of the nodes on its list are resolved. -/
def leave : Pass Unit := do
  let nodes ← modifyGet fun b => (b.top, { b with pending := b.pending.tail })
  nodes.forM settle
  act (changeVars (·.leave))

/-- Does a part of inference at a level of its own. -/
def atLevel (part : Pass α) : Pass α := do
  enter
  let a ← part
  leave
  return a

/-! ## Results of parts -/

section

variable {m : Pass α} {next : α → Pass β} {b c : Board} {s s' : Session} {a : α} {halt : Halt}

theorem bind_apply : (m >>= next) b = (m b >>= fun out => next out.1 out.2) := rfl

theorem bind_of_ok (h : m b s = .ok ((a, c), s')) : (m >>= next) b s = next a c s' := by
  rw [bind_apply, Solve.bind_of_ok h]

theorem bind_of_error (h : m b s = .error halt) : (m >>= next) b s = .error halt := by
  rw [bind_apply, Solve.bind_of_error h]

theorem act_of_ok {part : Solve α} (h : part s = .ok (a, s')) :
    act part b s = .ok ((a, b), s') := by
  unfold act
  rw [Solve.bind_of_ok h]
  rfl

theorem act_of_error {part : Solve α} (h : part s = .error halt) :
    act part b s = .error halt := Solve.bind_of_error h

end

/-! ## Leaving a level -/

theorem mentionsOlder_of_quiet {p q : Prefix} (h : p.Quiet q) (t : Polytype) :
    q.mentionsOlder t = p.mentionsOlder t := by
  unfold Prefix.mentionsOlder Prefix.level
  rw [h.levels]
  simp only [h.find?]

theorem resolve_of_quiet {p q : Prefix} (h : p.Quiet q) (b : Board) (ns : List Nat) :
    b.resolve q ns = b.resolve p ns := by
  simp only [Board.resolve, h.resolved, mentionsOlder_of_quiet h]

/-- Nodes are resolved independently of each other. -/
theorem resolve_cons (b : Board) (p : Prefix) {n : Nat} {ns : List Nat} (h : n ∉ ns) :
    (b.resolve p [n]).resolve p ns = b.resolve p (n :: ns) := by
  -- the others have the types that they had before
  have hTypes : ∀ m ∈ ns, (b.resolve p [n]).types m = b.types m := fun m hm =>
    if_neg (List.mem_singleton.not.2 (ne_of_mem_of_not_mem hm h))
  have hFilter : (ns.filter fun m => p.mentionsOlder (p.resolved ((b.resolve p [n]).types m))) =
      ns.filter fun m => p.mentionsOlder (p.resolved (b.types m)) :=
    List.filter_congr fun m hm => by rw [hTypes m hm]
  refine Board.ext (funext fun m => ?_) ?_ rfl
  · by_cases hm : m ∈ ns
    · simp [Board.resolve, hm, ne_of_mem_of_not_mem hm h]
    · simp [Board.resolve, hm]
  · show ((b.resolve p [n]).pending.modifyHead (· ++ ns.filter _)) = _
    rw [hFilter]
    simp only [Board.resolve]
    rw [List.modifyHead_modifyHead]
    congr 1
    funext l
    rw [Function.comp_apply, List.append_assoc, ← List.filter_append]
    rfl

/-- The misuses that come up as types are resolved. -/
def failures (p : Prefix) (types : List Polytype) : List Failure :=
  types.flatMap fun t => (p.resolution [] t.freeVars.toList).2

theorem failures_of_acyclic {p : Prefix} (h : p.Acyclic) (types : List Polytype) :
    failures p types = [] :=
  List.flatMap_eq_nil_iff.2 fun _ _ => h.resolution_failures _

theorem failures_of_quiet {p q : Prefix} (h : p.Quiet q) (types : List Polytype) :
    failures q types = failures p types := by
  simp only [failures, Prefix.resolution_congr h.solution?]

/-- One node is resolved by giving it its new type, and it goes on a list if it has to. -/
theorem resolve_singleton (b : Board) (p : Prefix) (n : Nat) :
    b.resolve p [n] = if p.mentionsOlder (p.resolved (b.types n))
      then (b.assign n (p.resolved (b.types n))).pend [n] else b.assign n (p.resolved (b.types n)) := by
  -- only the type of the node itself changes
  have hTypes : (b.resolve p [n]).types = Function.update b.types n (p.resolved (b.types n)) := by
    funext m
    by_cases hm : m = n
    · subst hm
      simp [Board.resolve]
    · simp [Board.resolve, hm]
  split_ifs with hOlder
  · exact Board.ext hTypes (by simp [Board.resolve, hOlder, Board.pend, Board.assign]) rfl
  · refine Board.ext hTypes ?_ rfl
    simp only [Board.resolve, hOlder, List.filter_cons, List.filter_nil, Board.assign]
    cases b.pending <;> simp

theorem settle_apply (n : Nat) (b : Board) (s : Session) :
    settle n b s = .ok (((), b.resolve s.vars [n]), ⟨(s.vars.resolve (b.types n)).2, s.sink⟩) := by
  -- what is recorded as the type is resolved does not count for what it mentions
  have hOlder := mentionsOlder_of_quiet (Prefix.quiet_resolve s.vars (b.types n))
    (s.vars.resolved (b.types n))
  show (if (s.vars.resolve (b.types n)).2.mentionsOlder (s.vars.resolved (b.types n))
      then modify (·.pend [n]) else pure () : Pass Unit) (b.assign n (s.vars.resolved (b.types n)))
      ⟨(s.vars.resolve (b.types n)).2, s.sink⟩ = _
  rw [hOlder, resolve_singleton]
  split_ifs <;> rfl

/-- Resolving the types of several nodes. -/
theorem forM_settle_apply {ns : List Nat} (hNodup : ns.Nodup) (b : Board) (s : Session) :
    ns.forM settle b s = .ok (((), b.resolve s.vars ns),
      ⟨s.vars.failAll (failures s.vars (ns.map b.types)), s.sink⟩) := by
  induction ns generalizing b s with
  | nil =>
    have hBoard : b.resolve s.vars [] = b := by
      refine Board.ext (by simp [Board.resolve]) ?_ rfl
      cases hPending : b.pending <;> simp [Board.resolve, hPending]
    rw [hBoard]
    rfl
  | cons n ns ih =>
    obtain ⟨hn, hNodup⟩ := List.nodup_cons.1 hNodup
    -- no more than misuses are recorded for the first node, and the others are resolved as before
    have hQuiet := Prefix.quiet_resolve s.vars (b.types n)
    have hTypes : ns.map (b.resolve s.vars [n]).types = ns.map b.types :=
      List.map_congr_left fun m hm => if_neg (List.mem_singleton.not.2 (ne_of_mem_of_not_mem hm hn))
    show (settle n >>= fun _ => ns.forM settle) b s = _
    rw [bind_of_ok (settle_apply n b s), ih hNodup, resolve_of_quiet hQuiet,
      resolve_cons b s.vars hn, failures_of_quiet hQuiet, hTypes]
    simp only [Prefix.resolve, Prefix.failAll, ← List.foldl_append]
    rfl

/-- What is on the board and in play after a level is left. -/
theorem leave_apply {b : Board} (hNodup : b.top.Nodup) (s : Session) :
    leave b s = .ok (((), b.left s.vars),
      ⟨(s.vars.failAll (failures s.vars (b.top.map b.types))).leave, s.sink⟩) := by
  show (b.top.forM settle >>= fun _ => act (changeVars (·.leave)))
    { b with pending := b.pending.tail } s = _
  rw [bind_of_ok (forM_settle_apply hNodup _ s)]
  rfl

theorem atLevel_of_ok {α : Type} {m : Pass α} {b c : Board} {s s' : Session} {a : α}
    (h : m b.entered ⟨s.vars.enter, s.sink⟩ = .ok ((a, c), s')) (hNodup : c.top.Nodup) :
    atLevel m b s = .ok ((a, c.left s'.vars),
      ⟨(s'.vars.failAll (failures s'.vars (c.top.map c.types))).leave, s'.sink⟩) := by
  show (m >>= fun a => leave >>= fun _ => pure a) b.entered ⟨s.vars.enter, s.sink⟩ = _
  rw [bind_of_ok h, bind_of_ok (leave_apply hNodup s')]
  rfl

theorem atLevel_of_error {α : Type} {m : Pass α} {b : Board} {s : Session} {halt : Halt}
    (h : m b.entered ⟨s.vars.enter, s.sink⟩ = .error halt) : atLevel m b s = .error halt := by
  show (m >>= fun a => leave >>= fun _ => pure a) b.entered ⟨s.vars.enter, s.sink⟩ = _
  rw [bind_of_error h]

end Pass

/-! ## What a part of inference may do to a board -/

/-- The list of the current level with more nodes at its end. -/
theorem mem_flatten_modifyHead {ns : List Nat} {levels : List (List Nat)} {n : Nat}
    (h : n ∈ (levels.modifyHead (· ++ ns)).flatten) : n ∈ levels.flatten ∨ n ∈ ns := by
  cases levels with
  | nil => cases h
  | cons top rest =>
    simp only [List.modifyHead_cons, List.flatten_cons, List.mem_append] at h ⊢
    tauto

theorem nodup_flatten_modifyHead {ns : List Nat} {levels : List (List Nat)}
    (h : levels.flatten.Nodup) (hNodup : ns.Nodup) (hNew : ∀ n ∈ ns, n ∉ levels.flatten) :
    (levels.modifyHead (· ++ ns)).flatten.Nodup := by
  cases levels with
  | nil => exact List.nodup_nil
  | cons top rest =>
    -- the new nodes may as well stand in front
    have hPerm : ((top ++ ns) ++ rest.flatten).Perm (ns ++ (top ++ rest.flatten)) := by
      rw [← List.append_assoc]
      exact List.perm_append_comm.append_right _
    refine (hPerm.nodup_iff).2 (hNodup.append h fun n hn hOld => hNew n hn hOld)

namespace Board

variable {own own₁ own₂ : Set Nat} {b c d : Board} {n : Nat} {t : Polytype}

/-- What a part of inference may do to a board if it owns some nodes: it gives types to these and to new
nodes only, and it adds such nodes to the list of the current level. -/
structure Grows (own : Set Nat) (b c : Board) : Prop where
  next_le : b.next ≤ c.next
  types : ∀ n < b.next, n ∉ own → c.types n = b.types n
  pending : ∃ new : List Nat, c.pending = b.pending.modifyHead (· ++ new) ∧ new.Nodup ∧
    ∀ n ∈ new, n < c.next ∧ (n ∈ own ∨ b.next ≤ n)

/-- A board on which no node waits twice and the given nodes do not wait. -/
structure Ready (own : Set Nat) (b : Board) : Prop where
  nodup : b.pending.flatten.Nodup
  lt_next : ∀ n ∈ b.pending.flatten, n < b.next
  own_lt : ∀ n ∈ own, n < b.next
  own_free : ∀ n ∈ own, n ∉ b.pending.flatten

theorem Ready.mono (h : b.Ready own₂) (hSub : own₁ ⊆ own₂) : b.Ready own₁ :=
  ⟨h.nodup, h.lt_next, fun n hn => h.own_lt n (hSub hn), fun n hn => h.own_free n (hSub hn)⟩

theorem Ready.nodup_top (h : b.Ready own) : b.top.Nodup := by
  unfold top
  have hNodup := h.nodup
  cases hPending : b.pending with
  | nil => exact List.nodup_nil
  | cons ns rest =>
    rw [hPending, List.flatten_cons] at hNodup
    exact hNodup.of_append_left

theorem Grows.mono (h : b.Grows own₁ c) (hSub : own₁ ⊆ own₂) : b.Grows own₂ c := by
  obtain ⟨new, hPending, hNodup, hNew⟩ := h.pending
  exact ⟨h.next_le, fun n hn hOwn => h.types n hn fun hn' => hOwn (hSub hn'), new, hPending, hNodup,
    fun n hn => ⟨(hNew n hn).1, (hNew n hn).2.imp_left fun hn' => hSub hn'⟩⟩

theorem modifyHead_append_nil (levels : List (List Nat)) :
    levels.modifyHead (· ++ []) = levels := by
  cases levels <;> simp

theorem Grows.refl (own : Set Nat) (b : Board) : b.Grows own b :=
  ⟨le_rfl, fun _ _ _ => rfl, [], (modifyHead_append_nil _).symm, List.nodup_nil, by simp⟩

/-- Nodes that a part does not own are left for the part after it. -/
theorem Ready.grows (h : b.Ready (own₁ ∪ own₂)) (hDisjoint : Disjoint own₁ own₂)
    (hGrows : b.Grows own₁ c) : c.Ready own₂ := by
  -- what the part has added to the list of the current level
  obtain ⟨new, hPending, hNodup, hNew⟩ := hGrows.pending
  -- a new entry of the list was not on any list before
  have hFresh : ∀ n ∈ new, n ∉ b.pending.flatten := by
    intro n hn hOld
    rcases (hNew n hn).2 with hOwn | hLe
    · exact h.own_free n (Or.inl hOwn) hOld
    · exact absurd (h.lt_next n hOld) (by omega)
  refine ⟨?_, fun n hn => ?_, fun n hn => (h.own_lt n (Or.inr hn)).trans_le hGrows.next_le,
    fun n hn hOld => ?_⟩
  · rw [hPending]
    exact nodup_flatten_modifyHead h.nodup hNodup hFresh
  · rw [hPending] at hn
    rcases mem_flatten_modifyHead hn with hn | hn
    · exact (h.lt_next n hn).trans_le hGrows.next_le
    · exact (hNew n hn).1
  -- a node that is left for later was not waiting, and the part has not put it on the list
  · rw [hPending] at hOld
    rcases mem_flatten_modifyHead hOld with hOld | hOld
    · exact h.own_free n (Or.inr hn) hOld
    · rcases (hNew n hOld).2 with hOwn | hLe
      · exact hDisjoint.notMem_of_mem_left hOwn hn
      · exact absurd (h.own_lt n (Or.inr hn)) (by omega)

/-- One part after the other. The second part may also own nodes that the first one has built. -/
theorem Grows.trans (h : b.Grows own₁ c) (h' : c.Grows own₂ d) (hReady : c.Ready own₂)
    (hSub : own₁ ⊆ own) (hSub' : ∀ n ∈ own₂, n ∈ own ∨ b.next ≤ n) : b.Grows own d := by
  obtain ⟨new, hPending, hNodup, hNew⟩ := h.pending
  obtain ⟨new', hPending', hNodup', hNew'⟩ := h'.pending
  have hLe := h.next_le
  have hLe' := h'.next_le
  refine ⟨hLe.trans hLe', fun n hn hOwn => ?_, ?_⟩
  · have hOwn₂ : n ∉ own₂ := fun hn' => (hSub' n hn').elim hOwn (by omega)
    rw [h'.types n (by omega) hOwn₂, h.types n hn fun hn' => hOwn (hSub hn')]
  · cases hLevels : b.pending with
    | nil =>
      -- without a level there is no list to add to
      rw [hPending', hPending, hLevels]
      exact ⟨[], rfl, List.nodup_nil, by simp⟩
    | cons top rest =>
      refine ⟨new ++ new', ?_, hNodup.append hNodup' fun n hn hn' => ?_, fun n hn => ?_⟩
      · rw [hPending', hPending, hLevels]
        simp only [List.modifyHead_cons, List.append_assoc]
      -- what the second part adds did not wait when it began
      · rcases (hNew' n hn').2 with hOwn | hBuilt
        · refine hReady.own_free n hOwn ?_
          rw [hPending, hLevels]
          simp [hn]
        · exact absurd (hNew n hn).1 (by omega)
      · rcases List.mem_append.1 hn with hn | hn
        · exact ⟨(hNew n hn).1.trans_le hLe', (hNew n hn).2.imp_left fun hn' => hSub hn'⟩
        · refine ⟨(hNew' n hn).1, ?_⟩
          rcases (hNew' n hn).2 with hOwn | hBuilt
          · exact hSub' n hOwn
          · exact Or.inr (hLe.trans hBuilt)

theorem grows_assign (b : Board) (n : Nat) (t : Polytype) : b.Grows {n} (b.assign n t) :=
  ⟨le_rfl, fun _ _ hm => Function.update_of_ne hm _ _, [], (modifyHead_append_nil _).symm,
    List.nodup_nil, by simp⟩

theorem grows_stampAll {ns : List Nat} (hNodup : ns.Nodup) (hLt : ∀ n ∈ ns, n < b.next)
    (t : Polytype) : b.Grows {n | n ∈ ns} (b.stampAll ns t) := by
  refine ⟨le_rfl, fun _ _ hn => if_neg hn, ?_⟩
  show ∃ new, (if t.freeVars.size = 0 then b.pending else b.pending.modifyHead (· ++ ns)) = _ ∧ _
  split_ifs
  · exact ⟨[], (modifyHead_append_nil _).symm, List.nodup_nil, by simp⟩
  · exact ⟨ns, rfl, hNodup, fun n hn => ⟨hLt n hn, Or.inl hn⟩⟩

theorem stamp_eq (b : Board) (n : Nat) (t : Polytype) : b.stamp n t = b.stampAll [n] t := by
  have hTypes : Function.update b.types n t = (b.stampAll [n] t).types := by
    funext m
    simp [stampAll, Function.update_apply]
  unfold stamp
  split_ifs with hSize
  · exact Board.ext hTypes (if_pos hSize).symm rfl
  · exact Board.ext hTypes (if_neg hSize).symm rfl

theorem grows_stamp (hn : n < b.next) (t : Polytype) : b.Grows {n} (b.stamp n t) := by
  have hGrows := grows_stampAll (List.nodup_singleton n)
    (fun m hm => (List.mem_singleton.1 hm ▸ hn : m < b.next)) t
  rw [stamp_eq]
  exact hGrows.mono fun m hm => List.mem_singleton.1 hm

theorem stampAll_cons (b : Board) (n : Nat) (ns : List Nat) (t : Polytype) :
    (b.stamp n t).stampAll ns t = b.stampAll (n :: ns) t := by
  rw [stamp_eq]
  refine Board.ext (funext fun m => ?_) ?_ rfl
  · by_cases hm : m ∈ ns
    · simp [stampAll, hm]
    · simp [stampAll, hm]
  · -- the list: nothing is added to it if the type has no free names
    simp only [stampAll]
    split_ifs
    · rfl
    · rw [List.modifyHead_modifyHead]
      congr 1
      funext l
      simp

/-- Nodes that get the same type one after the other. -/
theorem foldl_stamp (b : Board) (ns : List Nat) (t : Polytype) :
    ns.foldl (fun b n => b.stamp n t) b = b.stampAll ns t := by
  induction ns generalizing b with
  | nil =>
    refine Board.ext (by simp [stampAll]) ?_ rfl
    simp only [stampAll]
    split_ifs
    · rfl
    · exact (modifyHead_append_nil _).symm
  | cons n ns ih => rw [List.foldl_cons, ih, stampAll_cons]

theorem grows_build (b : Board) : b.Grows ∅ b.build.2 :=
  ⟨Nat.le_succ _, fun _ hm _ => Function.update_of_ne hm.ne _ _, [], (modifyHead_append_nil _).symm,
    List.nodup_nil, by simp⟩

/-- A new node does not wait. -/
theorem Ready.build (h : b.Ready own) : b.build.2.Ready {b.next} where
  nodup := h.nodup
  lt_next n hn := (h.lt_next n hn).trans (Nat.lt_succ_self _)
  own_lt n hn := by
    obtain rfl := hn
    exact Nat.lt_succ_self _
  own_free n hn hOld := by
    obtain rfl := hn
    exact lt_irrefl _ (h.lt_next _ hOld)

theorem Ready.entered (h : b.Ready own) : b.entered.Ready own :=
  ⟨h.nodup, h.lt_next, h.own_lt, h.own_free⟩

/-- What is done at a level of its own, as seen from the level around. -/
theorem Grows.left (h : b.entered.Grows own c) (p : Prefix) : b.Grows own (c.left p) := by
  obtain ⟨new, hPending, hNodup, hNew⟩ := h.pending
  -- the list of the new level holds what the part has added
  have hTop : c.top = new := by
    rw [top, hPending]
    rfl
  refine ⟨h.next_le, fun n hn hOwn => ?_,
    new.filter fun n => p.mentionsOlder (p.resolved (c.types n)), ?_, hNodup.filter _, fun n hn => ?_⟩
  · -- a node that the part does not own is not on the list of its level
    have hMem : n ∉ c.top := by
      rw [hTop]
      exact fun hMem => (hNew n hMem).2.elim hOwn hn.not_ge
    exact (if_neg hMem).trans (h.types n hn hOwn)
  · show c.pending.tail.modifyHead _ = _
    rw [hTop, hPending]
    rfl
  · exact hNew n (List.mem_filter.1 hn).1

end Board

end Mlf
