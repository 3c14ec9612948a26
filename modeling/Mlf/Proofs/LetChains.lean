import Mlf.Proofs.InPlace
import Mlf.Proofs.Marks

/-!
# Chains of local definitions

A program may hold long chains of local definitions, each one in the body of the one before. Walking
over such a chain, copying it and inferring its types can be done in a loop, with what is to be closed
later kept in a list. This has to come to the same as the rule that takes one definition at a time and
treats the body by the rule again.

For walks and copies the two are equal. Inference puts types on a board. The rule gives the innermost
definition its type first, and the loop the outermost one. So the lists of nodes that wait for a level
to be left may differ in their order, but only where nodes have the same type, and this makes no
difference for what becomes of the nodes when the level is left.

Main results:

* `Expr.walk_eq`, `Expr.copy_eq`, `Expr.copyEach_copyOf` — walks and copies;
* `Pass.Alike` — parts of inference that come to the same up to the order of waiting nodes, with a rule
  for each step;
* `InPlace.loop_alike` — inference in a loop and by the rule.
-/

namespace Mlf

open Solve

/-- A local definition without its body. -/
structure OpenLet (α : Type) where
  info : α
  name : String
  value : Expr α

namespace Expr

variable {α : Type}

/-- A body under local definitions, the first one outermost. -/
def closeLets (chain : List (OpenLet α)) (body : Expr α) : Expr α :=
  chain.foldr (fun l b => letIn l.info l.name l.value b) body

theorem closeLets_singleton (a : α) (x : String) (v : Expr α) :
    closeLets [⟨a, x, v⟩] = letIn a x v := rfl

theorem closeLets_append (chain : List (OpenLet α)) (a : α) (x : String) (v : Expr α) :
    closeLets (chain ++ [⟨a, x, v⟩]) = fun body => closeLets chain (letIn a x v body) := by
  funext body
  simp [closeLets]

/-! ## Walks -/

mutual

/-- Walks over an expression and adds the nodes to a log, up to the first part of an unknown form; and
whether there is none. -/
def walk (log : List (Expr α)) (e : Expr α) : List (Expr α) × Bool :=
  match e with
  | missing => (log, true)
  | unknown => (log, false)
  | var .. | const .. => (log ++ [e], true)
  | func _ _ b => walk (log ++ [e]) b
  | annot _ v _ => walk (log ++ [e]) v
  | error _ _ i => walk (log ++ [e]) i
  | call _ c d =>
    match walk (log ++ [e]) c with
    | (log, false) => (log, false)
    | (log, true) => walk log d
  | letIn a x v b => walkLets log a x v b
termination_by (sizeOf e, 1)

/-- The loop of a walk over a chain of local definitions. Each round is about one definition and its
value. It is followed by another one if the body is a definition too, and otherwise the loop is left
for a walk over the body. -/
def walkLets (log : List (Expr α)) (a : α) (x : String) (v b : Expr α) : List (Expr α) × Bool :=
  match walk (log ++ [letIn a x v b]) v with
  | (log, false) => (log, false)
  | (log, true) =>
    match b with
    | letIn a' x' v' b' => walkLets log a' x' v' b'
    | body => walk log body
termination_by (sizeOf (letIn a x v b), 0)

end

/-- After the value of a definition, the loop does with the body what a walk over it does. -/
theorem walkLets_eq (log : List (Expr α)) (a : α) (x : String) (v b : Expr α) :
    walkLets log a x v b =
      match walk (log ++ [letIn a x v b]) v with
      | (log, false) => (log, false)
      | (log, true) => walk log b := by
  rw [walkLets]
  rcases walk (log ++ [letIn a x v b]) v with ⟨log, ok⟩
  cases ok with
  | false => rfl
  | true =>
    cases b with
    -- the loop goes on with the definition in the body
    | letIn a' x' v' b' => simp only [walk]
    | _ => rfl

/-- A walk with a loop for chains visits what the rule for one definition at a time does. -/
theorem walk_eq (e : Expr α) (log : List (Expr α)) :
    walk log e = (log ++ e.visit.1, e.visit.2) := by
  induction e generalizing log with
  | missing => simp [walk, visit]
  | unknown => simp [walk, visit]
  | var a x => simp [walk, visit]
  | const a v => simp [walk, visit]
  | func a x b ih => simp [walk, visit, ih]
  | annot a v t ih => simp [walk, visit, ih]
  | error a d i ih => simp [walk, visit, ih]
  | call a c d ihc ihd =>
    simp only [walk, visit, ihc]
    -- an unknown form in the callee ends the walk before the argument
    rcases hc : c.visit with ⟨ns, ok⟩
    cases ok with
    | false => simp
    | true => simp [ihd]
  -- the loop leaves off where the walk over the body starts
  | letIn a x v b ihv ihb =>
    simp only [walk, walkLets_eq, visit, ihv]
    rcases hv : v.visit with ⟨ns, ok⟩
    cases ok with
    | false => simp
    | true => simp [ihb]

/-! ## Copies -/

/-- A number for a new node, beside what the node carries. -/
def number (a : α) : StateM Nat (Nat × α) := fun n => ((n, a), n + 1)

mutual

/-- Copies an expression. The nodes of the copy are numbered in the order in which they are built. -/
def copy (e : Expr α) : StateM Nat (Expr (Nat × α)) :=
  match e with
  | missing => return missing
  | unknown => return unknown
  | var a x => return var (← number a) x
  | const a v => return const (← number a) v
  | func a x b => do
    let b ← copy b
    return func (← number a) x b
  | call a c d => do
    let c ← copy c
    let d ← copy d
    return call (← number a) c d
  | letIn a x v b => do
    let v ← copy v
    copyLets [⟨← number a, x, v⟩] b
  | annot a v t => do
    let v ← copy v
    return annot (← number a) v t
  | error a d i => do
    let i ← copy i
    return error (← number a) d i
termination_by (sizeOf e, 0)

/-- The loop of a copy over a chain of local definitions, with the copies that have no body yet. The
next one becomes the body of the last if there is a next definition, and otherwise the loop is left and
a copy of the body takes the place. -/
def copyLets (chain : List (OpenLet (Nat × α))) (body : Expr α) : StateM Nat (Expr (Nat × α)) :=
  match body with
  | letIn a x v b => do
    let v ← copy v
    copyLets (chain ++ [⟨← number a, x, v⟩]) b
  | body => do
    let b ← copy body
    return closeLets chain b
termination_by (sizeOf body, 1)

end

/-- Copies an expression, one local definition at a time: the value, the body, and then the definition
itself. If `early` is set, the definition is built before its body is copied, and gets the copy of the
body when there is one. -/
def copyEach (early : Bool) : Expr α → StateM Nat (Expr (Nat × α))
  | missing => return missing
  | unknown => return unknown
  | var a x => return var (← number a) x
  | const a v => return const (← number a) v
  | func a x b => do
    let b ← b.copyEach early
    return func (← number a) x b
  | call a c d => do
    let c ← c.copyEach early
    let d ← d.copyEach early
    return call (← number a) c d
  | letIn a x v b => do
    let v ← v.copyEach early
    if early then
      let n ← number a
      return letIn n x v (← b.copyEach early)
    else
      let b ← b.copyEach early
      return letIn (← number a) x v b
  | annot a v t => do
    let v ← v.copyEach early
    return annot (← number a) v t
  | error a d i => do
    let i ← i.copyEach early
    return error (← number a) d i

/-- The loop puts a copy of the body, whatever that is, under the definitions that are open. -/
theorem copyLets_eq (body : Expr α) (chain : List (OpenLet (Nat × α))) :
    copyLets chain body = closeLets chain <$> copy body := by
  induction body generalizing chain with
  | letIn a x v b _ ih =>
    -- a definition in the body: one more is open
    rw [copyLets, copy]
    simp only [ih, map_bind, closeLets_append]
    simp [closeLets]
  | _ =>
    rw [copyLets]
    · simp
    · nofun

/-- A copy with a loop for chains is built as by the rule for one definition at a time, with a
definition before its body. -/
theorem copy_eq (e : Expr α) : copy e = e.copyEach true := by
  induction e with
  | missing => simp [copy, copyEach]
  | unknown => simp [copy, copyEach]
  | var a x => simp [copy, copyEach]
  | const a v => simp [copy, copyEach]
  | func a x b ih => simp [copy, copyEach, ih]
  | call a c d ihc ihd => simp [copy, copyEach, ihc, ihd]
  | letIn a x v b ihv ihb =>
    simp [copy, copyEach, copyLets_eq, ihv, ihb, closeLets_singleton]
  | annot a v t ih => simp [copy, copyEach, ih]
  | error a d e ih => simp [copy, copyEach, ih]

/-- Numbers that follow on each other, the last one first. -/
theorem perm_range'_cons {ns : List Nat} {n k : Nat} (h : ns.Perm (List.range' n k)) :
    ((n + k) :: ns).Perm (List.range' n (k + 1)) := by
  rw [List.range'_1_concat]
  exact (h.cons _).trans (List.perm_append_singleton _ _).symm

theorem perm_range'_append {ns ms : List Nat} {n k l : Nat} (h : ns.Perm (List.range' n k))
    (h' : ms.Perm (List.range' (n + k) l)) : (ns ++ ms).Perm (List.range' n (k + l)) := by
  rw [← List.range'_append_1]
  exact h.append h'

/-- A copy of an expression that was begun at the number `n`: it is the same expression, and its nodes
have the next numbers, each node one of its own. -/
structure CopyOf (e : Expr α) (n : Nat) (out : Expr (Nat × α) × Nat) : Prop where
  tree : out.1.map Prod.snd = e
  next : out.2 = n + e.infos.length
  numbers : (out.1.infos.map Prod.fst).Perm (List.range' n e.infos.length)

section

variable {a : α} {c d e : Expr α} {n : Nat} {node : Expr (Nat × α)} {out out' : Expr (Nat × α) × Nat}

/-- A node that is built after its only part. -/
theorem CopyOf.after_one (h : CopyOf c n out) (hTree : node.map Prod.snd = e)
    (hInfos : e.infos = a :: c.infos) (hNode : node.infos = (out.2, a) :: out.1.infos) :
    CopyOf e n (node, out.2 + 1) := by
  refine ⟨hTree, ?_, ?_⟩
  · rw [hInfos, h.next, List.length_cons, Nat.add_assoc]
  · rw [hInfos, hNode, h.next, List.map_cons, List.length_cons]
    exact perm_range'_cons h.numbers

/-- A node that is built after its two parts. -/
theorem CopyOf.after_two (h : CopyOf c n out) (h' : CopyOf d out.2 out')
    (hTree : node.map Prod.snd = e) (hInfos : e.infos = a :: (c.infos ++ d.infos))
    (hNode : node.infos = (out'.2, a) :: (out.1.infos ++ out'.1.infos)) :
    CopyOf e n (node, out'.2 + 1) := by
  have hNext := h'.next
  have hNumbers := h'.numbers
  rw [h.next] at hNext hNumbers
  refine ⟨hTree, ?_, ?_⟩
  · rw [hInfos, hNext, List.length_cons, List.length_append]
    omega
  · rw [hInfos, hNode, hNext, List.map_cons, List.map_append, List.length_cons, List.length_append,
      Nat.add_assoc]
    exact perm_range'_cons (perm_range'_append h.numbers hNumbers)

/-- A node that is built between its two parts. -/
theorem CopyOf.between (h : CopyOf c n out) (h' : CopyOf d (out.2 + 1) out')
    (hTree : node.map Prod.snd = e) (hInfos : e.infos = a :: (c.infos ++ d.infos))
    (hNode : node.infos = (out.2, a) :: (out.1.infos ++ out'.1.infos)) :
    CopyOf e n (node, out'.2) := by
  have hNext := h'.next
  have hNumbers := h'.numbers
  rw [h.next, Nat.add_assoc] at hNext hNumbers
  refine ⟨hTree, ?_, ?_⟩
  · rw [hInfos, hNext, List.length_cons, List.length_append]
    omega
  · rw [hInfos, hNode, h.next, List.map_cons, List.map_append, List.length_cons, List.length_append,
      Nat.add_right_comm]
    exact perm_range'_append (perm_range'_cons h.numbers) hNumbers

end

/-- A copy by the rule is the same expression with the next numbers for its nodes, whether a
definition is built before its body or after it. -/
theorem copyEach_copyOf (early : Bool) (e : Expr α) (n : Nat) : CopyOf e n (e.copyEach early n) := by
  induction e generalizing n with
  | missing => exact ⟨rfl, rfl, .refl _⟩
  | unknown => exact ⟨rfl, rfl, .refl _⟩
  | var a x => exact ⟨rfl, rfl, .refl _⟩
  | const a v => exact ⟨rfl, rfl, .refl _⟩
  | func a x b ih => exact (ih n).after_one (congrArg (func a x) (ih n).tree) rfl rfl
  | call a c d ihc ihd =>
    exact (ihc n).after_two (ihd _) (congrArg₂ (call a) (ihc n).tree (ihd _).tree)
      (infos_call a c d) (infos_call _ _ _)
  | letIn a x v b ihv ihb =>
    -- the number of a definition lies between those of value and body, or after both
    cases early with
    | true =>
      exact (ihv n).between (ihb _) (congrArg₂ (letIn a x) (ihv n).tree (ihb _).tree)
        (infos_letIn a x v b) (infos_letIn _ x _ _)
    | false =>
      exact (ihv n).after_two (ihb _) (congrArg₂ (letIn a x) (ihv n).tree (ihb _).tree)
        (infos_letIn a x v b) (infos_letIn _ x _ _)
  | annot a v t ih => exact (ih n).after_one (congrArg (annot a · t) (ih n).tree) rfl rfl
  | error a d i ih => exact (ih n).after_one (congrArg (error a d) (ih n).tree) rfl rfl

end Expr

/-! ## Inference in place -/

namespace InPlace

open Pass

/-- An expression whose nodes have types on the board, and its type. -/
abbrev Typed := Expr Nat × Polytype

/-- The type of a function, at the level of its parameter. -/
def functionType (param : Monotype) (bodyType : Polytype) : Solve Polytype := do
  let result ← Infer.monomorphize bodyType .flexible
  onVars (·.generalize (.fn param result : Monotype))

/-- The type of a call, at a level of its own. -/
def callType (fuel : Nat) (calleeType argType : Polytype) : Solve (Polytype × Verdict) := do
  let function ← Infer.monomorphize calleeType .flexible
  let param ← Infer.monomorphize argType .flexible
  let result := Monotype.var (← onVars (·.newType .unbounded))
  let verdict ← unifyCall fuel function (.fn param result)
  return (← onVars (·.generalize result), verdict)

/-- The type of an annotation, at a level of its own. -/
def annotationType (fuel : Nat) (valueType declared : Polytype) : Solve (Polytype × Verdict) := do
  let actual ← Infer.monomorphize valueType .flexible
  let expected ← Infer.monomorphize declared .rigid
  let verdict ← unify fuel actual expected
  return ((← onVars (·.generalize declared)).normal, verdict)

/-- Wraps an expression into an error, if there is a report about it. -/
def mark (verdict : Verdict) (t : Polytype) (e : Expr Nat) : Pass (Expr Nat) :=
  match verdict with
  | none => return e
  | some d => do
    let n ← build
    stamp n t
    return .error n d e

/-- A part that is missing. -/
def nothing (config : Config) : Pass Typed := do
  act (Infer.fault config .emptyExpression)
  return (.missing, .bottom)

/-- A part of an unknown form. -/
def stranger (config : Config) : Pass Typed := do
  act (Infer.fault config .unknownExpression)
  return (.error (← build) (.internal .unknownExpression) .unknown, .bottom)

/-- A variable has the type that the scope gives it. -/
def name (scope : Scope) (n : Nat) (x : String) : Pass Typed :=
  match scope.find? x with
  | some t => do
    stamp n t
    return (.var n x, t)
  | none => do
    let d := Diagnostic.unbound x
    act (report d)
    assign n .bottom
    return (.error (← build) d (.var n x), .bottom)

/-- A constant has its base type for good. -/
def constant (n : Nat) (v : Value) : Pass Typed := do
  assign n (.mono (.const v.base))
  return (.const n v, .mono (.const v.base))

/-- A function: its body is inferred at a level of its own, where the parameter is a new variable.
-/
def function (n : Nat) (x : String) (body : Monotype → Pass Typed) : Pass Typed := do
  let (body, t) ← atLevel do
    let param := Monotype.var (← act (onVars (·.newType .unbounded)))
    let (body, bodyType) ← body param
    return (body, ← act (functionType param bodyType))
  stamp n t
  act (note (.function x t))
  return (.func n x body, t)

/-- A call: both of its parts are inferred at a level of their own, and then unified there. -/
def application (config : Config) (n : Nat) (callee arg : Pass Typed) : Pass Typed := do
  let ((callee, arg), t, verdict) ← atLevel do
    let (callee, calleeType) ← callee
    let (arg, argType) ← arg
    return ((callee, arg), ← act (callType config.fuel calleeType argType))
  stamp n t
  act (note (.call t verdict.isSome))
  return (← mark verdict t (.call n callee arg), t)

/-- An annotation: the names of the declared type come first, then the value is inferred and
checked. -/
def annotate (config : Config) (n : Nat) (declared : Polytype) (value : Pass Typed) :
    Pass Typed := do
  let (value, t, verdict) ← atLevel do
    act (changeVars fun p => p.declare (p.wildcards declared))
    let (value, valueType) ← value
    return (value, ← act (annotationType config.fuel valueType declared))
  stamp n t
  return (← mark verdict t (.annot n value declared), t)

/-- An error that was there before has no type, and neither has what it stands around. -/
def failed (n : Nat) (d : Diagnostic) : (inner : Expr Nat) → Pass Typed → Pass Typed
  | .missing, _ => do
    assign n .bottom
    return (.error n d .missing, .bottom)
  | _, part => do
    let (inner, _) ← atLevel part
    assign n .bottom
    return (.error n d inner, .bottom)

/-- Infers the types of an expression, one local definition at a time: the value, the body in the scope
with the definition, and then the definition has the type of its body. -/
def inferEach (config : Config) (scope : Scope) : Expr Nat → Pass Typed
  | .missing => nothing config
  | .unknown => stranger config
  | .var n x => name scope n x
  | .const n v => constant n v
  | .func n x body => function n x fun param => inferEach config (scope.insert x param) body
  | .call n callee arg =>
    application config n (inferEach config scope callee) (inferEach config scope arg)
  | .letIn n x value body => do
    let (value, valueType) ← inferEach config scope value
    let (body, t) ← inferEach config (scope.insert x valueType) body
    stamp n t
    return (.letIn n x value body, t)
  | .annot n value declared => annotate config n declared (inferEach config scope value)
  | .error n d inner => failed n d inner (inferEach config scope inner)

/-- Ends a chain of local definitions: they all get the type of the last body, the outermost one first.
-/
def finish (chain : List (OpenLet Nat)) (body : Typed) : Pass Typed := do
  modify fun b => (chain.map OpenLet.info).foldl (fun b n => b.stamp n body.2) b
  return (.closeLets chain body.1, body.2)

/-- Infers the types of an expression that stands under open local definitions. With its value done, a
definition joins them and hands over to its body. -/
def inferLoop (config : Config) (chain : List (OpenLet Nat)) (scope : Scope) :
    Expr Nat → Pass Typed
  | .missing => nothing config >>= finish chain
  | .unknown => stranger config >>= finish chain
  | .var n x => name scope n x >>= finish chain
  | .const n v => constant n v >>= finish chain
  | .func n x body =>
    (function n x fun param => inferLoop config [] (scope.insert x param) body) >>= finish chain
  | .call n callee arg =>
    application config n (inferLoop config [] scope callee) (inferLoop config [] scope arg) >>=
      finish chain
  | .letIn n x value body => do
    let (value, valueType) ← inferLoop config [] scope value
    inferLoop config (chain ++ [⟨n, x, value⟩]) (scope.insert x valueType) body
  | .annot n value declared =>
    annotate config n declared (inferLoop config [] scope value) >>= finish chain
  | .error n d inner => failed n d inner (inferLoop config [] scope inner) >>= finish chain

end InPlace

/-! ## Boards up to the order of waiting nodes -/

/-- The same nodes in another order, if nodes that change places have the same type. -/
def Rearranged (types : Nat → Polytype) (ns ms : List Nat) : Prop :=
  ns.Perm ms ∧ ns.map types = ms.map types

namespace Rearranged

variable {types types' : Nat → Polytype} {ns ns' ms ms' : List Nat}

theorem append (h : Rearranged types ns ms) (h' : Rearranged types ns' ms') :
    Rearranged types (ns ++ ns') (ms ++ ms') :=
  ⟨h.1.append h'.1, by rw [List.map_append, List.map_append, h.2, h'.2]⟩

/-- Only the types of the nodes in question matter. -/
theorem congr (h : Rearranged types ns ms) (hTypes : ∀ n ∈ ns, types' n = types n) :
    Rearranged types' ns ms := by
  refine ⟨h.1, ?_⟩
  rw [List.map_congr_left hTypes, h.2]
  exact (List.map_congr_left fun n hn => hTypes n (h.1.mem_iff.2 hn)).symm

/-- Nodes of one type may change places at will. -/
theorem of_perm (h : ns.Perm ms) {t : Polytype} (hTypes : ∀ n ∈ ns, types n = t) :
    Rearranged types ns ms := by
  refine ⟨h, ?_⟩
  rw [List.map_congr_left hTypes, List.map_congr_left fun n hn => hTypes n (h.mem_iff.2 hn),
    List.map_const', List.map_const', h.length_eq]

/-- New types may depend on the old ones, and nodes may be left out by their types. -/
theorem filter_comp (h : Rearranged types ns ms) (f : Polytype → Polytype) (keep : Polytype → Bool) :
    Rearranged (f ∘ types) (ns.filter fun n => keep (types n)) (ms.filter fun n => keep (types n)) := by
  -- the new types of what is kept are a function of the list of old types
  have hMap (ns : List Nat) : (ns.filter fun n => keep (types n)).map (f ∘ types) =
      ((ns.map types).filter keep).map f := by
    rw [List.filter_map, List.map_map]
    rfl
  exact ⟨h.1.filter _, by rw [hMap, hMap, h.2]⟩

section

variable {levels levels' : List (List Nat)}

theorem levels_congr (h : List.Forall₂ (Rearranged types) levels levels')
    (hTypes : ∀ n ∈ levels.flatten, types' n = types n) :
    List.Forall₂ (Rearranged types') levels levels' := by
  induction h with
  | nil => exact .nil
  | cons hTop _ ih =>
    exact .cons (hTop.congr fun n hn => hTypes n (by simp [hn]))
      (ih fun n hn => hTypes n (by simp [hn]))

theorem levels_append (h : List.Forall₂ (Rearranged types) levels levels')
    (hNew : Rearranged types ns ms) :
    List.Forall₂ (Rearranged types) (levels.modifyHead (· ++ ns)) (levels'.modifyHead (· ++ ms)) := by
  cases h with
  | nil => exact .nil
  | cons hTop hRest => exact .cons (hTop.append hNew) hRest

end

end Rearranged

namespace Board

variable {own : Set Nat} {b b' : Board}

/-- Boards that differ only in the order of waiting nodes, and there only in the order of nodes with the
same type. -/
structure Similar (b b' : Board) : Prop where
  types : b'.types = b.types
  pending : List.Forall₂ (Rearranged b.types) b.pending b'.pending
  next : b'.next = b.next

theorem Similar.refl (b : Board) : b.Similar b :=
  ⟨rfl, List.forall₂_same.2 fun _ _ => ⟨.refl _, rfl⟩, rfl⟩

theorem Similar.top (h : b.Similar b') : Rearranged b.types b.top b'.top := by
  have hPending := h.pending
  unfold Board.top
  cases hb : b.pending with
  | nil =>
    rw [hb, List.forall₂_nil_left_iff] at hPending
    rw [hPending]
    exact ⟨.refl _, rfl⟩
  | cons ns rest =>
    rw [hb, List.forall₂_cons_left_iff] at hPending
    obtain ⟨ms, rest', hTop, -, hPending⟩ := hPending
    rw [hPending]
    exact hTop

theorem Similar.tail (h : b.Similar b') :
    List.Forall₂ (Rearranged b.types) b.pending.tail b'.pending.tail := by
  have hPending := h.pending
  generalize b.pending = levels, b'.pending = levels' at hPending ⊢
  cases hPending with
  | nil => exact .nil
  | cons _ hRest => exact hRest

theorem Similar.assign (h : b.Similar b') {n : Nat} (hFree : n ∉ b.pending.flatten) (t : Polytype) :
    (b.assign n t).Similar (b'.assign n t) where
  types := by rw [Board.assign, Board.assign, h.types]
  pending := Rearranged.levels_congr h.pending fun m hm =>
    Function.update_of_ne (ne_of_mem_of_not_mem hm hFree) _ _
  next := h.next

theorem Similar.stampAll (h : b.Similar b') {ns ms : List Nat} (hPerm : ns.Perm ms)
    (hFree : ∀ n ∈ ns, n ∉ b.pending.flatten) (t : Polytype) :
    (b.stampAll ns t).Similar (b'.stampAll ms t) where
  types := by
    funext n
    simp only [Board.stampAll, h.types, hPerm.mem_iff]
  pending := by
    -- nodes that wait already keep their types
    have hOld : List.Forall₂ (Rearranged (b.stampAll ns t).types) b.pending b'.pending :=
      Rearranged.levels_congr h.pending fun n hn => if_neg fun hn' => hFree n hn' hn
    have hNew : Rearranged (b.stampAll ns t).types ns ms := .of_perm hPerm fun n hn => if_pos hn
    by_cases hSize : t.freeVars.size = 0
    · simpa only [Board.stampAll, if_pos hSize] using hOld
    · simpa only [Board.stampAll, if_neg hSize] using Rearranged.levels_append hOld hNew
  next := h.next

theorem Similar.entered (h : b.Similar b') : b.entered.Similar b'.entered :=
  ⟨h.types, .cons ⟨.refl _, rfl⟩ h.pending, h.next⟩

theorem Similar.build (h : b.Similar b') (hReady : b.Ready own) :
    b.build.1 = b'.build.1 ∧ b.build.2.Similar b'.build.2 := by
  have hFree : b.next ∉ b.pending.flatten := fun hn => lt_irrefl _ (hReady.lt_next _ hn)
  have hAssign := h.assign hFree .bottom
  unfold Board.build
  rw [h.next]
  exact ⟨rfl, hAssign.types, hAssign.pending, rfl⟩

/-- When a level is left, nodes of the same type on its list have the same fate. -/
theorem Similar.left (h : b.Similar b') (hReady : b.Ready own) (p : Prefix) :
    (b.left p).Similar (b'.left p) where
  types := by
    funext n
    simp only [Board.left, Board.resolve, h.types, h.top.1.mem_iff]
  pending := by
    -- a node that waits at an older level keeps its type
    have hOld : List.Forall₂ (Rearranged (b.left p).types) b.pending.tail b'.pending.tail := by
      refine Rearranged.levels_congr h.tail fun n hn => if_neg fun hTop => ?_
      have hNodup := hReady.nodup
      unfold Board.top at hTop
      cases hb : b.pending with
      | nil => simp [hb] at hn
      | cons ns rest =>
        rw [hb] at hn hTop hNodup
        exact (List.nodup_append.1 hNodup).2.2 n hTop n hn rfl
    have hNew := h.top.filter_comp p.resolved fun t => p.mentionsOlder (p.resolved t)
    have hNew' : Rearranged (b.left p).types _ _ :=
      hNew.congr fun n hn => if_pos (List.mem_filter.1 hn).1
    simp only [Board.left, Board.resolve, h.types] at hOld hNew' ⊢
    exact Rearranged.levels_append hOld hNew'
  next := h.next

end Board

/-! ## Parts of inference that come to the same -/

namespace Pass

variable {α β : Type} {own own₁ own₂ : Set Nat}

/-- Two parts of inference that own the same nodes and come to the same, on boards that differ in the
order of waiting nodes: they stop for the same reason, or they return the same, leave the same in play
and the boards differ in this way again. -/
def Alike (own : Set Nat) (m m' : Pass α) : Prop :=
  ∀ (b b' : Board) (s : Session), b.Ready own → b.Similar b' →
    (∃ halt, m b s = .error halt ∧ m' b' s = .error halt) ∨
    ∃ a c c' s', m b s = .ok ((a, c), s') ∧ m' b' s = .ok ((a, c'), s') ∧ b.Grows own c ∧ c.Similar c'

theorem Alike.pure (own : Set Nat) (a : α) : Alike own (Pure.pure a : Pass α) (Pure.pure a) :=
  fun b b' s _ hSimilar => Or.inr ⟨a, b, b', s, rfl, rfl, .refl own b, hSimilar⟩

theorem Alike.mono {m m' : Pass α} (h : Alike own₁ m m') (hSub : own₁ ⊆ own₂) : Alike own₂ m m' := by
  intro b b' s hReady hSimilar
  refine (h b b' s (hReady.mono hSub) hSimilar).imp_right ?_
  rintro ⟨a, c, c', s', hm, hm', hGrows, hAfter⟩
  exact ⟨a, c, c', s', hm, hm', hGrows.mono hSub, hAfter⟩

theorem Alike.bind {m m' : Pass α} {k k' : α → Pass β} (h : Alike own₁ m m')
    (hNext : ∀ a, Alike own₂ (k a) (k' a)) (hDisjoint : Disjoint own₁ own₂) :
    Alike (own₁ ∪ own₂) (m >>= k) (m' >>= k') := by
  intro b b' s hReady hSimilar
  rcases h b b' s (hReady.mono Set.subset_union_left) hSimilar with
    ⟨halt, hm, hm'⟩ | ⟨a, c, c', s', hm, hm', hGrows, hAfter⟩
  · exact Or.inl ⟨halt, bind_of_error hm, bind_of_error hm'⟩
  · -- the nodes of the second part do not wait yet
    have hReady' := hReady.grows hDisjoint hGrows
    rw [bind_of_ok hm, bind_of_ok hm']
    refine (hNext a c c' s' hReady' hAfter).imp_right ?_
    rintro ⟨a', d, d', s'', hk, hk', hGrows', hEnd⟩
    exact ⟨a', d, d', s'', hk, hk', hGrows.trans hGrows' hReady' Set.subset_union_left
      fun n hn => Or.inl (Or.inr hn), hEnd⟩

theorem Alike.bind_idle {m m' : Pass α} {k k' : α → Pass β} (h : Alike own m m')
    (hNext : ∀ a, Alike ∅ (k a) (k' a)) : Alike own (m >>= k) (m' >>= k') :=
  (h.bind hNext (Set.disjoint_empty own)).mono (Set.union_empty own).le

theorem Alike.act_bind (part : Solve α) {k k' : α → Pass β} (hNext : ∀ a, Alike own (k a) (k' a)) :
    Alike own (act part >>= k) (act part >>= k') := by
  intro b b' s hReady hSimilar
  cases hPart : part s with
  | error halt =>
    exact Or.inl ⟨halt, bind_of_error (act_of_error hPart), bind_of_error (act_of_error hPart)⟩
  | ok out =>
    rw [bind_of_ok (act_of_ok hPart), bind_of_ok (act_of_ok hPart)]
    exact hNext out.1 b b' out.2 hReady hSimilar

theorem Alike.assign (n : Nat) (t : Polytype) : Alike {n} (assign n t) (assign n t) :=
  fun b b' s hReady hSimilar => Or.inr ⟨(), b.assign n t, b'.assign n t, s, rfl, rfl,
    b.grows_assign n t, hSimilar.assign (hReady.own_free n rfl) t⟩

/-- Nodes may get one type in any order. -/
theorem Alike.stampAll {ns ms : List Nat} (hNodup : ns.Nodup) (hPerm : ns.Perm ms) (t : Polytype) :
    Alike {n | n ∈ ns} (modify fun b => ns.foldl (fun b n => b.stamp n t) b)
      (modify fun b => ms.foldl (fun b n => b.stamp n t) b) := by
  intro b b' s hReady hSimilar
  refine Or.inr ⟨(), b.stampAll ns t, b'.stampAll ms t, s, ?_, ?_,
    b.grows_stampAll hNodup hReady.own_lt t, hSimilar.stampAll hPerm hReady.own_free t⟩
  · rw [← Board.foldl_stamp]
    rfl
  · rw [← Board.foldl_stamp]
    rfl

theorem Alike.stamp (n : Nat) (t : Polytype) : Alike {n} (stamp n t) (stamp n t) :=
  (Alike.stampAll (List.nodup_singleton n) (.refl _) t).mono fun _ hm => List.mem_singleton.1 hm

/-- A new node belongs to the part that builds it. -/
theorem Alike.build_bind {k k' : Nat → Pass β} (hNext : ∀ n, Alike {n} (k n) (k' n)) :
    Alike ∅ (build >>= k) (build >>= k') := by
  intro b b' s hReady hSimilar
  obtain ⟨hNumber, hBuilt⟩ := hSimilar.build hReady
  have hReady' := hReady.build
  show (∃ halt, k b.build.1 b.build.2 s = .error halt ∧ k' b'.build.1 b'.build.2 s = .error halt) ∨
    ∃ a c c' s', k b.build.1 b.build.2 s = .ok ((a, c), s') ∧
      k' b'.build.1 b'.build.2 s = .ok ((a, c'), s') ∧ b.Grows ∅ c ∧ c.Similar c'
  rw [← hNumber]
  refine (hNext _ _ _ s hReady' hBuilt).imp_right ?_
  rintro ⟨a, c, c', s', hk, hk', hGrows, hAfter⟩
  refine ⟨a, c, c', s', hk, hk', b.grows_build.trans hGrows hReady' le_rfl fun n hn => ?_, hAfter⟩
  exact Or.inr (Set.mem_singleton_iff.1 hn).ge

theorem Alike.atLevel {m m' : Pass α} (h : Alike own m m') : Alike own (atLevel m) (atLevel m') := by
  intro b b' s hReady hSimilar
  rcases h b.entered b'.entered ⟨s.vars.enter, s.sink⟩ hReady.entered hSimilar.entered with
    ⟨halt, hm, hm'⟩ | ⟨a, c, c', s', hm, hm', hGrows, hAfter⟩
  · exact Or.inl ⟨halt, atLevel_of_error hm, atLevel_of_error hm'⟩
  · have hEnd : c.Ready ∅ := (hReady.entered.mono (by simp)).grows (Set.disjoint_empty own) hGrows
    -- both lists show the same types in the same order, so the same misuses are recorded
    have hTop := hAfter.top
    refine Or.inr ⟨a, _, _, _, atLevel_of_ok hm hEnd.nodup_top, ?_, hGrows.left _,
      hAfter.left hEnd s'.vars⟩
    rw [atLevel_of_ok hm' (hTop.1.nodup_iff.1 hEnd.nodup_top), hAfter.types, ← hTop.2]

end Pass

/-! ## The loop and the rule -/

namespace Expr

/-- The nodes of an expression. -/
def nodes (e : Expr Nat) : Set Nat := {n | n ∈ e.infos}

theorem nodes_var (n : Nat) (x : String) : (var n x).nodes = {n} := by
  ext k
  exact List.mem_singleton

theorem nodes_const (n : Nat) (v : Value) : (const n v).nodes = {n} := by
  ext k
  exact List.mem_singleton

theorem nodes_func (n : Nat) (x : String) (b : Expr Nat) : (func n x b).nodes = b.nodes ∪ {n} := by
  ext k
  exact List.mem_cons.trans or_comm

theorem nodes_call (n : Nat) (c d : Expr Nat) : (call n c d).nodes = c.nodes ∪ d.nodes ∪ {n} := by
  ext k
  simp only [nodes, infos_call, List.mem_cons, List.mem_append, Set.mem_union, Set.mem_ofPred_eq,
    Set.mem_singleton_iff, or_comm]

theorem nodes_letIn (n : Nat) (x : String) (v b : Expr Nat) :
    (letIn n x v b).nodes = v.nodes ∪ b.nodes ∪ {n} := by
  ext k
  simp only [nodes, infos_letIn, List.mem_cons, List.mem_append, Set.mem_union, Set.mem_ofPred_eq,
    Set.mem_singleton_iff, or_comm]

theorem nodes_annot (n : Nat) (v : Expr Nat) (t : Polytype) :
    (annot n v t).nodes = v.nodes ∪ {n} := by
  ext k
  exact List.mem_cons.trans or_comm

theorem nodes_error (n : Nat) (d : Diagnostic) (e : Expr Nat) :
    (error n d e).nodes = e.nodes ∪ {n} := by
  ext k
  exact List.mem_cons.trans or_comm

end Expr

namespace InPlace

open Pass

variable {own own₁ own₂ : Set Nat} {n : Nat}

theorem mark_alike (verdict : Verdict) (t : Polytype) (e : Expr Nat) :
    Alike ∅ (mark verdict t e) (mark verdict t e) := by
  cases verdict with
  | none => exact .pure ∅ e
  | some d => exact .build_bind fun k => (Alike.stamp k t).bind_idle fun _ => .pure ∅ _

theorem stranger_alike (config : Config) : Alike ∅ (stranger config) (stranger config) :=
  .act_bind _ fun _ => .build_bind fun _ => .pure _ _

theorem name_alike (scope : Scope) (n : Nat) (x : String) :
    Alike {n} (name scope n x) (name scope n x) := by
  unfold name
  cases scope.find? x with
  | some t => exact (Alike.stamp n t).bind_idle fun _ => .pure ∅ _
  | none =>
    exact .act_bind _ fun _ => (Alike.assign n .bottom).bind_idle fun _ => .build_bind fun _ =>
      .pure _ _

theorem constant_alike (n : Nat) (v : Value) : Alike {n} (constant n v) (constant n v) :=
  (Alike.assign n _).bind_idle fun _ => .pure ∅ _

theorem function_alike {body body' : Monotype → Pass Typed} (h : ∀ m, Alike own (body m) (body' m))
    (hn : n ∉ own) (x : String) : Alike (own ∪ {n}) (function n x body) (function n x body') := by
  refine .bind (.atLevel (.act_bind _ fun param => (h _).bind_idle fun out => ?_)) (fun out => ?_)
    (Set.disjoint_singleton_right.2 hn)
  · exact .act_bind _ fun _ => .pure ∅ _
  · exact (Alike.stamp n out.2).bind_idle fun _ => .act_bind _ fun _ => .pure ∅ _

theorem application_alike {callee callee' arg arg' : Pass Typed} (config : Config)
    (hCallee : Alike own₁ callee callee') (hArg : Alike own₂ arg arg') (hDisjoint : Disjoint own₁ own₂)
    (hn : n ∉ own₁ ∪ own₂) : Alike ((own₁ ∪ own₂) ∪ {n}) (application config n callee arg)
      (application config n callee' arg') := by
  refine .bind (.atLevel (hCallee.bind (fun out => hArg.bind_idle fun out' => ?_) hDisjoint))
    (fun out => ?_) (Set.disjoint_singleton_right.2 hn)
  · exact .act_bind _ fun _ => .pure ∅ _
  · exact (Alike.stamp n out.2.1).bind_idle fun _ => .act_bind _ fun _ =>
      (mark_alike _ _ _).bind_idle fun _ => .pure ∅ _

theorem annotate_alike {value value' : Pass Typed} (config : Config) (h : Alike own value value')
    (hn : n ∉ own) (declared : Polytype) : Alike (own ∪ {n}) (annotate config n declared value)
      (annotate config n declared value') := by
  refine .bind (.atLevel (.act_bind _ fun _ => h.bind_idle fun out => ?_)) (fun out => ?_)
    (Set.disjoint_singleton_right.2 hn)
  · exact .act_bind _ fun _ => .pure ∅ _
  · exact (Alike.stamp n out.2.1).bind_idle fun _ => (mark_alike _ _ _).bind_idle fun _ => .pure ∅ _

theorem failed_alike {part part' : Pass Typed} (h : Alike own part part') (hn : n ∉ own)
    (d : Diagnostic) (inner : Expr Nat) :
    Alike (own ∪ {n}) (failed n d inner part) (failed n d inner part') := by
  unfold failed
  split
  · exact ((Alike.assign n .bottom).bind_idle fun _ => .pure ∅ _).mono Set.subset_union_right
  · exact h.atLevel.bind (fun _ => (Alike.assign n .bottom).bind_idle fun _ => .pure ∅ _)
      (Set.disjoint_singleton_right.2 hn)

/-- Ends a chain of local definitions as the rule does: the innermost one gets its type first. -/
def unwind (chain : List (OpenLet Nat)) (body : Typed) : Pass Typed := do
  modify fun b => (chain.map OpenLet.info).reverse.foldl (fun b n => b.stamp n body.2) b
  return (.closeLets chain body.1, body.2)

/-- With no definitions around there is nothing to end. -/
theorem alike_alone {m m' : Pass Typed}
    (h : Alike (own ∪ {n | n ∈ ([] : List Nat)}) m (m' >>= unwind [])) : Alike own m m' := by
  have hNil : unwind [] = pure := rfl
  rw [hNil, bind_pure] at h
  exact h.mono (by simp)

/-- The rule for one definition more. -/
theorem stamp_unwind (chain : List (OpenLet Nat)) (n : Nat) (x : String) (v : Expr Nat)
    (body : Typed) :
    ((do stamp n body.2; return (.letIn n x v body.1, body.2)) >>= unwind chain : Pass Typed) =
      unwind (chain ++ [⟨n, x, v⟩]) body := by
  unfold unwind
  rw [Expr.closeLets_append, List.map_append, List.reverse_append]
  rfl

theorem finish_alike {chain : List (OpenLet Nat)} (hNodup : (chain.map OpenLet.info).Nodup)
    (body : Typed) :
    Alike {n | n ∈ chain.map OpenLet.info} (finish chain body) (unwind chain body) :=
  (Alike.stampAll hNodup (List.reverse_perm _).symm body.2).bind_idle fun _ => .pure ∅ _

/-- What nodes that are all different means for a node with two parts. -/
theorem apart_of_nodup {ns ms : List Nat} (h : (n :: (ns ++ ms)).Nodup) :
    ns.Nodup ∧ ms.Nodup ∧ Disjoint {k | k ∈ ns} {k | k ∈ ms} ∧ n ∉ {k | k ∈ ns} ∪ {k | k ∈ ms} := by
  obtain ⟨hn, hBoth⟩ := List.nodup_cons.1 h
  obtain ⟨hFirst, hSecond, hApart⟩ := List.nodup_append.1 hBoth
  exact ⟨hFirst, hSecond, Set.disjoint_left.2 fun k hk hk' => hApart k hk k hk' rfl,
    fun hMem => hn (List.mem_append.2 hMem)⟩

/-- Inference in a loop comes to the same as the rule, whatever definitions are open around. -/
theorem loop_alike_under (config : Config) (e : Expr Nat) (chain : List (OpenLet Nat))
    (hNodup : (chain.map OpenLet.info ++ e.infos).Nodup) (scope : Scope) :
    Alike (e.nodes ∪ {n | n ∈ chain.map OpenLet.info}) (inferLoop config chain scope e)
      (inferEach config scope e >>= unwind chain) := by
  -- a part that is no definition ends the chain
  have hEnd {e : Expr Nat} {chain : List (OpenLet Nat)}
      (hNodup : (chain.map OpenLet.info ++ e.infos).Nodup) {m m' : Pass Typed}
      (h : Alike e.nodes m m') : Alike (e.nodes ∪ {n | n ∈ chain.map OpenLet.info})
        (m >>= finish chain) (m' >>= unwind chain) := by
    obtain ⟨hChain, -, hApart⟩ := List.nodup_append.1 hNodup
    exact h.bind (finish_alike hChain) (Set.disjoint_left.2 fun k hk hk' => hApart k hk' k hk rfl)
  induction e generalizing chain scope with
  | missing => exact hEnd hNodup (.act_bind _ fun _ => .pure _ _)
  | unknown => exact hEnd hNodup ((stranger_alike config).mono (Set.empty_subset _))
  | var n x => exact hEnd hNodup (Expr.nodes_var n x ▸ name_alike scope n x)
  | const n v => exact hEnd hNodup (Expr.nodes_const n v ▸ constant_alike n v)
  | func n x body ih =>
    obtain ⟨hn, hBody⟩ := List.nodup_cons.1 hNodup.of_append_right
    have hPart (m : Monotype) := alike_alone (ih [] hBody (scope.insert x m))
    refine hEnd hNodup ?_
    rw [Expr.nodes_func]
    exact function_alike hPart hn x
  | call n callee arg ihCallee ihArg =>
    have hWhole := hNodup.of_append_right
    rw [Expr.infos_call] at hWhole
    obtain ⟨hCallee, hArg, hDisjoint, hn⟩ := apart_of_nodup hWhole
    refine hEnd hNodup ?_
    rw [Expr.nodes_call]
    exact application_alike config (alike_alone (ihCallee [] hCallee scope))
      (alike_alone (ihArg [] hArg scope)) hDisjoint hn
  | letIn n x value body ihValue ihBody =>
    have hWhole := hNodup.of_append_right
    rw [Expr.infos_letIn] at hNodup hWhole
    obtain ⟨hValue, -, hDisjoint, hn⟩ := apart_of_nodup hWhole
    obtain ⟨-, -, hApart⟩ := List.nodup_append.1 hNodup
    -- the definition joins the chain, and the body goes on with it
    have hBody (v : Expr Nat) (t : Polytype) :
        Alike (body.nodes ∪ {k | k ∈ chain.map OpenLet.info ++ [n]})
          (inferLoop config (chain ++ [⟨n, x, v⟩]) (scope.insert x t) body)
          (inferEach config (scope.insert x t) body >>= unwind (chain ++ [⟨n, x, v⟩])) := by
      have hNames : List.map OpenLet.info (chain ++ [⟨n, x, v⟩]) = chain.map OpenLet.info ++ [n] :=
        List.map_append
      rw [← hNames]
      refine ihBody _ ?_ (scope.insert x t)
      rw [hNames, List.append_assoc]
      exact hNodup.sublist ((List.Sublist.refl _).append ((List.sublist_append_right _ _).cons_cons n))
    -- by the rule, the definition is the first one to end when its body is done
    have hEach : inferEach config scope (.letIn n x value body) >>= unwind chain =
        inferEach config scope value >>= fun out =>
          inferEach config (scope.insert x out.2) body >>= unwind (chain ++ [⟨n, x, out.1⟩]) := by
      rw [inferEach, bind_assoc]
      congr 1
      funext out
      rw [bind_assoc]
      congr 1
      funext out'
      exact stamp_unwind chain n x out.1 out'
    rw [hEach]
    refine ((alike_alone (ihValue [] hValue scope)).bind (fun out => hBody out.1 out.2) ?_).mono ?_
    · -- the nodes of the value are none of the body, and none that is open around it
      refine Set.disjoint_union_right.2 ⟨hDisjoint, Set.disjoint_left.2 fun k hk hk' => ?_⟩
      rcases List.mem_append.1 hk' with hk' | hk'
      · exact hApart k hk' k (List.mem_cons_of_mem n (List.mem_append_left _ hk)) rfl
      · exact hn (Or.inl (List.mem_singleton.1 hk' ▸ hk))
    · rw [Expr.nodes_letIn]
      intro k hk
      simp only [Set.mem_union, Set.mem_ofPred_eq, List.mem_append, List.mem_singleton,
        Set.mem_singleton_iff] at hk ⊢
      tauto
  | annot n value declared ih =>
    obtain ⟨hn, hValue⟩ := List.nodup_cons.1 hNodup.of_append_right
    refine hEnd hNodup ?_
    rw [Expr.nodes_annot]
    exact annotate_alike config (alike_alone (ih [] hValue scope)) hn declared
  | error n d inner ih =>
    obtain ⟨hn, hInner⟩ := List.nodup_cons.1 hNodup.of_append_right
    refine hEnd hNodup ?_
    rw [Expr.nodes_error]
    exact failed_alike (alike_alone (ih [] hInner scope)) hn d inner

theorem loop_alike (config : Config) {e : Expr Nat} (hNodup : e.infos.Nodup) (scope : Scope) :
    Alike e.nodes (inferLoop config [] scope e) (inferEach config scope e) :=
  alike_alone (loop_alike_under config e [] hNodup scope)

end InPlace

end Mlf
