import Mathlib
import Mlf.Document.ExprNode
import Mlf.Proofs.FreshNames
import Mlf.Proofs.NormalChains

/-!
# What documents stand for

The format of documents says how a type or an expression is written: `TypeNode.Writes` and
`ExprNode.Writes` describe it. It leaves choices. A function may list several parameters at once, a
`forall` several bindings, a call several arguments, and a binding whose bound is `bottom` may leave it
out.

Reading inverts writing, whatever was chosen, for types that are in normal form and have no empty names.
It never gives other types, also for nodes that no format describes: keys that do not belong together
hide each other, and quantification normalizes the chain with all its bounds.

Main results:

* `sound_reading` — what a node stands for, whatever its keys are;
* `Writes.polytype_eq`, `Writes.program_eq` — reading inverts writing;
* `writes_ofPolytype`, `exists_writes` — the nodes that are made from types and expressions write them;
* `reading_inverts_writing` — all of it together.
-/

namespace Mlf

variable {m : Monotype} {b t : Polytype} {x : String} {line : Nat}
/-! ## Types without empty names -/

namespace Polytype

/-- The names of the quantifiers in a type, those in bounds included. -/
def boundNames : Polytype → List String
  | mono _ | bottom => []
  | all x _ b t => x :: (b.boundNames ++ t.boundNames)

/-- No free variable and no quantified variable has the empty name. -/
def Named (t : Polytype) : Prop := "" ∉ t.freeVars ∧ "" ∉ t.boundNames

theorem named_mono : (mono m).Named ↔ "" ∉ m.freeVars := by
  simp [Named, freeVars, boundNames]

theorem named_bottom : bottom.Named := by
  simp [Named, freeVars, boundNames]

theorem not_mem_boundNames_all {k : BoundKind} :
    "" ∉ (all x k b t).boundNames ↔ x ≠ "" ∧ "" ∉ b.boundNames ∧ "" ∉ t.boundNames := by
  simp [boundNames, eq_comm]

/-- A quantifier that has a name hides no variable without a name. -/
theorem named_all {k : BoundKind} : (all x k b t).Named ↔ x ≠ "" ∧ b.Named ∧ t.Named := by
  simp only [Named, not_mem_boundNames_all, freeVars, NameSet.mem_union, NameSet.mem_erase]
  tauto

end Polytype

theorem freshName_ne_empty (base : String) (taken : List String) : freshName base taken ≠ "" := by
  obtain ⟨i, -, hFresh, -⟩ := Supply.firstFree_eq (Supply.derived_injective base) taken 0
  rw [freshName, hFresh]
  simp [Supply.derived]

namespace Polytype

theorem boundNames_subst (h : "" ∉ t.boundNames) (s : Subst) : "" ∉ (t.subst s).boundNames := by
  induction t generalizing s with
  | mono m => exact h
  | bottom => exact h
  | all x k b t ihb iht =>
    obtain ⟨hx, hb, ht⟩ := not_mem_boundNames_all.1 h
    simp only [subst]
    -- whether the quantifier has to be renamed
    split_ifs
    · exact not_mem_boundNames_all.2 ⟨freshName_ne_empty x _, ihb hb s, iht ht _⟩
    · exact not_mem_boundNames_all.2 ⟨hx, ihb hb s, iht ht _⟩

theorem boundNames_close {b : Binding} (hName : b.name ≠ "")
    (hBound : "" ∉ b.bound.type.boundNames) (h : "" ∉ t.boundNames) :
    "" ∉ (close b t).boundNames := by
  rcases close_cases b t with ⟨-, hEq⟩ | ⟨-, hEq⟩ | ⟨-, -, hEq⟩
  · rwa [hEq]
  · rwa [hEq]
  · rw [hEq]
    exact not_mem_boundNames_all.2 ⟨hName, hBound, h⟩

/-- Quantifiers of a normal form have the names of quantifiers in the type, or new ones. -/
theorem boundNames_normalizeWith (h : "" ∉ t.boundNames) (s : Subst) (taken : NameSet) :
    "" ∉ (t.normalizeWith s taken).boundNames := by
  fun_induction normalizeWith t s taken with
  | case1 s taken x k b t m hMono ihBound ihBody => exact ihBody (not_mem_boundNames_all.1 h).2.2
  | case2 s taken x k b t inner hCapture y hNotMono ihBound ihBody =>
    obtain ⟨-, hb, ht⟩ := not_mem_boundNames_all.1 h
    -- a new name is not empty either
    exact boundNames_close (freshName_ne_empty x _) (ihBound (boundNames_subst hb s)) (ihBody ht)
  | case3 s taken x k b t inner hCapture hNotMono ihBound ihBody =>
    obtain ⟨hx, hb, ht⟩ := not_mem_boundNames_all.1 h
    exact boundNames_close hx (ihBound (boundNames_subst hb s)) (ihBody ht)
  | case4 s taken t hNotAll => exact boundNames_subst h s

theorem Named.normal (h : t.Named) : t.normal.Named := by
  refine ⟨fun hFree => h.1 (freeVars_normal hFree), ?_⟩
  rw [normal_eq_normalizeWith]
  exact boundNames_normalizeWith h.2 _ _

theorem named_chain {bs : List Binding} (hbs : ∀ b ∈ bs, b.name ≠ "" ∧ b.bound.type.Named)
    (h : t.Named) : (chain bs t).Named := by
  induction bs with
  | nil => exact h
  | cons b bs ih =>
    rw [List.forall_mem_cons] at hbs
    exact named_all.2 ⟨hbs.1.1, hbs.1.2, ih hbs.2⟩

/-! ## What documents can tell of -/

/-- The types of which documents can tell. -/
def Describable (t : Polytype) : Prop := t.normal = t ∧ t.Named

theorem describable_mono : (mono m).Describable ↔ "" ∉ m.freeVars := by
  rw [Describable, named_mono, and_iff_right (normal_eq_self.2 (isNormal_mono m))]

theorem Describable.of_all {k : BoundKind} (h : (all x k b t).Describable) :
    x ≠ "" ∧ b.Describable ∧ t.Describable := by
  obtain ⟨hNormal, hNamed⟩ := h
  obtain ⟨hb, -, -, -, ht⟩ := normal_eq_self.1 hNormal
  obtain ⟨hx, hNamedBound, hNamedBody⟩ := named_all.1 hNamed
  exact ⟨hx, ⟨normal_eq_self.2 hb, hNamedBound⟩, normal_eq_self.2 ht, hNamedBody⟩

/-- Quantification brings a type to normal form, unless there is nothing to quantify. -/
theorem Describable.quantifyAll {bs : List Binding}
    (hbs : ∀ b ∈ bs, b.name ≠ "" ∧ b.bound.type.Named) (h : t.Describable) :
    (quantifyAll bs t).Describable := by
  cases bs with
  | nil => exact h
  | cons b bs =>
    rw [quantifyAll_cons]
    exact ⟨normal_eq_self.2 (isNormal_normal _), (named_chain hbs h.2).normal⟩

/-- Bindings of a chain in normal form are put back by quantification. -/
theorem quantifyAll_of_normal {bs : List Binding} (h : (chain bs t).normal = chain bs t) :
    Polytype.quantifyAll bs t = chain bs t := by
  cases bs with
  | nil => rfl
  | cons b bs => rw [quantifyAll_cons, h]

end Polytype

/-- Documents can tell of the expression: its parts are there, except what an error recovers, its errors
tell of unbound variables, and the declared types are in normal form and have no empty names. -/
def Expr.Describable {α : Type} : Expr α → Prop
  | missing | unknown => False
  | var .. | const .. => True
  | func _ _ b => b.Describable
  | call _ c a => c.Describable ∧ a.Describable
  | letIn _ _ v b => v.Describable ∧ b.Describable
  | annot _ v t => v.Describable ∧ t.Describable
  | error _ (.unbound _) e => e = missing ∨ e.Describable
  | error .. => False

namespace Document

open Polytype (chain quantifyAll)

/-! ## Steps that can fail -/

theorem bind_eq_ok {α β : Type} {x : Except ShapeError α} {f : α → Except ShapeError β} {b : β} :
    x >>= f = .ok b ↔ ∃ a, x = .ok a ∧ f a = .ok b := by
  cases x with
  | error e => simp [bind, Except.bind]
  | ok a => simp [bind, Except.bind]

theorem exists_of_mem_mapM {α β : Type} {f : α → Except ShapeError β} {xs : List α} {ys : List β}
    (h : xs.mapM f = .ok ys) {y : β} (hy : y ∈ ys) : ∃ x ∈ xs, f x = .ok y := by
  induction xs generalizing ys with
  | nil => cases h; cases hy
  | cons x xs ih =>
    rw [List.mapM_cons, bind_eq_ok] at h
    obtain ⟨z, hz, h⟩ := h
    obtain ⟨zs, hzs, h⟩ := bind_eq_ok.1 h
    cases h
    rcases List.mem_cons.1 hy with rfl | hy
    · exact ⟨x, List.mem_cons_self, hz⟩
    · obtain ⟨x', hx', hf⟩ := ih hzs hy
      exact ⟨x', List.mem_cons_of_mem x hx', hf⟩

/-- A binding needs a name, and its bound has to stand for a type. -/
theorem BinderNode.binding_eq_ok {b : BinderNode TypeReading} {c : Binding} :
    b.binding line = .ok c ↔ b.name ≠ "" ∧ ∃ t, b.bound.elim (.ok .bottom) (·.poly) = .ok t ∧
      ⟨b.name, if b.rigid then .rigid else .flexible, t⟩ = c := by
  obtain ⟨x, bound, rigid⟩ := b
  unfold BinderNode.binding
  -- a binding without a name is refused first
  by_cases hx : x = ""
  · simp [hx, throw, throwThe, MonadExceptOf.throw, bind, Except.bind]
  · cases bound with
    | none => simp [hx, bind_eq_ok, pure, Except.pure]
    | some r => simp [hx, bind_eq_ok, pure, Except.pure]

/-- A chain has a type if its bindings and its body stand for something. -/
theorem quantifiedType_eq_ok {bs : List (BinderNode TypeReading)} {body : Option TypeReading} :
    quantifiedType line bs body = .ok t ↔
      ∃ r ∈ body, ∃ bindings u, bs.mapM (·.binding line) = .ok bindings ∧ r.poly = .ok u ∧
        quantifyAll bindings u = t := by
  cases body with
  | none => simp [quantifiedType, throw, throwThe, MonadExceptOf.throw]
  | some r => simp [quantifiedType, bind_eq_ok, pure, Except.pure]

/-! ## The types for which nodes stand -/

namespace TypeReading

/-- The types of a reading are such that documents can tell of them. -/
structure Sound (r : TypeReading) : Prop where
  poly : ∀ t, r.poly = .ok t → t.Describable
  mono : ∀ m, r.mono = .ok m → "" ∉ m.freeVars

theorem sound_empty (line : Nat) : (empty line).Sound where
  poly t h := by cases h
  mono m h := by cases h

theorem sound_ofPoly (line : Nat) {t : Except ShapeError Polytype}
    (h : ∀ u, t = .ok u → u.Describable) : (ofPoly line t).Sound where
  poly := h
  mono m hm := by
    obtain ⟨u, rfl, hm⟩ := bind_eq_ok.1 hm
    cases u with
    | mono m' =>
      cases hm
      exact Polytype.describable_mono.1 (h _ rfl)
    | bottom => cases hm
    | all x k b t => cases hm

theorem sound_ofMono {t : Except ShapeError Monotype} (h : ∀ m, t = .ok m → "" ∉ m.freeVars) :
    (ofMono t).Sound where
  poly u hu := by
    cases t with
    | error e => cases hu
    | ok m =>
      cases hu
      exact Polytype.describable_mono.2 (h m rfl)
  mono := h

end TypeReading

theorem describable_namedType {name : String} (h : namedType line name = .ok t) :
    t.Describable := by
  have hConst (c : BaseType) : (Polytype.mono (.const c)).Describable :=
    Polytype.describable_mono.2 (by simp [Monotype.freeVars])
  unfold namedType at h
  split at h
  · cases h; exact hConst .boolean
  · cases h; exact hConst .number
  · cases h; exact hConst .string
  · cases h; exact ⟨Polytype.normal_eq_self.2 trivial, Polytype.named_bottom⟩
  · cases h

/-- A function has the names of its parts. -/
theorem not_mem_freeVars_functionType {rs : List TypeReading} (hrs : ∀ r ∈ rs, r.Sound)
    (h : functionType line rs = .ok m) : "" ∉ m.freeVars := by
  -- the parameters, which come in front of a monotype one after the other
  have hFold (ps : List TypeReading) (hps : ∀ p ∈ ps, p.Sound) (b : Monotype) (hb : "" ∉ b.freeVars)
      (h : ps.foldlM (fun t p => return .fn (← p.mono) t) b = Except.ok m) : "" ∉ m.freeVars := by
    induction ps generalizing b with
    | nil => cases h; exact hb
    | cons p ps ih =>
      rw [List.forall_mem_cons] at hps
      rw [List.foldlM_cons] at h
      obtain ⟨b', hb', h⟩ := bind_eq_ok.1 h
      obtain ⟨a, ha, hEq⟩ := bind_eq_ok.1 hb'
      cases hEq
      exact ih hps.2 _ (by simp [Monotype.freeVars, hb, hps.1.mono a ha]) h
  unfold functionType at h
  split at h
  · next result param params hReverse =>
    have hSound (r : TypeReading) (hr : r ∈ result :: param :: params) : r.Sound :=
      hrs r (List.mem_reverse.1 (hReverse ▸ hr))
    obtain ⟨b, hb, h⟩ := bind_eq_ok.1 h
    exact hFold _ (fun r hr => hSound r (List.mem_cons_of_mem _ hr)) b
      ((hSound result List.mem_cons_self).mono b hb) h
  · cases h

theorem describable_quantifiedType {bs : List (BinderNode TypeReading)}
    {body : Option TypeReading} (hbs : ∀ b ∈ bs, ∀ r ∈ b.bound, r.Sound)
    (hBody : ∀ r ∈ body, r.Sound) (h : quantifiedType line bs body = .ok t) : t.Describable := by
  obtain ⟨r, hr, bindings, u, hBindings, hu, rfl⟩ := quantifiedType_eq_ok.1 h
  refine Polytype.Describable.quantifyAll (fun c hc => ?_) ((hBody r hr).poly u hu)
  obtain ⟨b, hb, hBinding⟩ := exists_of_mem_mapM hBindings hc
  obtain ⟨hName, σ, hBound, rfl⟩ := BinderNode.binding_eq_ok.1 hBinding
  refine ⟨hName, ?_⟩
  -- without a bound the variable has all instances
  cases hRead : b.bound with
  | none =>
    rw [hRead] at hBound
    cases hBound
    exact Polytype.named_bottom
  | some r =>
    rw [hRead] at hBound
    exact ((hbs b hb r hRead).poly σ hBound).2

namespace TypeNode

/-- Whatever the keys of a node are, it stands for types of which documents can tell, if the nodes
below it do. -/
theorem sound_meaning {name var : String} {parts : Option (List TypeReading)}
    {bs : Option (List (BinderNode TypeReading))} {body : Option TypeReading}
    (hParts : ∀ rs ∈ parts, ∀ r ∈ rs, r.Sound) (hbs : ∀ l ∈ bs, ∀ b ∈ l, ∀ r ∈ b.bound, r.Sound)
    (hBody : ∀ r ∈ body, r.Sound) : (meaning line name var parts bs body).Sound := by
  unfold meaning
  dsimp only
  -- the answers of the keys that can only stand for any type, and of those that stand for a monotype
  generalize hPoly : (if name ≠ "" then some (namedType line name)
    else bs.map (quantifiedType line · body)) = poly?
  generalize hMono : (if var ≠ "" then some (Except.ok (Monotype.var var))
    else parts.map (functionType line)) = mono?
  have hPolySound (p : Except ShapeError Polytype) (hp : poly? = some p) (t : Polytype)
      (ht : p = .ok t) : t.Describable := by
    subst hp ht
    split_ifs at hPoly
    · exact describable_namedType (Option.some.inj hPoly)
    · obtain ⟨l, hl, hQuantified⟩ := Option.map_eq_some_iff.1 hPoly
      exact describable_quantifiedType (hbs l hl) hBody hQuantified
  have hMonoSound (p : Except ShapeError Monotype) (hp : mono? = some p) (m : Monotype)
      (hm : p = .ok m) : "" ∉ m.freeVars := by
    subst hp hm
    split_ifs at hMono with hVar
    · cases hMono
      simpa [Monotype.freeVars, eq_comm] using hVar
    · obtain ⟨rs, hrs, hFunction⟩ := Option.map_eq_some_iff.1 hMono
      exact not_mem_freeVars_functionType (hParts rs hrs) hFunction
  -- where keys do not belong together, those for any type win where any type may stand
  cases poly? with
  | none =>
    cases mono? with
    | none => exact TypeReading.sound_empty line
    | some m => exact TypeReading.sound_ofMono (hMonoSound m rfl)
  | some p =>
    cases mono? with
    | none => exact TypeReading.sound_ofPoly line (hPolySound p rfl)
    | some m => exact ⟨hPolySound p rfl, hMonoSound m rfl⟩

mutual

/-- A node stands for types of which documents can tell. -/
theorem sound_reading : ∀ n : TypeNode, n.reading.Sound
  | ⟨line, name, var, parts, binders, body⟩ => by
    rw [reading]
    exact sound_meaning (sound_partReadings parts) (sound_binderReadings binders)
      (sound_bodyReading body)

theorem sound_partReadings : ∀ parts : Option (List TypeNode), ∀ rs ∈ partReadings parts,
    ∀ r ∈ rs, r.Sound
  | none, _, h => by cases h
  | some ns, _, h => by
    cases h
    exact sound_readings ns

theorem sound_readings : ∀ ns : List TypeNode, ∀ r ∈ readings ns, r.Sound
  | [], _, h => by cases h
  | n :: ns, r, h => by
    rcases List.mem_cons.1 h with rfl | h
    · exact sound_reading n
    · exact sound_readings ns r h

theorem sound_binderReadings : ∀ binders : Option (List (BinderNode TypeNode)),
    ∀ l ∈ binderReadings binders, ∀ b ∈ l, ∀ r ∈ b.bound, r.Sound
  | none, _, h => by cases h
  | some bs, _, h => by
    cases h
    exact sound_boundReadings bs

theorem sound_boundReadings : ∀ bs : List (BinderNode TypeNode), ∀ b ∈ boundReadings bs,
    ∀ r ∈ b.bound, r.Sound
  | [], _, h => by cases h
  | ⟨name, bound, rigid⟩ :: bs, b, h => by
    rcases List.mem_cons.1 h with rfl | h
    · exact sound_bodyReading bound
    · exact sound_boundReadings bs b h

theorem sound_bodyReading : ∀ body : Option TypeNode, ∀ r ∈ bodyReading body, r.Sound
  | none, _, h => by cases h
  | some n, _, h => by
    cases h
    exact sound_reading n

end

/-! ## Nodes that write types -/

mutual

/-- The node writes the monotype. -/
inductive WritesMono : TypeNode → Monotype → Prop
  | var (line : Nat) (x : String) : WritesMono { empty line with var := x } (.var x)
  | const (line : Nat) (c : BaseType) : WritesMono { empty line with name := baseName c } (.const c)
  | fn (line : Nat) {n : TypeNode} {ns : List TypeNode} {p b : Monotype} (hParam : WritesMono n p)
    (hRest : WritesParts ns b) : WritesMono { empty line with parts := some (n :: ns) } (.fn p b)

/-- The nodes write what is left of the parts of a function: further parameters and the result. -/
inductive WritesParts : List TypeNode → Monotype → Prop
  | result {n : TypeNode} {m : Monotype} (h : WritesMono n m) : WritesParts [n] m
  | param {n : TypeNode} {ns : List TypeNode} {p b : Monotype} (hParam : WritesMono n p)
    (hRest : WritesParts ns b) : WritesParts (n :: ns) (.fn p b)

end

mutual

/-- The node writes the type as the format of documents says. -/
inductive Writes : TypeNode → Polytype → Prop
  | mono {n : TypeNode} {m : Monotype} (h : WritesMono n m) : Writes n (.mono m)
  | bottom (line : Nat) : Writes { empty line with name := "bottom" } .bottom
  | quantified (line : Nat) {bs : List (BinderNode TypeNode)} {body : TypeNode} {t : Polytype}
    (h : WritesChain bs body t) : Writes { empty line with binders := some bs, body := some body } t

/-- The bindings and the node of the body write the type. -/
inductive WritesChain : List (BinderNode TypeNode) → TypeNode → Polytype → Prop
  | body {n : TypeNode} {t : Polytype} (h : Writes n t) : WritesChain [] n t
  | unbounded (x : String) (k : BoundKind) {bs : List (BinderNode TypeNode)} {n : TypeNode}
    {t : Polytype} (h : WritesChain bs n t) :
    WritesChain (⟨x, none, decide (k = .rigid)⟩ :: bs) n (.all x k .bottom t)
  | bounded (x : String) (k : BoundKind) {bound : TypeNode} {bs : List (BinderNode TypeNode)}
    {n : TypeNode} {b t : Polytype} (hBound : Writes bound b) (h : WritesChain bs n t) :
    WritesChain (⟨x, some bound, decide (k = .rigid)⟩ :: bs) n (.all x k b t)

end

/-! ## Reading inverts writing -/

/-- What is left of the parts of a function stands for the monotype. -/
inductive PartsMean : List TypeReading → Monotype → Prop
  | result {r : TypeReading} {m : Monotype} (h : r.mono = .ok m) : PartsMean [r] m
  | param {r : TypeReading} {rs : List TypeReading} {p b : Monotype} (hParam : r.mono = .ok p)
    (hRest : PartsMean rs b) : PartsMean (r :: rs) (.fn p b)

/-- A function is built from its result to its first parameter. -/
theorem PartsMean.exists_foldlM {rs : List TypeReading} (h : PartsMean rs m) :
    ∃ result params b, rs.reverse = result :: params ∧ result.mono = .ok b ∧
      params.foldlM (fun t p => return .fn (← p.mono) t) b = Except.ok m := by
  induction h with
  | result h => exact ⟨_, [], _, rfl, h, rfl⟩
  | @param r rs p b hParam _ ih =>
    obtain ⟨result, params, c, hReverse, hResult, hFold⟩ := ih
    refine ⟨result, params ++ [r], c, by rw [List.reverse_cons, hReverse]; rfl, hResult, ?_⟩
    rw [List.foldlM_append, hFold]
    show (r.mono >>= fun t => Except.ok (Monotype.fn t b)) >>= Except.ok = Except.ok (.fn p b)
    rw [hParam]
    rfl

theorem functionType_eq (line : Nat) {r : TypeReading} {rs : List TypeReading} {p b : Monotype}
    (hParam : r.mono = .ok p) (hRest : PartsMean rs b) :
    functionType line (r :: rs) = .ok (.fn p b) := by
  obtain ⟨result, params, c, hReverse, hResult, hFold⟩ := (PartsMean.param hParam hRest).exists_foldlM
  cases params with
  | nil =>
    -- a result alone comes from no parameter
    rw [List.reverse_eq_cons_iff] at hReverse
    cases rs with
    | nil => cases hRest
    | cons _ _ => simp at hReverse
  | cons param params =>
    unfold functionType
    rw [hReverse]
    show (result.mono >>= fun t => List.foldlM _ t (param :: params)) = _
    rw [hResult]
    exact hFold

mutual

/-- Both where any type may stand and in a function, a node stands for the monotype that it writes.
-/
theorem WritesMono.reading_eq {n : TypeNode} {m : Monotype} (hm : "" ∉ m.freeVars) :
    WritesMono n m → n.reading.poly = .ok (.mono m) ∧ n.reading.mono = .ok m
  | .var line x => by
    have hx : x ≠ "" := by simpa [Monotype.freeVars, eq_comm] using hm
    have h : reading { empty line with var := x } = .ofMono (.ok (.var x)) := by
      simp [reading, empty, meaning, binderReadings, hx]
    rw [h]
    exact ⟨rfl, rfl⟩
  | .const line c => by cases c <;> exact ⟨rfl, rfl⟩
  | @WritesMono.fn line n ns _ _ hParam hRest => by
    obtain ⟨hp, hb⟩ := not_or.1 (mt NameSet.mem_union.2 hm)
    have hFunction := functionType_eq line (hParam.reading_eq hp).2 (hRest.partsMean hb)
    show (TypeReading.ofMono (functionType line (n.reading :: readings ns))).poly = _ ∧
      functionType line (n.reading :: readings ns) = _
    rw [hFunction]
    exact ⟨rfl, rfl⟩

theorem WritesParts.partsMean {ns : List TypeNode} {m : Monotype} (hm : "" ∉ m.freeVars) :
    WritesParts ns m → PartsMean (readings ns) m
  | .result h => .result (h.reading_eq hm).2
  | .param hParam hRest => by
    obtain ⟨hp, hb⟩ := not_or.1 (mt NameSet.mem_union.2 hm)
    exact .param (hParam.reading_eq hp).2 (hRest.partsMean hb)

end

/-- A binding comes in front of a chain, if its bound stands for a type. -/
theorem mapM_binding_cons (hx : x ≠ "") (k : BoundKind) {r : Option TypeReading}
    (hBound : r.elim (.ok .bottom) (·.poly) = .ok b) {bs : List (BinderNode TypeReading)}
    {bindings : List Binding} (hbs : bs.mapM (·.binding line) = .ok bindings) :
    (⟨x, r, decide (k = .rigid)⟩ :: bs).mapM (·.binding line) = .ok (⟨x, k, b⟩ :: bindings) := by
  have hBinding : BinderNode.binding line ⟨x, r, decide (k = .rigid)⟩ = .ok ⟨x, k, b⟩ :=
    BinderNode.binding_eq_ok.2 ⟨hx, b, hBound, by cases k <;> rfl⟩
  rw [List.mapM_cons, hBinding, hbs]
  rfl

mutual

/-- A node stands for the type that it writes. -/
theorem Writes.polytype_eq {n : TypeNode} {t : Polytype} (ht : t.Describable) :
    Writes n t → n.polytype = .ok t
  | .mono h => (h.reading_eq (Polytype.describable_mono.1 ht)).1
  | .bottom line => rfl
  | @Writes.quantified line bs body _ h => by
    obtain ⟨bindings, u, hBindings, hBody, rfl⟩ := h.exists_chain line ht
    -- the chain is in normal form, so quantification leaves it as it is
    show quantifiedType line (boundReadings bs) (some body.reading) = _
    rw [quantifiedType_eq_ok]
    exact ⟨_, rfl, bindings, u, hBindings, hBody, Polytype.quantifyAll_of_normal ht.1⟩

/-- The bindings and the body of a node stand for the chain that they write. -/
theorem WritesChain.exists_chain {bs : List (BinderNode TypeNode)} {n : TypeNode} {t : Polytype}
    (line : Nat) (ht : t.Describable) : WritesChain bs n t →
      ∃ bindings u, (boundReadings bs).mapM (·.binding line) = .ok bindings ∧ n.polytype = .ok u ∧
        chain bindings u = t
  | .body h => ⟨[], t, rfl, h.polytype_eq ht, rfl⟩
  | .unbounded x k h => by
    -- what follows a quantifier in a normal form is a normal form, and so is its bound
    obtain ⟨hx, -, hRest⟩ := ht.of_all
    obtain ⟨bindings, u, hBindings, hBody, rfl⟩ := h.exists_chain line hRest
    exact ⟨_, u, mapM_binding_cons hx k rfl hBindings, hBody, rfl⟩
  | .bounded x k hBound h => by
    obtain ⟨hx, hb, hRest⟩ := ht.of_all
    obtain ⟨bindings, u, hBindings, hBody, rfl⟩ := h.exists_chain line hRest
    exact ⟨_, u, mapM_binding_cons hx k (r := some _) (hBound.polytype_eq hb) hBindings, hBody, rfl⟩

end

/-! ## Nodes for types write them -/

theorem writesMono_ofMonotype (line : Nat) (m : Monotype) : WritesMono (ofMonotype line m) m := by
  induction m with
  | var x => exact .var line x
  | const c => exact .const line c
  | fn p b ihp ihb => exact .fn line ihp (.result ihb)

/-- A quantifier joins the node of a chain, and starts a node in front of another one. -/
theorem Writes.quantify {n bound : TypeNode} (x : String) (k : BoundKind)
    (hBound : Writes bound b) (h : Writes n t) :
    Writes (quantify ⟨x, some bound, decide (k = .rigid)⟩ n) (.all x k b t) := by
  have hAlone (hNone : n.binders = none) :
      Writes (TypeNode.quantify ⟨x, some bound, decide (k = .rigid)⟩ n) (.all x k b t) := by
    rw [TypeNode.quantify, hNone]
    exact .quantified n.line (.bounded x k hBound (.body h))
  -- only the node of a chain has bindings
  cases h with
  | mono hMono => exact hAlone (by cases hMono <;> rfl)
  | bottom line => exact hAlone rfl
  | quantified line hChain => exact .quantified line (.bounded x k hBound hChain)

theorem writes_ofPolytype (line : Nat) (t : Polytype) : Writes (ofPolytype line t) t := by
  induction t with
  | mono m => exact .mono (writesMono_ofMonotype line m)
  | bottom => exact .bottom line
  | all x k b t ihb iht => exact ihb.quantify x k iht

end TypeNode

namespace ExprNode

/-! ## Nodes that write expressions -/

mutual

/-- The node writes the expression as the format of documents says. -/
inductive Writes : ExprNode → Program → Prop
  | var (line : Nat) (x : String) : Writes { empty line with var := some x } (.var () x)
  | boolean (line : Nat) (b : Bool) :
    Writes { empty line with bool := some b } (.const () (.boolean b))
  | number (line : Nat) (x : Number) :
    Writes { empty line with number := some x } (.const () (.number x))
  | string (line : Nat) (s : String) :
    Writes { empty line with string := some s } (.const () (.string s))
  | func (line : Nat) (x : String) {n : ExprNode} {b : Program} (hBody : Writes n b) :
    Writes { empty line with param := some x, body := some n } (.func () x b)
  | call (line : Nat) {n arg : ExprNode} {args : List ExprNode} {e : Program}
    (h : WritesCall n (arg :: args) e) :
    Writes { empty line with callee := some n, args := arg :: args } e
  | letIn (line : Nat) (x : String) {n m : ExprNode} {v b : Program} (hValue : Writes n v)
    (hBody : Writes m b) :
    Writes { empty line with defined := some x, value := some n, body := some m } (.letIn () x v b)
  | annot (line : Nat) {n : ExprNode} {type : TypeNode} {v : Program} {t : Polytype}
    (hValue : Writes n v) (hType : type.Writes t) :
    Writes { empty line with annotated := some n, type := some type } (.annot () v t)
  | error (line : Nat) (x : String) :
    Writes { empty line with error := some x } (.error () (.unbound x) .missing)
  | recovered (line : Nat) (x : String) {n : ExprNode} {e : Program} (h : Writes n e) :
    Writes { empty line with error := some x, recovered := some n } (.error () (.unbound x) e)

/-- The node of what is called and the nodes of arguments write the call, one argument after the
other. -/
inductive WritesCall : ExprNode → List ExprNode → Program → Prop
  | callee {n : ExprNode} {c : Program} (h : Writes n c) : WritesCall n [] c
  | arg {n arg : ExprNode} {args : List ExprNode} {c a : Program} (h : WritesCall n args c)
    (hArg : Writes arg a) : WritesCall n (args ++ [arg]) (.call () c a)

end

/-! ## Reading inverts writing -/

theorem programs_concat {ns : List ExprNode} {n : ExprNode} {es : List Program} {e : Program}
    (hns : programs ns = .ok es) (hn : n.program = .ok e) : programs (ns ++ [n]) = .ok (es ++ [e]) := by
  induction ns generalizing es with
  | nil =>
    cases hns
    simp [programs, hn]
  | cons m ns ih =>
    rw [programs] at hns
    obtain ⟨f, hm, hns⟩ := bind_eq_ok.1 hns
    obtain ⟨fs, hRest, hns⟩ := bind_eq_ok.1 hns
    cases hns
    rw [List.cons_append, programs, hm, ih hRest]
    rfl

/-- What is missing is not written. -/
theorem Writes.ne_missing {n : ExprNode} {e : Program} (h : Writes n e) : e ≠ .missing := by
  rintro rfl
  cases h with
  | @call line n arg args _ hCall =>
    generalize hArgs : arg :: args = all at hCall
    cases hCall with
    | callee h => cases hArgs

mutual

/-- A node stands for the expression that it writes. -/
theorem Writes.program_eq {n : ExprNode} {e : Program} (he : e.Describable) :
    Writes n e → n.program = .ok e
  | .var line x => rfl
  | .boolean line b => rfl
  | .number line x => rfl
  | .string line s => rfl
  | @Writes.func line x n b hBody => by
    have hb : n.program = .ok b := hBody.program_eq he
    simp [program, empty, part, hb]
  | @Writes.call line n arg args _ hCall => by
    -- calls with several arguments share a node, so that the chain is read at once
    obtain ⟨c, es, hc, hArgs, rfl⟩ := hCall.exists_calls he
    simp only [program, empty, hc, hArgs]
    rfl
  | @Writes.letIn line x n m v b hValue hBody => by
    have hv : n.program = .ok v := hValue.program_eq he.1
    have hb : m.program = .ok b := hBody.program_eq he.2
    simp only [program, empty, part, hv, hb]
    rfl
  | @Writes.annot line n type v t hValue hType => by
    have hv : n.program = .ok v := hValue.program_eq he.1
    have ht : type.polytype = .ok t := hType.polytype_eq he.2
    simp only [program, empty, hv, ht]
    rfl
  | .error line x => rfl
  | @Writes.recovered line x n e h => by
    -- only an error that stands alone has no expression inside
    have hn : n.program = .ok e := h.program_eq (he.resolve_left h.ne_missing)
    simp [program, empty, rest, hn]

/-- The parts of a call stand for the call that they write. -/
theorem WritesCall.exists_calls {n : ExprNode} {args : List ExprNode} {e : Program}
    (he : e.Describable) : WritesCall n args e →
      ∃ c es, n.program = .ok c ∧ programs args = .ok es ∧ .calls () c es = e
  | .callee h => ⟨_, [], h.program_eq he, rfl, rfl⟩
  | @WritesCall.arg n arg args c a h hArg => by
    -- the last argument is that of the outermost call
    obtain ⟨d, es, hd, hArgs, rfl⟩ := h.exists_calls he.1
    refine ⟨d, es ++ [a], hd, programs_concat hArgs (hArg.program_eq he.2), ?_⟩
    rw [Expr.calls, List.foldl_append]
    rfl

end

/-! ## Nodes for expressions write them -/

/-- There is a node for every expression of which documents can tell. -/
theorem exists_writes (line : Nat) {e : Program} (he : e.Describable) :
    ∃ n, ofProgram? line e = some n ∧ Writes n e := by
  induction e with
  | missing => cases he
  | unknown => cases he
  | var _ x => exact ⟨_, rfl, .var line x⟩
  | const _ v =>
    cases v with
    | boolean b => exact ⟨_, rfl, .boolean line b⟩
    | number x => exact ⟨_, rfl, .number line x⟩
    | string s => exact ⟨_, rfl, .string line s⟩
  | func _ x b ih =>
    obtain ⟨n, hn, hWrites⟩ := ih he
    exact ⟨_, by rw [ofProgram?, hn]; rfl, .func line x hWrites⟩
  | call _ c a ihc iha =>
    obtain ⟨n, hn, hCallee⟩ := ihc he.1
    obtain ⟨m, hm, hArg⟩ := iha he.2
    -- one argument to a node
    exact ⟨_, by rw [ofProgram?, hn, hm]; rfl, .call line (.arg (.callee hCallee) hArg)⟩
  | letIn _ x v b ihv ihb =>
    obtain ⟨n, hn, hValue⟩ := ihv he.1
    obtain ⟨m, hm, hBody⟩ := ihb he.2
    exact ⟨_, by rw [ofProgram?, hn, hm]; rfl, .letIn line x hValue hBody⟩
  | annot _ v t ih =>
    obtain ⟨n, hn, hValue⟩ := ih he.1
    exact ⟨_, by rw [ofProgram?, hn]; rfl, .annot line hValue (TypeNode.writes_ofPolytype line t)⟩
  | error _ d e ih =>
    cases d with
    | unbound x =>
      rcases he with rfl | he
      · -- nothing was recovered
        exact ⟨_, rfl, .error line x⟩
      · obtain ⟨n, hn, hWrites⟩ := ih he
        refine ⟨_, ?_, .recovered line x hWrites⟩
        rw [ofProgram?, hn]
        · rfl
        · exact hWrites.ne_missing
    | _ => cases he

end ExprNode

/-- Nodes stand for exactly the types in normal form without empty names. A node that writes such a
type, or an expression of which documents can tell, stands for what it writes, and the nodes that
are made from types and expressions write them. -/
theorem reading_inverts_writing :
    (∀ t : Polytype, (∃ n : TypeNode, n.polytype = .ok t) ↔ t.normal = t ∧ t.Named) ∧
    (∀ t : Polytype, t.normal = t → t.Named →
      (∀ n : TypeNode, n.Writes t → n.polytype = .ok t) ∧
      ∀ line, (TypeNode.ofPolytype line t).Writes t) ∧
    ∀ e : Program, e.Describable →
      (∀ n : ExprNode, n.Writes e → n.program = .ok e) ∧
      ∀ line, ∃ n, ExprNode.ofProgram? line e = some n ∧ n.Writes e := by
  refine ⟨fun t => ⟨?_, fun ht => ?_⟩, fun t hNormal hNamed => ⟨fun n hn => ?_, fun line => ?_⟩,
    fun e he => ⟨fun n hn => hn.program_eq he, fun line => ExprNode.exists_writes line he⟩⟩
  · -- what a node stands for is in normal form, by induction on the node
    rintro ⟨n, hn⟩
    exact n.sound_reading.poly t hn
  · exact ⟨_, (TypeNode.writes_ofPolytype 1 t).polytype_eq ht⟩
  · exact hn.polytype_eq ⟨hNormal, hNamed⟩
  · exact TypeNode.writes_ofPolytype line t

/-- The call `f x true` with the type `∀ a (b = ∀ c. c → c). a → b → a`: the arguments share a node,
the parameters share a node, and bindings without a bound leave it out. A node for `∀ (a ≥ number).
a → x` stands for `number → x`, although it also names a variable. -/
theorem reading_inverts_writing_grouped : ∃ (t : Polytype) (e : Program) (type m : TypeNode)
    (n : ExprNode),
    t = .all "a" .flexible .bottom (.all "b" .rigid
      (.all "c" .flexible .bottom (.mono (.fn (.var "c") (.var "c"))))
      (.mono (.fn (.var "a") (.fn (.var "b") (.var "a"))))) ∧
    e = .annot () (.call () (.call () (.var () "f") (.var () "x")) (.const () (.boolean true))) t ∧
    n = { ExprNode.empty 1 with
      annotated := some { ExprNode.empty 1 with
        callee := some { ExprNode.empty 1 with var := some "f" }
        args := [{ ExprNode.empty 1 with var := some "x" },
          { ExprNode.empty 1 with bool := some true }] }
      type := some type } ∧
    t.normal = t ∧ t.Named ∧ type.polytype = .ok t ∧ e.Describable ∧ n.program = .ok e ∧ m.var = "y" ∧
    m.polytype = .ok (.mono (.fn (.const .number) (.var "x"))) ∧
    Polytype.Named (.mono (.fn (.const .number) (.var "x"))) := by
  obtain ⟨hTypes, hWritten, hPrograms⟩ := reading_inverts_writing
  obtain ⟨t, ht⟩ : ∃ t : Polytype, t = .all "a" .flexible .bottom (.all "b" .rigid
      (.all "c" .flexible .bottom (.mono (.fn (.var "c") (.var "c"))))
      (.mono (.fn (.var "a") (.fn (.var "b") (.var "a"))))) := ⟨_, rfl⟩
  have hDescribable : t.Describable := by
    subst ht
    exact ⟨by cbv, by decide, by decide⟩
  obtain ⟨type, hType⟩ : ∃ type : TypeNode, type.Writes t := by
    subst ht
    -- the bound of `b`, and then the body
    have hId : TypeNode.WritesMono _ (.fn (.var "c") (.var "c")) :=
      .fn 1 (.var 1 "c") (.result (.var 1 "c"))
    have hBody : TypeNode.WritesMono _ (.fn (.var "a") (.fn (.var "b") (.var "a"))) :=
      .fn 1 (.var 1 "a") (.param (.var 1 "b") (.result (.var 1 "a")))
    have hBound := TypeNode.Writes.quantified 1 (.unbounded "c" .flexible (.body (.mono hId)))
    have hRest := TypeNode.WritesChain.bounded "b" .rigid hBound (.body (.mono hBody))
    exact ⟨_, .quantified 1 (.unbounded "a" .flexible hRest)⟩
  obtain ⟨e, he⟩ : ∃ e : Program, e = .annot () (.call () (.call () (.var () "f") (.var () "x"))
    (.const () (.boolean true))) t := ⟨_, rfl⟩
  have hExpr : e.Describable := by
    subst he
    exact ⟨⟨⟨trivial, trivial⟩, trivial⟩, hDescribable⟩
  -- both arguments go to one node
  have hCall := ExprNode.WritesCall.arg (.arg (.callee (.var 1 "f")) (.var 1 "x")) (.boolean 1 true)
  have hWrites := ExprNode.Writes.annot 1 (.call 1 hCall) hType
  -- a node that names a variable besides its quantifiers, which go first
  obtain ⟨m, hVar, hm⟩ : ∃ m : TypeNode, m.var = "y" ∧
      m.polytype = .ok (.mono (.fn (.const .number) (.var "x"))) :=
    ⟨⟨1, "", "y", none, some [⟨"a", some { TypeNode.empty 1 with name := "number" }, false⟩],
      some { TypeNode.empty 1 with parts := some [{ TypeNode.empty 1 with var := "a" },
        { TypeNode.empty 1 with var := "x" }] }⟩, rfl, by cbv⟩
  exact ⟨t, e, type, m, _, ht, he, rfl, hDescribable.1, hDescribable.2,
    (hWritten t hDescribable.1 hDescribable.2).1 type hType, hExpr,
    (hPrograms e hExpr).1 _ (he ▸ hWrites), hVar, hm, ((hTypes _).1 ⟨m, hm⟩).2⟩

end Document

end Mlf
