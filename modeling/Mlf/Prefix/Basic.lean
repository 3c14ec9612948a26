import Mlf.Name.Map
import Mlf.Name.Supply
import Mlf.Polytype.Normal
import Mlf.Trace

/-!
# The type variables in play

A prefix binds type variables to bounds. Its variables are owned by levels, which are entered and
left like the parts of a program that inference is in; leaving a level forgets the variables that it
owns. A variable whose bound is a monotype is solved.

A variable may only be forgotten after those whose bounds mention it. So when a bound changes, the
variables that it reaches move to the level of the variable, if they belong to a younger one.

Misuse does not stop a run: it is recorded and the operation has no other effect.
-/

namespace Mlf

/-- A variable in play: the level that owns it, counted from 1, and what it stands for. -/
structure Entry where
  level : Nat
  bound : Bound
deriving DecidableEq, Repr

/-- The type variables in play. -/
structure Prefix where
  /-- How many generated names were tried so far. -/
  counter : Nat
  /-- The variables with their bounds. -/
  entries : NameMap Entry
  /-- The names that each level owns, the innermost level first. -/
  levels : List NameSet
  /-- The misuses so far, the first one first. -/
  failures : List Failure
  /-- The events so far, the last one first. -/
  trace : List Event

namespace Prefix

/-- No variables and no levels. -/
def empty : Prefix := ⟨0, ∅, [], [], []⟩

instance : Inhabited Prefix := ⟨empty⟩

/-- The number of levels, which is the number of the current one. -/
def level (p : Prefix) : Nat := p.levels.length

/-- The number of variables. -/
def size (p : Prefix) : Nat := p.entries.size

/-- The variable of a name. -/
def find? (p : Prefix) (x : String) : Option Entry := p.entries.find? x

/-- The monotype that a solved variable stands for. -/
def solution? (p : Prefix) (x : String) : Option Monotype :=
  (p.find? x).bind fun e => e.bound.type.mono?

/-- Notes an event. -/
def note (p : Prefix) (e : Event) : Prefix := { p with trace := e :: p.trace }

/-- Records a misuse. -/
def fail (p : Prefix) (f : Failure) : Prefix :=
  { p with failures := p.failures ++ [f], trace := .failure f :: p.trace }

/-- Records misuses in order. -/
def failAll (p : Prefix) (fs : List Failure) : Prefix := fs.foldl fail p

/-- The place of a level in the list of levels. -/
def levelIndex (p : Prefix) (l : Nat) : Nat := p.level - l

/-- Takes a name from the level that owns it. -/
def disown (p : Prefix) (x : String) : Prefix :=
  match p.find? x with
  | none => p
  | some e => { p with levels := p.levels.modify (p.levelIndex e.level) (·.erase x) }

/-- Binds a name at the level of its entry, in place of what it may have been. -/
def place (p : Prefix) (x : String) (e : Entry) : Prefix :=
  let q := p.disown x
  { q with
    entries := q.entries.insert x e
    levels := q.levels.modify (p.levelIndex e.level) (·.insert x) }

/-- Enters a level. -/
def enter (p : Prefix) : Prefix := { p with levels := ∅ :: p.levels }

/-- Leaves the current level and forgets the variables that it owns. -/
def leave (p : Prefix) : Prefix :=
  match p.levels with
  | [] => p.fail .noLevel
  | top :: rest => { p with entries := top.toList.foldl NameMap.erase p.entries, levels := rest }

/-- The variable that an addition replaces. -/
def replaced? (p : Prefix) (x : String) : Option Entry :=
  if p.level = 0 then none else p.find? x

/-- The names that the entries and the levels hold, each once and in increasing order. -/
def names (p : Prefix) : List String :=
  ((p.entries.keys ++ p.levels.flatMap NameSet.toList).mergeSort fun x y => decide (x ≤ y)).eraseReps

/-! ## Adding variables and changing bounds

Names are put at levels by number. What is done about a level that does not exist is a parameter of
the operations: nothing where they run, since it does not come up. -/

/-- There is a level with this number. -/
def hasLevel (p : Prefix) (l : Nat) : Bool := decide (1 ≤ l ∧ l ≤ p.level)

/-- The levels exist that change when a name is bound at level `l`: the one that owns the name so
far, if any, and `l`. -/
def canPlace (p : Prefix) (x : String) (l : Nat) : Bool :=
  ((p.find? x).all fun e => p.hasLevel e.level) && p.hasLevel l

/-- The number of variables that belong to levels younger than `l`. -/
def younger (p : Prefix) (l : Nat) : Nat := p.entries.values.countP fun e => l < e.level

theorem countP_filter_ne_lt {α : Type} (good : α → Bool) {bs : List (String × α)} {x : String}
    {a : α} (hx : bs.lookup x = some a) (ha : good a = true) :
    ((bs.filter (fun b => b.1 != x)).map Prod.snd).countP good < (bs.map Prod.snd).countP good := by
  induction bs with
  | nil => simp at hx
  | cons b bs ih =>
    obtain ⟨y, c⟩ := b
    have sub : ((bs.filter (fun b => b.1 != x)).map Prod.snd).countP good
        ≤ (bs.map Prod.snd).countP good :=
      (List.filter_sublist.map Prod.snd).countP_le
    rw [NameMap.lookup_pair_cons] at hx
    by_cases h : x = y
    · subst h
      obtain rfl : c = a := by simpa using hx
      simp only [bne_self_eq_false, Bool.false_eq_true, not_false_eq_true, List.filter_cons_of_neg,
        List.map_cons, List.countP_cons, ha, if_true]
      omega
    · rw [if_neg h] at hx
      rw [List.filter_cons_of_pos (by simpa using Ne.symm h)]
      simpa [List.countP_cons] using ih hx

theorem entries_place (p : Prefix) (x : String) (e : Entry) :
    (p.place x e).entries = p.entries.insert x e := by
  unfold place disown
  split <;> rfl

theorem younger_place_lt {p : Prefix} {x : String} {e : Entry} {l : Nat}
    (hx : p.find? x = some e) (hl : l < e.level) :
    (p.place x ⟨l, e.bound⟩).younger l < p.younger l := by
  have h := countP_filter_ne_lt (fun e : Entry => decide (l < e.level)) hx (by simpa using hl)
  simpa [younger, entries_place, NameMap.insert, NameMap.erase, NameMap.values, List.countP_cons]
    using h

/-- The older of two variables, which is to stay when they become one; of two from one level the
first. -/
def survivor (p : Prefix) (x y : String) : String × String :=
  match p.find? x, p.find? y with
  | some a, some b => if b.level < a.level then (y, x) else (x, y)
  | _, _ => (x, y)

section

variable {m : Type → Type} [Monad m] (require : Bool → m Unit)

/-- Adds a variable to the current level. -/
@[specialize]
def addIn (p : Prefix) (x : String) (b : Bound) : m Prefix :=
  if p.level = 0 then return p.fail (.unowned x)
  else do
    require (p.canPlace x p.level)
    return p.place x ⟨p.level, b⟩

/-- Makes up a variable of the current level, with a name that is not in use. -/
@[specialize]
def newTypeIn (p : Prefix) (b : Bound) : m (String × Prefix) := do
  let (x, counter) := Supply.numbered.firstFree p.entries.keys p.counter
  let q ← { p with counter := counter }.addIn require x b
  return (x, q.note (.newType x p.level b.type))

/-- Moves names to level `l` that belong to younger ones, with all that their bounds reach through
such names. -/
@[specialize]
def lowerIn (p : Prefix) (l : Nat) (todo : List String) : m Prefix :=
  match todo with
  | [] => return p
  | x :: rest =>
    match _ : p.find? x with
    | none => p.lowerIn l rest
    | some e =>
      if _ : l < e.level then do
        require (p.canPlace x l)
        (p.place x ⟨l, e.bound⟩).lowerIn l (e.bound.type.freeVars.toList ++ rest)
      else
        p.lowerIn l rest
termination_by (p.younger l, todo.length)
decreasing_by
  · exact Prod.Lex.right _ (by simp)
  · exact Prod.Lex.left _ _ (younger_place_lt ‹_› ‹_›)
  · exact Prod.Lex.right _ (by simp)

/-- Gives a variable a new bound, and its level to what the bound reaches. -/
@[specialize]
def updateIn (p : Prefix) (x : String) (b : Bound) : m Prefix :=
  match p.find? x with
  | none => return p.fail (.unknownUpdate x)
  | some e => do
    -- The variable keeps its level, so its names need not move.
    let q := { p with entries := p.entries.insert x ⟨e.level, b⟩ }
    return (← q.lowerIn require e.level b.type.freeVars.toList).note (.update x b)

/-- Makes two variables one: the older one gets the bound, and the other one stands for it. -/
@[specialize]
def mergeIn (p : Prefix) (x y : String) (b : Bound) : m (String × Prefix) :=
  if p.entries.contains x && p.entries.contains y then do
    let (stays, goes) := p.survivor x y
    let q ← p.updateIn require stays b
    return (stays, ← q.updateIn require goes ⟨.flexible, .mono (.var stays)⟩)
  else
    return (x, p.fail (.unknownMerge x y))

end

/-- Nothing is done about levels that do not exist. -/
def trust (_ : Bool) : Id Unit := ()

@[inherit_doc addIn]
def add (p : Prefix) (x : String) (b : Bound) : Prefix := p.addIn trust x b

@[inherit_doc newTypeIn]
def newType (p : Prefix) (b : Bound) : String × Prefix := p.newTypeIn trust b

@[inherit_doc lowerIn]
def lower (p : Prefix) (l : Nat) (todo : List String) : Prefix := p.lowerIn trust l todo

@[inherit_doc updateIn]
def update (p : Prefix) (x : String) (b : Bound) : Prefix := p.updateIn trust x b

@[inherit_doc mergeIn]
def merge (p : Prefix) (x y : String) (b : Bound) : String × Prefix := p.mergeIn trust x y b

section

variable (p : Prefix)

theorem add_def (x : String) (b : Bound) :
    p.add x b = if p.level = 0 then p.fail (.unowned x) else p.place x ⟨p.level, b⟩ := rfl

theorem newType_def (b : Bound) :
    p.newType b =
      let (x, counter) := Supply.numbered.firstFree p.entries.keys p.counter
      (x, ({ p with counter := counter }.add x b).note (.newType x p.level b.type)) := rfl

theorem update_def (x : String) (b : Bound) :
    p.update x b =
      match p.find? x with
      | none => p.fail (.unknownUpdate x)
      | some e =>
        ({ p with entries := p.entries.insert x ⟨e.level, b⟩ }.lower e.level
          b.type.freeVars.toList).note (.update x b) := rfl

theorem merge_def (x y : String) (b : Bound) :
    p.merge x y b =
      if p.entries.contains x && p.entries.contains y then
        let (stays, goes) := p.survivor x y
        (stays, (p.update stays b).update goes ⟨.flexible, .mono (.var stays)⟩)
      else
        (x, p.fail (.unknownMerge x y)) := rfl

theorem lower_nil (l : Nat) : p.lower l [] = p := by
  rw [lower, lowerIn]
  rfl

variable {p} {l : Nat} {x : String} {e : Entry} (rest : List String)

theorem lower_unknown (hx : p.find? x = none) : p.lower l (x :: rest) = p.lower l rest := by
  rw [lower, lowerIn]
  split
  · rfl
  · next he => simp [hx] at he

theorem lower_moved (hx : p.find? x = some e) (hl : l < e.level) :
    p.lower l (x :: rest) =
      (p.place x ⟨l, e.bound⟩).lower l (e.bound.type.freeVars.toList ++ rest) := by
  rw [lower, lowerIn]
  split
  · next hNone => simp [hx] at hNone
  · next e' he =>
    obtain rfl : e = e' := Option.some.inj (hx.symm.trans he)
    rw [dif_pos hl]
    rfl

theorem lower_kept (hx : p.find? x = some e) (hl : ¬ l < e.level) :
    p.lower l (x :: rest) = p.lower l rest := by
  rw [lower, lowerIn]
  split
  · rfl
  · next e' he =>
    obtain rfl : e = e' := Option.some.inj (hx.symm.trans he)
    rw [dif_neg hl]
    rfl

/-- Induction along the moves to level `l`. -/
theorem lower_induct (l : Nat) {motive : Prefix → List String → Prop} (nil : ∀ p, motive p [])
    (unknown : ∀ p x rest, p.find? x = none → motive p rest → motive p (x :: rest))
    (moved : ∀ p x rest e, p.find? x = some e → l < e.level →
      motive (p.place x ⟨l, e.bound⟩) (e.bound.type.freeVars.toList ++ rest) → motive p (x :: rest))
    (kept : ∀ p x rest e, p.find? x = some e → ¬ l < e.level → motive p rest →
      motive p (x :: rest)) (p : Prefix) (todo : List String) : motive p todo :=
  lowerIn.induct l motive nil unknown moved kept p todo

end

end Prefix

end Mlf
