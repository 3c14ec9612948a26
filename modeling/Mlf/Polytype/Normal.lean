import Mlf.Polytype.Subst

/-!
# Normal forms of types

Four laws simplify a type without changing its instances. A bound that is a monotype is put in the
place of its variable. A quantifier whose variable is unused is dropped. A quantifier over its own
variable is its bound. A quantifier that would capture a name put in for an outer variable is
renamed. The normal form applies them throughout; the order of the quantifiers that stay is kept.

A chain of quantifiers is normalized in two passes. The first goes from the outermost quantifier
inwards, with the replacements found so far, and normalizes the bounds. The second goes back out and
drops the quantifiers that nothing uses. Where what is left is the variable of the innermost
quantifier, its bound takes the place of both, and the chain that this gives is normalized in turn.
Both passes note whether they changed anything, so that a normal form is handed back as it is.

The passes run again only on chains with fewer quantifiers, so the number of quantifiers of a chain
says how deep the recursion goes.
-/

namespace Mlf

namespace Polytype

/-- The names of a chain: of its quantifiers, free in their bounds, and free in the body. -/
def chainNames (bs : List Binding) (body : Polytype) : NameSet :=
  bs.foldr (fun b names => (b.bound.type.freeVars.union names).insert b.name) body.freeVars

/-- What the first pass makes of a list of bindings: the bindings that stay, outermost first, the
replacements for what they quantify, and whether that is any change. -/
structure Inlined where
  kept : List Binding
  subst : Subst
  changed : Bool

/-- Keeps one more binding, in front of the others. -/
def Inlined.keep (r : Inlined) (b : Binding) (changed : Bool) : Inlined :=
  ⟨b :: r.kept, r.subst, changed || r.changed⟩

/-- Normalizes the bounds of the bindings after the replacements `s`, outermost first. A bound that
is a monotype becomes a replacement for what follows. Renamed quantifiers avoid the names `taken`. -/
def inlineBounds (normalize : Polytype → Polytype) (s : Subst) (taken : NameSet) :
    List Binding → Inlined
  | [] => ⟨[], s, false⟩
  | b :: bs =>
    match normalize (b.bound.type.subst s) with
    | mono m => { inlineBounds normalize (s.insert b.name m) taken bs with changed := true }
    | bound =>
      -- From here on the name stands for this quantifier.
      let inner : Subst := s.erase b.name
      if (inner.mentioning b.name).any fun z => decide (z ∈ taken) then
        let y := freshName b.name taken.toList
        (inlineBounds normalize (inner.insert b.name (.var y)) (taken.insert y) bs).keep
          ⟨y, ⟨b.bound.kind, bound⟩⟩ true
      else
        (inlineBounds normalize inner taken bs).keep ⟨b.name, ⟨b.bound.kind, bound⟩⟩
          (decide (bound ≠ b.bound.type))

/-- The bindings that are used, by the body, whose free names are `needed`, or by a bound further in
that is used itself. The innermost one is looked at first. With the bindings come the free names of
the chain that they make. -/
def dropUnused (needed : NameSet) : List Binding → List Binding × NameSet
  | [] => ([], needed)
  | b :: bs =>
    let (used, needed) := dropUnused needed bs
    if b.name ∈ needed then (b :: used, (needed.erase b.name).union b.bound.type.freeVars)
    else (used, needed)

/-- The innermost binding with those around it, if the type is the variable of that binding. -/
def ownVariable? (bs : List Binding) (t : Polytype) : Option (List Binding × Binding) :=
  bs.getLast?.bind fun b => if t = mono (.var b.name) then some (bs.dropLast, b) else none

/-- The normal form of a chain, and whether it is any change. -/
structure Normalized where
  type : Polytype
  changed : Bool

/-- The normal form of a type by way of the normal forms of chains. What is no change is the type
itself. -/
def normalizeBy (chains : List Binding → Polytype → Normalized) : Polytype → Polytype
  | all x k b t =>
    let (bs, body) := (all x k b t).split
    let ⟨type, changed⟩ := chains bs body
    if changed then type else all x k b t
  | t => t

/-- Puts the used bindings in front of the body. A quantifier over its own variable is its bound, and
the chain goes on with the quantifiers of the bound; it is to be normalized `again`. -/
def finish (again : List Binding → Polytype → Normalized) (original : Polytype) (changed : Bool)
    (used : List Binding) (body : Polytype) : Normalized :=
  match ownVariable? used body with
  | some (outer, last) =>
    let (inner, innerBody) := last.bound.type.split
    { again (outer ++ inner) innerBody with changed := true }
  | none => if changed then ⟨chain used body, true⟩ else ⟨original, false⟩

/-- The normal form of the chain of `bs` in front of a body that is no quantifier itself, for chains
with up to `n` quantifiers, those in bounds included. -/
def normalizeChain : Nat → List Binding → Polytype → Normalized
  | 0, bs, body => ⟨chain bs body, false⟩
  | n + 1, bs, body =>
    let ⟨kept, s, changed⟩ :=
      inlineBounds (normalizeBy (normalizeChain n)) ∅ (chainNames bs body) bs
    let next := body.subst s
    let (used, _) := dropUnused next.freeVars kept
    finish (normalizeChain n) (chain bs body)
      (changed || decide (next ≠ body) || decide (used.length < kept.length)) used next

/-- The normal form of a type. -/
def normal (t : Polytype) : Polytype := normalizeBy (normalizeChain t.quantifiers) t

/-- Quantifies a type over bindings, the first one outermost, and brings the result to normal form;
without bindings the type stays as it is. -/
def quantifyAll : List Binding → Polytype → Polytype
  | [], t => t
  | b :: bs, t =>
    let (inner, body) := t.split
    (normalizeChain (chain (b :: bs) t).quantifiers (b :: bs ++ inner) body).type

end Polytype

end Mlf
