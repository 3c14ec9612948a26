import Mlf.Prefix.Reach

/-!
# Instances and generalization

An instance of a quantified type puts new variables of the current level in the place of its
quantified ones. Generalization is the way back: the variables of the current level that a type
reaches become quantified. They are listed in the order of their first occurrence, each one after
those that its bound mentions.
-/

namespace Mlf

namespace Prefix

section

variable {m : Type → Type} [Monad m] (require : Bool → m Unit)

/-- Makes up a variable for each binding, the bound of which may mention earlier bindings; `s` holds
the variables made up so far. -/
@[specialize]
def instantiateWithIn (p : Prefix) (s : Subst) : List Binding → m (Subst × Prefix)
  | [] => return (s, p)
  | b :: bs => do
    let (x, q) ← p.newTypeIn require ⟨b.bound.kind, b.bound.type.subst s⟩
    q.instantiateWithIn (s.insert b.name (.var x)) bs

/-- The body of a quantified type with new variables for the bindings. -/
@[specialize]
def instantiateIn (p : Prefix) (bs : List Binding) (body : Monotype) : m (Monotype × Prefix) := do
  let (s, q) ← p.instantiateWithIn require ∅ bs
  return (body.subst s, q)

end

@[inherit_doc instantiateWithIn]
def instantiateWith (p : Prefix) (s : Subst) (bs : List Binding) : Subst × Prefix :=
  p.instantiateWithIn trust s bs

@[inherit_doc instantiateIn]
def instantiate (p : Prefix) (bs : List Binding) (body : Monotype) : Monotype × Prefix :=
  p.instantiateIn trust bs body

section

variable (p : Prefix)

theorem instantiateWith_nil (s : Subst) : p.instantiateWith s [] = (s, p) := rfl

theorem instantiateWith_cons (s : Subst) (b : Binding) (bs : List Binding) :
    p.instantiateWith s (b :: bs) =
      let (x, q) := p.newType ⟨b.bound.kind, b.bound.type.subst s⟩
      q.instantiateWith (s.insert b.name (.var x)) bs := rfl

theorem instantiate_def (bs : List Binding) (body : Monotype) :
    p.instantiate bs body =
      let (s, q) := p.instantiateWith ∅ bs
      (body.subst s, q) := rfl

end

/-- A step of the search for the variables to quantify. -/
inductive Task where
  /-- Look at a variable and what its bound mentions. -/
  | visit (name : String)
  /-- List a variable, when all that its bound mentions is listed. -/
  | list (binding : Binding)

/-- The variables of the current level that the tasks lead to, and the misuses on the way. -/
def gather (p : Prefix) (todo : List Task) (seen : List String) : List Binding × List Failure :=
  match todo with
  | [] => ([], [])
  | .list b :: rest => let (bs, fs) := p.gather rest seen; (b :: bs, fs)
  | .visit x :: rest =>
    if _ : x ∈ seen then p.gather rest seen
    else
      match _ : p.find? x with
      | none => let (bs, fs) := p.gather rest (x :: seen); (bs, .unknownGeneralize x :: fs)
      | some e =>
        -- Variables of older levels stay free, with all that they reach.
        if e.level < p.level then p.gather rest (x :: seen)
        else
          p.gather (e.bound.type.occurrences.map .visit ++ .list ⟨x, e.bound⟩ :: rest) (x :: seen)
termination_by (p.unseen seen, todo.length)
decreasing_by
  · exact Prod.Lex.right _ (by simp)
  · exact Prod.Lex.right _ (by simp)
  · exact (Nat.lt_or_eq_of_le (p.unseen_cons_le seen x)).elim (Prod.Lex.left _ _)
      fun h => h ▸ Prod.Lex.right _ (by simp)
  · exact Prod.Lex.left _ _ (unseen_cons_lt ‹_› ‹_›)
  · exact Prod.Lex.left _ _ (unseen_cons_lt ‹_› ‹_›)

/-- The variables that the generalization of a type quantifies over, outermost first, and the
misuses on the way. -/
def generalizable (p : Prefix) (t : Polytype) : List Binding × List Failure :=
  p.gather (t.occurrences.map .visit) []

/-- Quantifies a type over the variables of the current level that it reaches. -/
def generalize (p : Prefix) (t : Polytype) : Polytype × Prefix :=
  let (bs, fs) := p.generalizable t
  (.quantifyAll bs t, p.failAll fs)

end Prefix

end Mlf
