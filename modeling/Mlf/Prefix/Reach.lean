import Mlf.Prefix.Basic

/-!
# What a type reaches

A type reaches its free variables and whatever the bounds of reached variables mention. The bounds
may form cycles, and may mention variables that are not in play; the walk visits each name once, and
goes no further than it has to.
-/

namespace Mlf

namespace Prefix

/-- The number of variables that are not among the names `seen`. -/
def unseen (p : Prefix) (seen : List String) : Nat := p.entries.keys.countP fun x => x ∉ seen

theorem countP_not_mem_cons_lt {xs seen : List String} {x : String} (hx : x ∈ xs) (hs : x ∉ seen) :
    xs.countP (fun y => y ∉ x :: seen) < xs.countP (fun y => y ∉ seen) := by
  have le (ys : List String) :
      ys.countP (fun y => y ∉ x :: seen) ≤ ys.countP (fun y => y ∉ seen) :=
    List.countP_mono_left (by grind)
  induction xs with
  | nil => simp at hx
  | cons z zs ih =>
    rw [List.countP_cons, List.countP_cons]
    by_cases h : x = z
    · subst h
      have gone : decide (x ∉ x :: seen) = false := by simp
      have new : decide (x ∉ seen) = true := by simpa using hs
      have := le zs
      rw [gone, new, if_neg Bool.false_ne_true, if_pos rfl]
      omega
    · have := ih (by simpa [h] using hx)
      have same : decide (z ∉ x :: seen) = decide (z ∉ seen) := by simp [Ne.symm h]
      rw [same]
      omega

theorem unseen_cons_le (p : Prefix) (seen : List String) (x : String) :
    p.unseen (x :: seen) ≤ p.unseen seen :=
  List.countP_mono_left (by grind)

theorem unseen_cons_lt {p : Prefix} {seen : List String} {x : String} {e : Entry}
    (hx : p.find? x = some e) (hs : x ∉ seen) : p.unseen (x :: seen) < p.unseen seen := by
  refine countP_not_mem_cons_lt (NameMap.mem_keys.2 ?_) hs
  simp only [find?] at hx
  simp [NameMap.contains, hx]

/-- Whether the walk through bounds from the names `todo` on comes to a name. It does not pass through
the names `seen` again, and ends as soon as the name is found. -/
def leadsTo (p : Prefix) (x : String) (todo seen : List String) : Bool :=
  match todo with
  | [] => false
  | y :: rest =>
    if y = x then true
    else if _ : y ∈ seen then p.leadsTo x rest seen
    else
      match _ : p.find? y with
      | none => p.leadsTo x rest (y :: seen)
      | some e => p.leadsTo x (e.bound.type.freeVars.toList ++ rest) (y :: seen)
termination_by (p.unseen seen, todo.length)
decreasing_by
  · exact Prod.Lex.right _ (by simp)
  · exact (Nat.lt_or_eq_of_le (p.unseen_cons_le seen y)).elim (Prod.Lex.left _ _)
      fun h => h ▸ Prod.Lex.right _ (by simp)
  · exact Prod.Lex.left _ _ (unseen_cons_lt ‹_› ‹_›)

/-- Whether a type reaches a name. -/
def occurs (p : Prefix) (x : String) (t : Polytype) : Bool := p.leadsTo x t.freeVars.toList []

end Prefix

end Mlf
