/-!
# Finite sets of names

A set of names is a list without repeats. The order of the list carries no meaning: every reader
goes through membership, the size, or the sorted list of the members.

Main statements: membership in each operation's result (`mem_insert`, `mem_erase`, `mem_union`,
`mem_ofList`), and that the sorted list has exactly the members of the set (`mem_sorted`).
-/

namespace Mlf

/-- A finite set of names. -/
structure NameSet where
  /-- The members, each once, in no meaningful order. -/
  toList : List String
  nodup : toList.Nodup

namespace NameSet

instance : Membership String NameSet where
  mem s x := x ∈ s.toList

instance (x : String) (s : NameSet) : Decidable (x ∈ s) :=
  inferInstanceAs (Decidable (x ∈ s.toList))

@[simp] theorem mem_toList {x : String} {s : NameSet} : x ∈ s.toList ↔ x ∈ s := Iff.rfl

/-- The set without members. -/
def empty : NameSet := ⟨[], List.nodup_nil⟩

instance : EmptyCollection NameSet := ⟨empty⟩

instance : Inhabited NameSet := ⟨empty⟩

/-- The set of one name. -/
def singleton (x : String) : NameSet := ⟨[x], by simp⟩

/-- Adds a name. -/
def insert (x : String) (s : NameSet) : NameSet :=
  if h : x ∈ s.toList then s else ⟨x :: s.toList, List.nodup_cons.2 ⟨h, s.nodup⟩⟩

/-- Takes a name out. -/
def erase (s : NameSet) (x : String) : NameSet := ⟨s.toList.erase x, s.nodup.erase x⟩

/-- The names of either set. -/
def union (s t : NameSet) : NameSet := s.toList.foldr insert t

/-- The names of a list. -/
def ofList (xs : List String) : NameSet := xs.foldr insert empty

/-- The number of members. -/
def size (s : NameSet) : Nat := s.toList.length

/-- The members in increasing order. -/
def sorted (s : NameSet) : List String := s.toList.mergeSort (fun x y => decide (x ≤ y))

@[simp] theorem not_mem_empty (x : String) : x ∉ (∅ : NameSet) := List.not_mem_nil

@[simp] theorem mem_singleton {x y : String} : x ∈ singleton y ↔ x = y := List.mem_singleton

@[simp] theorem mem_insert {x y : String} {s : NameSet} : x ∈ insert y s ↔ x = y ∨ x ∈ s := by
  unfold insert
  split
  · next h => exact ⟨Or.inr, fun h' => h'.elim (fun e => e ▸ h) id⟩
  · exact List.mem_cons

@[simp] theorem mem_erase {x y : String} {s : NameSet} : x ∈ s.erase y ↔ x ≠ y ∧ x ∈ s :=
  s.nodup.mem_erase_iff

theorem mem_foldr_insert {x : String} {xs : List String} {t : NameSet} :
    x ∈ xs.foldr insert t ↔ x ∈ xs ∨ x ∈ t := by
  induction xs with
  | nil => simp
  | cons y ys ih => simp [ih, or_assoc]

@[simp] theorem mem_union {x : String} {s t : NameSet} : x ∈ s.union t ↔ x ∈ s ∨ x ∈ t :=
  mem_foldr_insert

@[simp] theorem mem_ofList {x : String} {xs : List String} : x ∈ ofList xs ↔ x ∈ xs := by
  rw [ofList, mem_foldr_insert]
  exact or_iff_left (not_mem_empty x)

@[simp] theorem mem_sorted {x : String} {s : NameSet} : x ∈ s.sorted ↔ x ∈ s :=
  List.mem_mergeSort

end NameSet

end Mlf
