/-!
# Finite maps from names

A map from names is a list of pairs in which no name is repeated. As for sets of names, the order of
the list carries no meaning.

Main statements: what a look-up sees after an insertion and after a removal (`find?_insert`,
`find?_erase`), and that the keys are the names that a look-up finds (`mem_keys`).
-/

namespace Mlf

/-- A finite map from names to values of type `α`. -/
structure NameMap (α : Type) where
  /-- The pairs, one for each name, in no meaningful order. -/
  toList : List (String × α)
  nodup : (toList.map Prod.fst).Nodup

namespace NameMap

variable {α : Type}

/-- The map that binds nothing. -/
def empty : NameMap α := ⟨[], List.nodup_nil⟩

instance : EmptyCollection (NameMap α) := ⟨empty⟩

instance : Inhabited (NameMap α) := ⟨empty⟩

/-- The value of a name. -/
def find? (m : NameMap α) (x : String) : Option α := m.toList.lookup x

/-- Whether a name has a value. -/
def contains (m : NameMap α) (x : String) : Bool := (m.find? x).isSome

/-- The names that have a value. -/
def keys (m : NameMap α) : List String := m.toList.map Prod.fst

/-- The values, one for each name. -/
def values (m : NameMap α) : List α := m.toList.map Prod.snd

/-- The number of names that have a value. -/
def size (m : NameMap α) : Nat := m.toList.length

/-- Forgets the value of a name. -/
def erase (m : NameMap α) (x : String) : NameMap α where
  toList := m.toList.filter (fun b => b.1 != x)
  nodup := m.nodup.sublist (List.filter_sublist.map Prod.fst)

/-- Gives a name a value, in place of the one that it may have had. -/
def insert (m : NameMap α) (x : String) (a : α) : NameMap α where
  toList := (x, a) :: (m.erase x).toList
  nodup := by
    refine List.nodup_cons.2 ⟨fun h => ?_, (m.erase x).nodup⟩
    obtain ⟨b, hb, rfl⟩ := List.mem_map.1 h
    simpa using (List.mem_filter.1 hb).2

/-- Changes the values, name by name. -/
def map {β : Type} (f : α → β) (m : NameMap α) : NameMap β where
  toList := m.toList.map fun b => (b.1, f b.2)
  nodup := by simpa [Function.comp_def] using m.nodup

/-- The map of a list of pairs; of two pairs with one name the later counts. -/
def ofList (bs : List (String × α)) : NameMap α :=
  bs.foldl (fun m b => m.insert b.1 b.2) empty

theorem lookup_pair_cons (bs : List (String × α)) (x y : String) (a : α) :
    ((x, a) :: bs).lookup y = if y = x then some a else bs.lookup y := by
  by_cases h : y = x
  · simp [h]
  · simp [List.lookup_cons, beq_false_of_ne h, h]

theorem lookup_filter_ne (bs : List (String × α)) (x y : String) :
    (bs.filter (fun b => b.1 != x)).lookup y = if y = x then none else bs.lookup y := by
  induction bs with
  | nil => simp
  | cons b bs ih =>
    obtain ⟨z, a⟩ := b
    by_cases hz : z = x
    · subst hz
      simp only [bne_self_eq_false, Bool.false_eq_true, not_false_eq_true, List.filter_cons_of_neg,
        ih, lookup_pair_cons]
      split <;> rfl
    · rw [List.filter_cons_of_pos (by simpa using hz), lookup_pair_cons, lookup_pair_cons, ih]
      by_cases hy : y = z
      · simp [hy, hz]
      · simp [hy]

@[simp] theorem find?_empty (x : String) : (∅ : NameMap α).find? x = none := rfl

@[simp] theorem find?_erase (m : NameMap α) (x y : String) :
    (m.erase x).find? y = if y = x then none else m.find? y :=
  lookup_filter_ne m.toList x y

@[simp] theorem find?_insert (m : NameMap α) (x y : String) (a : α) :
    (m.insert x a).find? y = if y = x then some a else m.find? y := by
  have h : (m.insert x a).find? y = if y = x then some a else (m.erase x).find? y :=
    lookup_pair_cons (m.erase x).toList x y a
  rw [h, find?_erase]
  split <;> rfl

theorem mem_map_fst_iff_lookup (bs : List (String × α)) (x : String) :
    x ∈ bs.map Prod.fst ↔ (bs.lookup x).isSome := by
  induction bs with
  | nil => simp
  | cons b bs ih =>
    obtain ⟨z, a⟩ := b
    rw [List.map_cons, List.mem_cons, ih, lookup_pair_cons]
    by_cases h : x = z <;> simp [h]

@[simp] theorem mem_keys {m : NameMap α} {x : String} : x ∈ m.keys ↔ m.contains x = true :=
  mem_map_fst_iff_lookup m.toList x

end NameMap

end Mlf
