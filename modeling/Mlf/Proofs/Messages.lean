import Mlf.Proofs.Renaming
import Mlf.Proofs.UnifyRun

/-!
# Messages under other names

A printed type shows letters for its quantified variables, so the text does not depend on their
names. A message also shows letters for the variables that inference made up. So if the names that
inference makes up are changed into others of that form, and the names that are written in a program
stay, then messages about copies of types have the same wording.

Main results:

* `render_eq_of_shape_eq` — types that agree up to the names of quantified variables have one text;
* `display_copies` — what a message shows of types and of copies of them agrees likewise;
* `Diagnostic.Copies` — reports about types and about copies of them, with
  `copies_incompatible` and `copies_infinite`.
-/

namespace Mlf

variable {t u : Polytype} {x : String} {ts us : List Polytype}
variable {V : Type}

/-! ## Printed types -/

/-- Names that are read as one are shown as one. -/
def ShownAlike (F G : String → V) (shown shown' : ShownNames) : Prop :=
  ∀ x y, F x = G y → (shown.lookup x).getD x = (shown'.lookup y).getD y

theorem ShownAlike.cons {F G : String → V} {shown shown' : ShownNames}
    (h : ShownAlike F G shown shown') (x y letter : String) :
    ShownAlike (Reading.varUnder F x) (Reading.varUnder G y) ((x, letter) :: shown)
      ((y, letter) :: shown') := by
  intro z w hzw
  rw [NameMap.lookup_pair_cons, NameMap.lookup_pair_cons]
  -- both are quantified here, or neither is
  by_cases hz : z = x <;> by_cases hw : w = y
  · simp [hz, hw]
  · simp [Reading.varUnder, hz, hw] at hzw
  · simp [Reading.varUnder, hz, hw] at hzw
  · simpa [hz, hw] using h z w (by simpa [Reading.varUnder, hz, hw] using hzw)

theorem Monotype.render_congr {F G : String → V} {shown shown' : ShownNames}
    (hShown : ShownAlike F G shown shown') {m n : Monotype}
    (h : m.nameless (fun x => .var (F x)) = n.nameless (fun x => .var (G x))) (asParam : Bool) :
    m.render shown asParam = n.render shown' asParam := by
  replace h := sameReading_of_nameless_eq h
  induction h generalizing asParam with
  | var hxy => exact hShown _ _ hxy
  | const c => rfl
  -- the parameter is printed as one, the body is not
  | fn _ _ ihp ihb => simp only [render, ihp, ihb]

namespace Polytype

/-- Types with one reading are printed alike. -/
theorem renderFrom_congr {F G : String → V} {free free' : NameSet}
    (hFree : ∀ x, x ∈ free ↔ x ∈ free') {shown shown' : ShownNames}
    (hShown : ShownAlike F G shown shown')
    (h : t.nameless (fun x => .var (F x)) = u.nameless (fun x => .var (G x))) (inChain : Bool)
    (next : Nat) :
    t.renderFrom free shown inChain next = u.renderFrom free' shown' inChain next := by
  replace h := sameReading_of_nameless_eq h
  induction h generalizing shown shown' inChain next with
  | mono h => simp only [renderFrom, Monotype.render_congr hShown h]
  | bottom => rfl
  | @all V F G x y k b c t u hBound _ ihb iht =>
    -- the letter depends on the free names as a set
    obtain ⟨i, hLetter, hLetter'⟩ :=
      Supply.capitals.firstFree_congr_mem free.nodup free'.nodup (fun i => hFree _) next
    have hBottom : b = bottom ↔ c = bottom := by
      cases hBound <;> simp
    simp only [renderFrom, hLetter, hLetter', hBottom, ihb hShown]
    -- the name stands alone or with its bound in parentheses, in both texts
    split_ifs
    all_goals simp only [iht (hShown.cons x y _)]

/-- Types that agree up to the names of quantified variables are printed alike. -/
theorem render_eq_of_shape_eq (h : t.shape = u.shape) : t.render = u.render := by
  have hNames := map_freeVars (F := id) (G := id) Function.injective_id Function.injective_id h
  rw [List.map_id, List.map_id] at hNames
  have hFree (x : String) : x ∈ t.freeVars ↔ x ∈ u.freeVars := by
    rw [← NameSet.mem_toList, hNames, NameSet.mem_toList]
  unfold render
  rw [renderFrom_congr (F := id) (G := id) hFree (fun x y hxy => by rw [show x = y from hxy]) h]

end Polytype

/-! ## Shown names -/

/-- The names that inference makes up are changed into others of that form, and no others. -/
structure Faithful (f : String → String) : Prop where
  generated : ∀ x, Supply.isGenerated (f x) = Supply.isGenerated x
  written : ∀ x, Supply.isGenerated x = false → f x = x

theorem Supply.isGenerated_numbered (i : Nat) : isGenerated (numbered i) = true := by
  simp [isGenerated, numbered]

theorem Supply.ne_numbered_of_written (h : isGenerated x = false) (i : Nat) : numbered i ≠ x := by
  rintro rfl
  rw [isGenerated_numbered] at h
  cases h

theorem Supply.isGenerated_smalls (i : Nat) : isGenerated (smalls i) = false := by
  have hLetter : ∀ k < 26, Char.ofNat ('a'.toNat + k) ≠ generatedMark := by decide
  have hHead : (smalls i).toList.head? = some (Char.ofNat ('a'.toNat + i % 26)) := by
    unfold smalls lettered
    split_ifs <;> simp
  rw [isGenerated, hHead]
  simpa using hLetter (i % 26) (Nat.mod_lt i (by omega))

variable {f : String → String}

/-- A letter is taken by the changed names exactly if it was taken before. -/
theorem Faithful.mem_map_iff (h : Faithful f) (hx : Supply.isGenerated x = false)
    {names : List String} : x ∈ names.map f ↔ x ∈ names := by
  rw [List.mem_map]
  constructor
  · rintro ⟨y, hy, rfl⟩
    rw [h.generated] at hx
    rwa [h.written y hx]
  · intro hMem
    exact ⟨x, hMem, h.written x hx⟩

/-- Names and their copies are given the same letters, one after the other. -/
theorem showGenerated_copies (hf : Function.Injective f) (h : Faithful f)
    {taken taken' : List String} (hNodup : taken.Nodup) (hNodup' : taken'.Nodup)
    (hTaken : ∀ i, Supply.smalls i ∈ taken ↔ Supply.smalls i ∈ taken')
    {shown shown' : NameMap String} (hShown : ∀ x, shown'.find? (f x) = shown.find? x) (next : Nat)
    (names : List String) (x : String) :
    (showGenerated taken' shown' next (names.map f)).find? (f x) =
      (showGenerated taken shown next names).find? x := by
  induction names generalizing shown shown' next with
  | nil => exact hShown x
  | cons y names ih =>
    obtain ⟨i, hLetter, hLetter'⟩ :=
      Supply.smalls.firstFree_congr_mem hNodup hNodup' hTaken next
    simp only [List.map_cons, showGenerated, h.generated, NameMap.contains, hShown y, hLetter,
      hLetter']
    -- a name gets a letter if it is generated and has none, and its copy does so too
    split_ifs
    · refine ih (fun z => ?_) _
      by_cases hzy : z = y
      · simp [hzy]
      · rw [NameMap.find?_insert, NameMap.find?_insert, if_neg hzy, if_neg (hf.ne hzy), hShown z]
    · exact ih hShown next

/-- Every generated name in a list is shown by a letter. -/
theorem contains_showGenerated (taken : List String) (shown : NameMap String) (next : Nat)
    (names : List String)
    (hx : shown.contains x = true ∨ (Supply.isGenerated x = true ∧ x ∈ names)) :
    (showGenerated taken shown next names).contains x = true := by
  induction names generalizing shown next with
  | nil => exact hx.resolve_right (by simp)
  | cons y names ih =>
    unfold showGenerated
    split_ifs with hNew
    · refine ih _ _ ?_
      rcases hx with hx | ⟨hGenerated, hx⟩
      · by_cases hxy : x = y
        · -- the name that has just got its letter
          simp [NameMap.contains, hxy]
        · left
          rwa [NameMap.contains, NameMap.find?_insert, if_neg hxy]
      · rcases List.mem_cons.1 hx with rfl | hx
        · simp [NameMap.contains]
        · exact Or.inr ⟨hGenerated, hx⟩
    · refine ih _ _ ?_
      rcases hx with hx | ⟨hGenerated, hx⟩
      · exact Or.inl hx
      · rcases List.mem_cons.1 hx with rfl | hx
        · -- a name that gets no letter here has one
          left
          simpa [hGenerated] using hNew
        · exact Or.inr ⟨hGenerated, hx⟩

theorem mem_foldl_union (ts : List Polytype) (s : NameSet) (x : String) :
    x ∈ ts.foldl (fun names t => names.union t.freeVars) s ↔
      x ∈ s ∨ ∃ t ∈ ts, x ∈ t.freeVars := by
  induction ts generalizing s with
  | nil => simp
  | cons t ts ih =>
    rw [List.foldl_cons, ih, NameSet.mem_union]
    simp [or_assoc]

theorem occurrences_flatMap_copies (h : List.Forall₂ (Polytype.Copies f) ts us) :
    us.flatMap Polytype.occurrences = (ts.flatMap Polytype.occurrences).map f := by
  induction h with
  | nil => rfl
  | cons hHead _ ih =>
    rw [List.flatMap_cons, List.flatMap_cons, List.map_append, ih, hHead.occurrences]

/-- A name and its copy are shown by the same letter. -/
theorem displayNames_copies (hf : Function.Injective f) (h : Faithful f)
    (hTypes : List.Forall₂ (Polytype.Copies f) ts us) (x : String) :
    (displayNames us).find? (f x) = (displayNames ts).find? x := by
  unfold displayNames
  rw [occurrences_flatMap_copies hTypes]
  refine showGenerated_copies hf h (NameSet.nodup _) (NameSet.nodup _) (fun i => ?_)
    (fun x => rfl) 0 _ x
  -- letters are names that could be written, so they are not changed
  have hLetter := Supply.isGenerated_smalls i
  -- the taken names are those that occur
  have hOccurs (ts : List Polytype) (x : String) :
      x ∈ (ts.foldl (fun names t => names.union t.freeVars) (∅ : NameSet)).toList ↔
        x ∈ ts.flatMap Polytype.occurrences := by
    rw [NameSet.mem_toList, mem_foldl_union]
    simp [Polytype.mem_occurrences]
  rw [hOccurs, hOccurs, occurrences_flatMap_copies hTypes, h.mem_map_iff hLetter]

theorem image_map_var (names : NameMap String) (x : String) :
    Subst.image (names.map .var) x = .var ((names.find? x).getD x) := by
  have hLookup (bs : List (String × String)) :
      (bs.map fun b => (b.1, Monotype.var b.2)).lookup x = (bs.lookup x).map .var := by
    induction bs with
    | nil => rfl
    | cons b bs ih =>
      obtain ⟨y, z⟩ := b
      rw [List.map_cons, NameMap.lookup_pair_cons, NameMap.lookup_pair_cons, ih]
      split_ifs <;> rfl
  have hFind : (names.map Monotype.var).find? x = (names.find? x).map .var := hLookup names.toList
  rw [Subst.image, hFind]
  cases names.find? x <;> rfl

/-- A name that occurs in the types of a message, and its copy, are shown alike. -/
theorem shown_copies (hf : Function.Injective f) (h : Faithful f)
    (hTypes : List.Forall₂ (Polytype.Copies f) ts us) (hx : x ∈ ts.flatMap Polytype.occurrences) :
    ((displayNames us).find? (f x)).getD (f x) = ((displayNames ts).find? x).getD x := by
  rw [displayNames_copies hf h hTypes]
  cases hFind : (displayNames ts).find? x with
  | some letter => rfl
  | none =>
    -- only a written name is shown as it is
    refine h.written x (Bool.eq_false_iff.2 fun hGenerated => ?_)
    have hShown : (displayNames ts).contains x = true :=
      contains_showGenerated _ _ _ _ (Or.inr ⟨hGenerated, hx⟩)
    simp [NameMap.contains, hFind] at hShown

/-- What is shown of a type and of a copy agrees up to the names of quantified variables. -/
theorem display_copies (hf : Function.Injective f) (h : Faithful f)
    (hTypes : List.Forall₂ (Polytype.Copies f) ts us) (ht : t ∈ ts) (hCopies : t.Copies f u) :
    (u.display (displayNames us)).shape = (t.display (displayNames ts)).shape := by
  unfold Polytype.display
  rw [Polytype.shape, Polytype.nameless_subst, hCopies.nameless, Polytype.shape,
    Polytype.nameless_subst]
  refine Polytype.nameless_congr fun x hx => ?_
  have hOccurs : x ∈ ts.flatMap Polytype.occurrences :=
    List.mem_flatMap.2 ⟨t, ht, Polytype.mem_occurrences.2 hx⟩
  rw [Subst.nameless, Subst.nameless, image_map_var, image_map_var, shown_copies hf h hTypes hOccurs]

/-! ## Reports -/

/-- Reports of one kind; if the names that inference makes up are changed, and no others, they have
the same wording, faults of inference itself apart. -/
structure Diagnostic.Copies (f : String → String) (d d' : Diagnostic) : Prop where
  code : d'.code = d.code
  format : Faithful f → d.Plain → d'.format = d.format

theorem Diagnostic.Copies.refl (d : Diagnostic) : d.Copies f d := ⟨rfl, fun _ _ => rfl⟩

theorem Diagnostic.Copies.incompatible {a e a' e' : Polytype}
    (ha : Faithful f → a'.shape = a.shape) (he : Faithful f → e'.shape = e.shape) :
    Diagnostic.Copies f (.incompatible a e) (.incompatible a' e') := by
  refine ⟨rfl, fun h _ => ?_⟩
  unfold Diagnostic.format Diagnostic.message Diagnostic.code
  simp only [Polytype.render_eq_of_shape_eq (ha h), Polytype.render_eq_of_shape_eq (he h)]

theorem Diagnostic.Copies.infinite {x' : String} {t' : Polytype} (hx : Faithful f → x' = x)
    (ht : Faithful f → t'.shape = t.shape) :
    Diagnostic.Copies f (.infinite x t) (.infinite x' t') := by
  refine ⟨rfl, fun h _ => ?_⟩
  unfold Diagnostic.format Diagnostic.message Diagnostic.code
  simp only [hx h, Polytype.render_eq_of_shape_eq (ht h)]

theorem copies_incompatible (hf : Function.Injective f) {a e a' e' : Polytype}
    (ha : a.Copies f a') (he : e.Copies f e') :
    Diagnostic.Copies f
      (.incompatible (a.display (displayNames [a, e])) (e.display (displayNames [a, e])))
      (.incompatible (a'.display (displayNames [a', e'])) (e'.display (displayNames [a', e']))) := by
  have hTypes : List.Forall₂ (Polytype.Copies f) [a, e] [a', e'] := .cons ha (.cons he .nil)
  exact .incompatible (fun h => display_copies hf h hTypes (by simp) ha)
    fun h => display_copies hf h hTypes (by simp) he

theorem copies_infinite (hf : Function.Injective f) (h : t.Copies f u) :
    Diagnostic.Copies f
      (.infinite (((displayNames [.mono (.var x), t]).find? x).getD x)
        (t.display (displayNames [.mono (.var x), t])))
      (.infinite (((displayNames [.mono (.var (f x)), u]).find? (f x)).getD (f x))
        (u.display (displayNames [.mono (.var (f x)), u]))) := by
  -- the variable and the type are shown together, and so are their copies
  have hTypes : List.Forall₂ (Polytype.Copies f) [.mono (.var x), t] [.mono (.var (f x)), u] :=
    .cons (Polytype.copies_mono.2 rfl) (.cons h .nil)
  have hOccurs : x ∈ [.mono (.var x), t].flatMap Polytype.occurrences := by
    simp [Polytype.occurrences, Polytype.occurrencesOutside, Monotype.occurrencesOutside]
  exact .infinite (fun hFaithful => shown_copies hf hFaithful hTypes hOccurs)
    fun hFaithful => display_copies hf hFaithful hTypes (by simp) h

end Mlf
