import Mathlib
import Mlf.Proofs.Messages

/-!
# Printed types tell types apart

Types that agree up to the names of their quantified variables are printed alike. The other way round,
the text of a type fixes it up to these names, if its free names are words: not empty, without the
characters that stand between names, and none of the names of the constant types.

The proof takes the printer apart. First the quantified variables get the letters as their own names.
A letter is no free name of the type and is handed out once, so this changes nothing but names. Then
the type is written down as it is, and what is written can be read in one way only. The reading goes
from left to right. A word ends where a separator follows, a parameter ends likewise because functions
stand in parentheses there, and a whole type ends where the text ends or a parenthesis is closed. So
each kind of part is told apart in front of whatever may follow it.

Main results:

* `Monotype.tells` — what is written of a monotype can be read in one way;
* `Polytype.tells` — what is written of a type can be read in one way;
* `shape_labeled` — handing out letters keeps a type up to the names of quantified variables;
* `render_append_inj` — the text of a type can be read in one way, also in front of a parenthesis;
* `render_eq_iff_alphaEq` — two types have the same text exactly if they agree up to these names.
-/

namespace Mlf

variable {m : Monotype} {x : String}
/-! ## Words -/

/-- The characters that stand between names in a printed type. -/
def separators : List Char := [' ', '(', ')', ',', '.', '=', '≥', '∀', '→', '⊥']

/-- A name that can be read in a printed type. -/
structure IsWord (x : String) : Prop where
  nonempty : x ≠ ""
  not_base : ∀ c : BaseType, x ≠ c.text
  chars : ∀ c ∈ x.toList, c ∉ separators

/-- A text that ends or goes on with a separator. -/
def Breaks (r : List Char) : Prop := ∀ c ∈ r.head?, c ∈ separators

/-- A text that ends or goes on with a closing parenthesis. -/
def Closes (r : List Char) : Prop := ∀ c ∈ r.head?, c = ')'

theorem breaks_cons {c : Char} (hc : c ∈ separators) (r : List Char) : Breaks (c :: r) := by
  intro d hd
  obtain rfl : c = d := by simpa using hd
  exact hc

theorem closes_cons (r : List Char) : Closes (')' :: r) := by
  intro c hc
  simpa using hc.symm

theorem closes_nil : Closes [] := by
  intro c hc
  cases hc

theorem Closes.breaks {r : List Char} (h : Closes r) : Breaks r := by
  intro c hc
  rw [h c hc]
  decide

/-- A sequence of characters without separators ends where a separator follows. -/
theorem append_inj_of_breaks {w v r s : List Char} (hw : ∀ c ∈ w, c ∉ separators)
    (hv : ∀ c ∈ v, c ∉ separators) (hr : Breaks r) (hs : Breaks s) (h : w ++ r = v ++ s) :
    w = v ∧ r = s := by
  induction w generalizing v with
  | nil =>
    cases v with
    | nil => exact ⟨rfl, h⟩
    | cons c v => exact absurd (hr c (by simp [show r = c :: (v ++ s) from h])) (hv c (by simp))
  | cons c w ih =>
    cases v with
    | nil =>
      exact absurd (hs c (by simp [show s = c :: (w ++ r) from h.symm])) (hw c (by simp))
    | cons d v =>
      -- neither text ends here, so they go on with the same character
      obtain ⟨rfl, hRest⟩ := List.cons.inj h
      obtain ⟨rfl, rfl⟩ := ih (fun a ha => hw a (by simp [ha])) (fun a ha => hv a (by simp [ha])) hRest
      exact ⟨rfl, rfl⟩

theorem IsWord.append_inj {y : String} (hx : IsWord x) (hy : IsWord y) {r s : List Char}
    (hr : Breaks r) (hs : Breaks s) (h : x.toList ++ r = y.toList ++ s) : x = y ∧ r = s := by
  obtain ⟨hList, hRest⟩ := append_inj_of_breaks hx.chars hy.chars hr hs h
  exact ⟨String.toList_inj.1 hList, hRest⟩

/-- A word starts with a character that is no separator. -/
theorem IsWord.toList_eq_cons (hx : IsWord x) : ∃ c cs, x.toList = c :: cs ∧ c ∉ separators := by
  cases hList : x.toList with
  | nil => exact absurd (String.toList_eq_nil_iff.1 hList) hx.nonempty
  | cons c cs => exact ⟨c, cs, rfl, hx.chars c (by simp [hList])⟩

theorem BaseType.text_chars (c : BaseType) : ∀ d ∈ c.text.toList, d ∉ separators := by
  cases c <;> simp [text, separators]

theorem BaseType.text_eq_cons (c : BaseType) :
    ∃ d ds, c.text.toList = d :: ds ∧ d ∉ separators := by
  cases c
  · exact ⟨_, _, rfl, by decide⟩
  · exact ⟨_, _, rfl, by decide⟩
  · exact ⟨_, _, rfl, by decide⟩

theorem BaseType.text_injective : Function.Injective BaseType.text := by
  intro c d h
  cases c <;> cases d <;> first | rfl | exact absurd h (by decide)

/-- The letters for quantified variables are words: a letter and digits make no constant type. -/
theorem isWord_capitals (i : Nat) : IsWord (Supply.capitals i) := by
  have hList : (Supply.capitals i).toList = Char.ofNat ('A'.toNat + i % 26) ::
      (if i < 26 then [] else Nat.toDigits 10 (i / 26)) := Supply.toList_lettered 'A' i
  have hDigits : ∀ c ∈ (if i < 26 then [] else Nat.toDigits 10 (i / 26)), c.isDigit = true := by
    intro c hc
    split_ifs at hc with hi
    · simp at hc
    · exact Nat.isDigit_of_mem_toDigits (by omega) (by omega) hc
  have hDigit : ∀ c ∈ separators, c.isDigit = false := by simp [separators]
  have hLetter : ∀ k < 26, Char.ofNat ('A'.toNat + k) ∉ separators := by decide
  refine ⟨fun h => ?_, fun c h => ?_, fun c hc hSeparator => ?_⟩
  · simp [h] at hList
  · -- the second character of a constant type is no digit
    obtain ⟨a, d, ds, hText, hNoDigit⟩ :
        ∃ a d ds, c.text.toList = a :: d :: ds ∧ d.isDigit = false := by
      cases c
      · exact ⟨_, _, _, rfl, by decide⟩
      · exact ⟨_, _, _, rfl, by decide⟩
      · exact ⟨_, _, _, rfl, by decide⟩
    rw [h, hText, List.cons.injEq] at hList
    have := hDigits d (by rw [← hList.2]; simp)
    rw [hNoDigit] at this
    cases this
  · rw [hList] at hc
    -- the letter, and then the digits
    rcases List.mem_cons.1 hc with rfl | hc
    · exact hLetter _ (Nat.mod_lt i (by omega)) hSeparator
    · have := hDigits c hc
      rw [hDigit c hSeparator] at this
      cases this

/-! ## Monotypes as they are written -/

namespace Monotype

/-- All names of a monotype are words. -/
def Worded (m : Monotype) : Prop := ∀ x ∈ m.freeVars, IsWord x

theorem worded_fn {p b : Monotype} : (fn p b).Worded ↔ p.Worded ∧ b.Worded := by
  simp only [Worded, freeVars, NameSet.mem_union]
  exact ⟨fun h => ⟨fun x hx => h x (Or.inl hx), fun x hx => h x (Or.inr hx)⟩,
    fun h x hx => hx.elim (h.1 x) (h.2 x)⟩

/-- What is written of a monotype whose names are shown as they are. -/
def written (asParam : Bool) (m : Monotype) : List Char := (m.render [] asParam).toList

theorem written_fn_append (p b : Monotype) (r : List Char) :
    (fn p b).written false ++ r = p.written true ++ ' ' :: '→' :: ' ' :: (b.written false ++ r) := by
  simp [written, render]

theorem written_fn_param_append (p b : Monotype) (r : List Char) :
    (fn p b).written true ++ r = '(' :: ((fn p b).written false ++ ')' :: r) := by
  simp [written, render]

/-- A monotype that is no function. -/
def IsAtom (m : Monotype) : Prop := ∀ p b, m ≠ fn p b

theorem exists_eq_fn (h : ¬ m.IsAtom) : ∃ p b, m = fn p b := by
  simpa [IsAtom] using h

section Atoms

variable {m n : Monotype}

theorem IsAtom.written_eq (h : m.IsAtom) : m.written false = m.written true := by
  cases m with
  | var x => rfl
  | const c => rfl
  | fn p b => exact absurd rfl (h p b)

/-- A variable or a constant is written without separators. -/
theorem IsAtom.chars (h : m.IsAtom) (hm : m.Worded) : ∀ c ∈ m.written true, c ∉ separators := by
  cases m with
  | var x => exact (hm x (by simp [freeVars])).chars
  | const c => exact c.text_chars
  | fn p b => exact absurd rfl (h p b)

theorem IsAtom.exists_cons (h : m.IsAtom) (hm : m.Worded) :
    ∃ c cs, m.written true = c :: cs ∧ c ∉ separators := by
  cases m with
  | var x => exact (hm x (by simp [freeVars])).toList_eq_cons
  | const c => exact c.text_eq_cons
  | fn p b => exact absurd rfl (h p b)

/-- A variable is not taken for a constant, because no word is the name of a constant type. -/
theorem IsAtom.eq_of_written_eq (h : m.IsAtom) (hm : m.Worded) (h' : n.IsAtom) (hn : n.Worded)
    (hEq : m.written true = n.written true) : m = n := by
  have hText : m.render [] true = n.render [] true := String.toList_inj.1 hEq
  cases m with
  | var x =>
    cases n with
    | var y => exact congrArg var hText
    | const d => exact absurd hText ((hm x (by simp [freeVars])).not_base d)
    | fn q c => exact absurd rfl (h' q c)
  | const c =>
    cases n with
    | var y => exact absurd hText.symm ((hn y (by simp [freeVars])).not_base c)
    | const d => exact congrArg const (BaseType.text_injective hText)
    | fn q c => exact absurd rfl (h' q c)
  | fn p b => exact absurd rfl (h p b)

end Atoms

/-- A monotype starts with a parenthesis or with a word. -/
theorem written_eq_cons {m : Monotype} (hm : m.Worded) :
    ∃ c cs, m.written true = c :: cs ∧ (c = '(' ∨ m.IsAtom ∧ c ∉ separators) := by
  by_cases hAtom : m.IsAtom
  · obtain ⟨c, cs, hList, hc⟩ := hAtom.exists_cons hm
    exact ⟨c, cs, hList, Or.inr ⟨hAtom, hc⟩⟩
  · obtain ⟨p, b, rfl⟩ := exists_eq_fn hAtom
    have hList := written_fn_param_append p b []
    rw [List.append_nil] at hList
    exact ⟨_, _, hList, Or.inl rfl⟩

/-- A whole monotype starts with none of the marks of bottom and of quantifiers. -/
theorem written_append_ne {m : Monotype} (hm : m.Worded) {c : Char} (hc : c ∈ separators)
    (hParen : c ≠ '(') (r s : List Char) : m.written false ++ r ≠ c :: s := by
  intro h
  -- a parameter starts with a parenthesis or with a word
  have hStart {n : Monotype} (hn : n.Worded) {r : List Char} (h : n.written true ++ r = c :: s) :
      False := by
    obtain ⟨d, ds, hList, hd⟩ := written_eq_cons hn
    rw [hList] at h
    obtain rfl : d = c := (List.cons.inj h).1
    exact hd.elim hParen fun hd => hd.2 hc
  by_cases hAtom : m.IsAtom
  · rw [hAtom.written_eq] at h
    exact hStart hm h
  · obtain ⟨p, b, rfl⟩ := exists_eq_fn hAtom
    rw [written_fn_append] at h
    exact hStart (worded_fn.1 hm).1 h

/-- In front of a text that `Ends`, what is written of a monotype is read as that monotype. -/
def Tells (Ends : List Char → Prop) (asParam : Bool) (m : Monotype) : Prop :=
  ∀ n : Monotype, n.Worded → ∀ r s, Ends r → Ends s →
    m.written asParam ++ r = n.written asParam ++ s → m = n ∧ r = s

theorem breaks_arrow (r : List Char) : Breaks (' ' :: r) := breaks_cons (by decide) r

/-- The arrow after a parameter closes nothing. -/
theorem not_closes_arrow (r : List Char) : ¬ Closes (' ' :: r) := by
  intro h
  exact absurd (h ' ' (by simp)) (by decide)

/-- Variables and constants, in the place of a parameter. -/
theorem IsAtom.tells (h : m.IsAtom) (hm : m.Worded) : m.Tells Breaks true := by
  intro n hn r s hr hs hEq
  by_cases hAtom : n.IsAtom
  · obtain ⟨hSame, hRest⟩ := append_inj_of_breaks (h.chars hm) (hAtom.chars hn) hr hs hEq
    exact ⟨h.eq_of_written_eq hm hAtom hn hSame, hRest⟩
  · -- a function opens a parenthesis
    obtain ⟨c, cs, hList, hc⟩ := h.exists_cons hm
    obtain ⟨d, ds, hList', hd⟩ := written_eq_cons hn
    rw [hList, hList'] at hEq
    obtain rfl : d = '(' := hd.resolve_right fun hd => hAtom hd.1
    obtain rfl : c = '(' := (List.cons.inj hEq).1
    exact absurd (by decide) hc

/-- A variable or a constant is written alike in both places, and is told apart from a function by
the arrow. -/
theorem Tells.whole (h : m.Tells Breaks true) (hAtom : m.IsAtom) : m.Tells Closes false := by
  intro n hn r s hr hs hEq
  rw [hAtom.written_eq] at hEq
  by_cases hAtom' : n.IsAtom
  · rw [hAtom'.written_eq] at hEq
    exact h n hn r s hr.breaks hs.breaks hEq
  · -- a function goes on with an arrow, where the atom has ended
    obtain ⟨q, c, rfl⟩ := exists_eq_fn hAtom'
    rw [written_fn_append] at hEq
    obtain ⟨-, rfl⟩ := h q (worded_fn.1 hn).1 r _ hr.breaks (breaks_arrow _) hEq
    exact absurd hr (not_closes_arrow _)

/-- A function is read as its parameter and then its body. -/
theorem tells_fn {p b : Monotype} (hp : p.Tells Breaks true) (hb : b.Tells Closes false) :
    (fn p b).Tells Closes false := by
  intro n hn r s hr hs h
  rw [written_fn_append] at h
  by_cases hAtom : n.IsAtom
  · -- a variable or a constant would be the parameter, with the arrow after it
    rw [hAtom.written_eq] at h
    obtain ⟨-, rfl⟩ := hp n hn _ s (breaks_arrow _) hs.breaks h
    exact absurd hs (not_closes_arrow _)
  · obtain ⟨q, c, rfl⟩ := exists_eq_fn hAtom
    rw [worded_fn] at hn
    rw [written_fn_append] at h
    obtain ⟨rfl, hRest⟩ := hp q hn.1 _ _ (breaks_arrow _) (breaks_arrow _) h
    simp only [List.cons.injEq, true_and] at hRest
    obtain ⟨rfl, rfl⟩ := hb c hn.2 r s hr hs hRest
    exact ⟨rfl, rfl⟩

/-- In the place of a parameter, the parenthesis of a function tells where it ends. -/
theorem Tells.param {p b : Monotype} (h : (fn p b).Tells Closes false) :
    (fn p b).Tells Breaks true := by
  intro n hn r s hr hs hEq
  rw [written_fn_param_append] at hEq
  by_cases hAtom : n.IsAtom
  · obtain ⟨c, cs, hList, hc⟩ := hAtom.exists_cons hn
    rw [hList] at hEq
    -- an atom does not begin with a parenthesis
    obtain rfl : '(' = c := (List.cons.inj hEq).1
    exact absurd (by decide) hc
  · obtain ⟨q, c, rfl⟩ := exists_eq_fn hAtom
    rw [written_fn_param_append] at hEq
    obtain ⟨hSame, hRest⟩ := h _ hn _ _ (closes_cons r) (closes_cons s) (List.cons.inj hEq).2
    exact ⟨hSame, (List.cons.inj hRest).2⟩

/-- What is written of a monotype is read as that monotype: as a parameter in front of a separator,
and as a whole in front of a closing parenthesis or at the end. -/
theorem tells (hm : m.Worded) : m.Tells Breaks true ∧ m.Tells Closes false := by
  induction m with
  | var x =>
    have hAtom : (var x).IsAtom := by simp [IsAtom]
    exact ⟨hAtom.tells hm, (hAtom.tells hm).whole hAtom⟩
  | const c =>
    have hAtom : (const c).IsAtom := by simp [IsAtom]
    exact ⟨hAtom.tells hm, (hAtom.tells hm).whole hAtom⟩
  | fn p b ihp ihb =>
    obtain ⟨hp, hb⟩ := worded_fn.1 hm
    have h := tells_fn (ihp hp).1 (ihb hb).2
    exact ⟨h.param, h⟩

end Monotype

/-! ## Types as they are written -/

/-- The sign of a kind of bound. -/
def BoundKind.sign : BoundKind → Char
  | flexible => '≥'
  | rigid => '='

theorem BoundKind.mark_append (k : BoundKind) (r : List Char) :
    k.mark.toList ++ r = ' ' :: k.sign :: ' ' :: r := by
  cases k <;> rfl

theorem BoundKind.sign_injective : Function.Injective BoundKind.sign := by
  intro k l h
  cases k <;> cases l <;> first | rfl | exact absurd h (by decide)

namespace Polytype

/-- All names of a type are words, those of quantified variables included. -/
def Worded : Polytype → Prop
  | mono m => m.Worded
  | bottom => True
  | all x _ b t => IsWord x ∧ b.Worded ∧ t.Worded

/-- What is written of a type whose quantified variables are shown by their own names, in front of the
text `r`. -/
def written : Polytype → (inChain : Bool) → (r : List Char) → List Char
  | mono m, inChain, r => (if inChain then ['.', ' '] else []) ++ (m.written false ++ r)
  | bottom, inChain, r => (if inChain then ['.', ' '] else []) ++ '⊥' :: r
  | all x k b t, inChain, r => (if inChain then [',', ' '] else ['∀']) ++
      if k = .flexible ∧ b = bottom then x.toList ++ t.written true r
      else '(' :: (x.toList ++ (k.mark.toList ++ b.written false (')' :: t.written true r)))

/-- After a quantified variable comes a comma or a period. -/
theorem breaks_written (t : Polytype) (r : List Char) : Breaks (t.written true r) := by
  cases t with
  | mono m => exact breaks_cons (by decide) _
  | bottom => exact breaks_cons (by decide) _
  | all x k b t => exact breaks_cons (by decide) _

/-- What is written of a type is read as that type. -/
def Tells (t : Polytype) : Prop :=
  ∀ u : Polytype, u.Worded → ∀ inChain r s, Closes r → Closes s →
    t.written inChain r = u.written inChain s → t = u ∧ r = s

theorem tells_mono (hm : m.Worded) : (mono m).Tells := by
  intro u hu inChain r s hr hs h
  cases u with
  | mono n =>
    obtain ⟨rfl, rfl⟩ := (Monotype.tells hm).2 n hu r s hr hs (List.append_cancel_left h)
    exact ⟨rfl, rfl⟩
  | bottom =>
    exact absurd (List.append_cancel_left h) (Monotype.written_append_ne hm (by decide) (by decide) r s)
  | all y l c u =>
    cases inChain with
    | true => exact absurd (List.cons.inj h).1 (by decide)
    | false => exact absurd h (Monotype.written_append_ne hm (by decide) (by decide) r _)

theorem tells_bottom : bottom.Tells := by
  intro u hu inChain r s hr hs h
  cases u with
  | mono n =>
    exact absurd (List.append_cancel_left h).symm
      (Monotype.written_append_ne hu (by decide) (by decide) s r)
  | bottom => exact ⟨rfl, (List.cons.inj (List.append_cancel_left h)).2⟩
  | all y l c u => cases inChain <;> exact absurd (List.cons.inj h).1 (by decide)

/-- A quantifier is read as its variable with its bound, and then its body. -/
theorem tells_all {k : BoundKind} {b t : Polytype} (hx : IsWord x) (hb : b.Tells) (ht : t.Tells) :
    (all x k b t).Tells := by
  intro u hu inChain r s hr hs h
  cases u with
  | mono n =>
    cases inChain with
    | true => exact absurd (List.cons.inj h).1 (by decide)
    | false => exact absurd h.symm (Monotype.written_append_ne hu (by decide) (by decide) s _)
  | bottom => cases inChain <;> exact absurd (List.cons.inj h).1 (by decide)
  | all y l c u =>
    obtain ⟨hy, hc, hu⟩ := hu
    -- only a variable with a bound opens a parenthesis
    have hParen {z : String} (hz : IsWord z) {r s : List Char} : z.toList ++ r ≠ '(' :: s := by
      obtain ⟨d, ds, hList, hd⟩ := hz.toList_eq_cons
      intro h
      rw [hList] at h
      obtain rfl : d = '(' := (List.cons.inj h).1
      exact hd (by decide)
    replace h := List.append_cancel_left h
    split_ifs at h with hPlain hPlain' hPlain'
    · obtain ⟨rfl, hRest⟩ := hx.append_inj hy (breaks_written t r) (breaks_written u s) h
      obtain ⟨rfl, rfl⟩ := ht u hu true r s hr hs hRest
      obtain ⟨rfl, rfl⟩ := hPlain
      obtain ⟨rfl, rfl⟩ := hPlain'
      exact ⟨rfl, rfl⟩
    · exact absurd h (hParen hx)
    · exact absurd h.symm (hParen hy)
    · rw [BoundKind.mark_append, BoundKind.mark_append] at h
      obtain ⟨rfl, hBound⟩ := hx.append_inj hy (breaks_cons (by decide) _) (breaks_cons (by decide) _)
        (List.cons.inj h).2
      simp only [List.cons.injEq, true_and] at hBound
      obtain ⟨hKind, hBound⟩ := hBound
      obtain rfl := BoundKind.sign_injective hKind
      -- the bound stands in front of a closing parenthesis
      obtain ⟨rfl, hRest⟩ := hb c hc false _ _ (closes_cons _) (closes_cons _) hBound
      obtain ⟨rfl, rfl⟩ := ht u hu true r s hr hs (List.cons.inj hRest).2
      exact ⟨rfl, rfl⟩

theorem tells {t : Polytype} (ht : t.Worded) : t.Tells := by
  induction t with
  | mono m => exact tells_mono ht
  | bottom => exact tells_bottom
  | all x k b t ihb iht => exact tells_all ht.1 (ihb ht.2.1) (iht ht.2.2)

end Polytype

/-! ## Handing out letters -/

/-- How a name is shown. -/
def ShownNames.name (shown : ShownNames) (x : String) : String := (shown.lookup x).getD x

theorem ShownNames.name_cons (shown : ShownNames) (x letter y : String) :
    ShownNames.name ((x, letter) :: shown) y = if y = x then letter else shown.name y := by
  rw [name, NameMap.lookup_pair_cons]
  split_ifs <;> rfl

/-- A monotype with the names that are shown. -/
def Monotype.labeled (shown : ShownNames) : Monotype → Monotype
  | var x => var (shown.name x)
  | const c => const c
  | fn p b => fn (p.labeled shown) (b.labeled shown)

theorem Monotype.render_labeled (shown : ShownNames) (asParam : Bool) (m : Monotype) :
    (m.labeled shown).render [] asParam = m.render shown asParam := by
  induction m generalizing asParam with
  | var x => rfl
  | const c => rfl
  | fn p b ihp ihb => simp only [labeled, render, ihp, ihb]

variable {V : Type}

theorem Monotype.nameless_labeled (shown : ShownNames) (m : Monotype) (r : Reading V) :
    (m.labeled shown).nameless r = m.nameless fun x => r (shown.name x) := by
  induction m with
  | var x => rfl
  | const c => rfl
  | fn p b ihp ihb => rw [labeled, nameless, ihp, ihb, nameless]

namespace Polytype

/-- A type with letters for the names of its quantified variables, where the names `free` are free and
the letters before position `next` are used up. Returns the next unused position, too. -/
def labeled (free : NameSet) (shown : ShownNames) (next : Nat) : Polytype → Polytype × Nat
  | mono m => (mono (m.labeled shown), next)
  | bottom => (bottom, next)
  | all x k b t =>
    let (letter, next) := Supply.capitals.firstFree free.toList next
    let (b, next) := b.labeled free shown next
    let (t, next) := t.labeled free ((x, letter) :: shown) next
    (all letter k b t, next)

section Labels

variable {free : NameSet} {shown : ShownNames} {next : Nat} {t : Polytype}

/-- A quantifier gets a letter that is not used up and not a free name. -/
theorem labeled_all (free : NameSet) (shown : ShownNames) (next : Nat) (x : String) (k : BoundKind)
    (b t : Polytype) : ∃ i, next ≤ i ∧ Supply.capitals i ∉ free ∧
      Supply.capitals.firstFree free.toList next = (Supply.capitals i, i + 1) ∧
      (all x k b t).labeled free shown next =
        (all (Supply.capitals i) k (b.labeled free shown (i + 1)).1
          (t.labeled free ((x, Supply.capitals i) :: shown) (b.labeled free shown (i + 1)).2).1,
        (t.labeled free ((x, Supply.capitals i) :: shown) (b.labeled free shown (i + 1)).2).2) := by
  -- the letters are tried one after the other from the first that is not used up
  obtain ⟨i, hi, hEq, hFree⟩ := Supply.firstFree_eq Supply.capitals_injective free.toList next
  refine ⟨i, hi, hFree, hEq, ?_⟩
  simp only [labeled, hEq]

theorem le_labeled (free : NameSet) (shown : ShownNames) (next : Nat) (t : Polytype) :
    next ≤ (t.labeled free shown next).2 := by
  induction t generalizing shown next with
  | mono m => exact Nat.le_refl next
  | bottom => exact Nat.le_refl next
  | all x k b t ihb iht =>
    obtain ⟨i, hi, -, -, hEq⟩ := labeled_all free shown next x k b t
    have hBound := ihb shown (i + 1)
    have hBody := iht ((x, Supply.capitals i) :: shown) (b.labeled free shown (i + 1)).2
    rw [hEq]
    omega

theorem labeled_eq_bottom : (t.labeled free shown next).1 = bottom ↔ t = bottom := by
  cases t <;> simp [labeled]

/-- To print a type is to hand out letters and to write down the outcome. -/
theorem renderFrom_eq (free : NameSet) (shown : ShownNames) (inChain : Bool) (next : Nat)
    (t : Polytype) :
    (∀ r, (t.renderFrom free shown inChain next).1.toList ++ r =
      (t.labeled free shown next).1.written inChain r) ∧
    (t.renderFrom free shown inChain next).2 = (t.labeled free shown next).2 := by
  induction t generalizing shown inChain next with
  | mono m =>
    refine ⟨fun r => ?_, rfl⟩
    cases inChain <;>
      simp [renderFrom, labeled, written, Monotype.written, Monotype.render_labeled]
  | bottom => cases inChain <;> exact ⟨fun r => by simp [renderFrom, labeled, written], rfl⟩
  | all x k b t ihb iht =>
    obtain ⟨i, -, -, hLetter, hEq⟩ := labeled_all free shown next x k b t
    rw [hEq]
    -- a variable without a bound is shown without parentheses
    by_cases hPlain : k = .flexible ∧ b = bottom
    · obtain ⟨rfl, rfl⟩ := hPlain
      obtain ⟨hBody, hNext⟩ := iht ((x, Supply.capitals i) :: shown) true (i + 1)
      refine ⟨fun r => ?_, ?_⟩
      · cases inChain <;> simp [renderFrom, hLetter, written, labeled, ← hBody]
      · simpa [renderFrom, hLetter, labeled] using hNext
    · obtain ⟨hBound, hNext⟩ := ihb shown false (i + 1)
      obtain ⟨hBody, hNext'⟩ := iht ((x, Supply.capitals i) :: shown) true
        (b.labeled free shown (i + 1)).2
      -- a bound that says something does so with letters, too
      have hBounded : ¬ (k = .flexible ∧ (b.labeled free shown (i + 1)).1 = bottom) := by
        rwa [labeled_eq_bottom]
      refine ⟨fun r => ?_, ?_⟩
      · cases inChain <;>
          simp [renderFrom, hLetter, written, hPlain, hBounded, hNext, ← hBody, ← hBound]
      · simpa [renderFrom, hLetter, hPlain, hNext] using hNext'

/-- The free names of a type are shown by free names and by letters that are used up. -/
def Shows (free : NameSet) (shown : ShownNames) (next : Nat) (t : Polytype) : Prop :=
  ∀ y ∈ t.freeVars, shown.name y ∈ free ∨ ∃ i < next, shown.name y = Supply.capitals i

theorem Shows.bound {k : BoundKind} {b : Polytype} (h : Shows free shown next (all x k b t))
    {i : Nat} (hi : next ≤ i) : Shows free shown (i + 1) b := by
  intro y hy
  refine (h y (by simp [freeVars, hy])).imp_right ?_
  rintro ⟨j, hj, hName⟩
  exact ⟨j, by omega, hName⟩

theorem Shows.body {k : BoundKind} {b : Polytype} (h : Shows free shown next (all x k b t))
    {i next' : Nat} (hi : next ≤ i) (hNext : i + 1 ≤ next') :
    Shows free ((x, Supply.capitals i) :: shown) next' t := by
  intro y hy
  rw [ShownNames.name_cons]
  split_ifs with hyx
  · exact Or.inr ⟨i, by omega, rfl⟩
  · refine (h y (by simp [freeVars, hy, hyx])).imp_right ?_
    rintro ⟨j, hj, hName⟩
    exact ⟨j, by omega, hName⟩

/-- A new letter shows no other name: it is no free name, and it comes after the letters that are
used up. -/
theorem Shows.name_ne (h : Shows free shown next t) {i : Nat} (hi : next ≤ i)
    (hFree : Supply.capitals i ∉ free) {y : String} (hy : y ∈ t.freeVars) :
    shown.name y ≠ Supply.capitals i := by
  intro hName
  rcases h y hy with hShown | ⟨j, hj, hLetter⟩
  · exact hFree (hName ▸ hShown)
  · have := Supply.capitals_injective (hLetter.symm.trans hName)
    omega

/-- Handing out letters keeps the reading of a type, when names are read as what they are shown by.
-/
theorem nameless_labeled (h : Shows free shown next t) (r : Reading V) :
    (t.labeled free shown next).1.nameless r = t.nameless fun x => r (shown.name x) := by
  induction t generalizing V shown next with
  | mono m => simp only [labeled, nameless, Monotype.nameless_labeled]
  | bottom => rfl
  | all x k b t ihb iht =>
    obtain ⟨i, hi, hFree, -, hEq⟩ := labeled_all free shown next x k b t
    have hBody := h.body hi (le_labeled free shown (i + 1) b)
    rw [hEq, nameless, nameless, ihb (h.bound hi), iht hBody]
    congr 1
    -- under the quantifier, only its own variable is shown by the new letter
    refine nameless_congr fun y hy => ?_
    rw [ShownNames.name_cons]
    by_cases hyx : y = x
    · simp [hyx]
    · have hne := h.name_ne hi hFree (y := y) (by simp [freeVars, hy, hyx])
      rw [if_neg hyx, r.under_of_ne hne, Reading.under_of_ne _ hyx]

/-- A type with letters for its quantified variables has words for names, if its free names are
words. -/
theorem worded_labeled (h : Shows free shown next t) (hFree : ∀ x ∈ free, IsWord x) :
    (t.labeled free shown next).1.Worded := by
  -- a shown name is a free name or a letter
  have hName {shown : ShownNames} {next : Nat} {t : Polytype} (h : Shows free shown next t) {y : String}
      (hy : y ∈ t.freeVars) : IsWord (shown.name y) := by
    rcases h y hy with hShown | ⟨i, -, hLetter⟩
    · exact hFree _ hShown
    · exact hLetter ▸ isWord_capitals i
  induction t generalizing shown next with
  | mono m =>
    intro y hy
    obtain ⟨x, hx, rfl⟩ : ∃ x ∈ m.freeVars, shown.name x = y := by
      have hUses : ((m.labeled shown).nameless .var).Uses y :=
        Monotype.uses_nameless.2 ⟨y, hy, rfl⟩
      rw [Monotype.nameless_labeled, Monotype.uses_nameless] at hUses
      obtain ⟨x, hx, hxy⟩ := hUses
      exact ⟨x, hx, hxy.symm⟩
    exact hName h hx
  | bottom => trivial
  | all x k b t ihb iht =>
    obtain ⟨i, hi, -, -, hEq⟩ := labeled_all free shown next x k b t
    rw [hEq]
    exact ⟨isWord_capitals i, ihb (h.bound hi), iht (h.body hi (le_labeled free shown (i + 1) b))⟩

theorem shows_freeVars (t : Polytype) : Shows t.freeVars [] 0 t := fun _ hy => Or.inl hy

/-- Handing out letters changes nothing but the names of quantified variables. -/
theorem shape_labeled (t : Polytype) : (t.labeled t.freeVars [] 0).1.shape = t.shape :=
  nameless_labeled t.shows_freeVars .var

end Labels

/-! ## Printed types -/

/-- The text of a type can be read in one way, also in front of a closing parenthesis. -/
theorem render_append_inj {a b : Polytype} (ha : ∀ x ∈ a.freeVars, IsWord x)
    (hb : ∀ x ∈ b.freeVars, IsWord x) {r s : List Char} (hr : Closes r) (hs : Closes s)
    (h : a.render.toList ++ r = b.render.toList ++ s) : a.shape = b.shape ∧ r = s := by
  have hWritten (t : Polytype) (r : List Char) :
      t.render.toList ++ r = (t.labeled t.freeVars [] 0).1.written false r :=
    (renderFrom_eq t.freeVars [] false 0 t).1 r
  rw [hWritten, hWritten] at h
  obtain ⟨hLabeled, hRest⟩ := tells (worded_labeled a.shows_freeVars ha) _
    (worded_labeled b.shows_freeVars hb) false r s hr hs h
  refine ⟨?_, hRest⟩
  calc a.shape = (a.labeled a.freeVars [] 0).1.shape := (shape_labeled a).symm
    _ = (b.labeled b.freeVars [] 0).1.shape := by rw [hLabeled]
    _ = b.shape := shape_labeled b

/-- Printed types identify types up to the names of quantified variables, if the free names are
words. Quantified variables may have any names. -/
theorem render_eq_iff_alphaEq {a b : Polytype} (ha : ∀ x ∈ a.freeVars, IsWord x)
    (hb : ∀ x ∈ b.freeVars, IsWord x) : a.render = b.render ↔ a.alphaEq [] b = true := by
  rw [alphaEq_iff]
  constructor
  · intro h
    exact (render_append_inj ha hb closes_nil closes_nil (by rw [h])).1
  · exact render_eq_of_shape_eq

/-- The free name `A` is passed over by the letters, and names of quantified variables may be
hidden, empty or look like parts of a printed type. Two types with the text `∀B, (C = ∀D. D → B). C
→ A` agree up to these names. -/
theorem render_eq_iff_alphaEq_hidden : ∃ a b : Polytype,
    a = .all "x" .flexible .bottom (.all "x" .rigid
      (.all "" .flexible .bottom (.mono (.fn (.var "") (.var "x"))))
      (.mono (.fn (.var "x") (.var "A")))) ∧
    b = .all "B → A" .flexible .bottom (.all "y" .rigid
      (.all "x" .flexible .bottom (.mono (.fn (.var "x") (.var "B → A"))))
      (.mono (.fn (.var "y") (.var "A")))) ∧
    a.render = "∀B, (C = ∀D. D → B). C → A" ∧ b.render = "∀B, (C = ∀D. D → B). C → A" ∧
    a.alphaEq [] b = true := by
  have hWord : IsWord "A" := by
    refine ⟨by decide, fun c => ?_, by simp [separators]⟩
    cases c <;> decide
  refine ⟨_, _, rfl, rfl, by cbv, by cbv, ?_⟩
  refine (render_eq_iff_alphaEq (fun x hx => ?_) fun x hx => ?_).1 (by cbv)
  all_goals
    simp only [freeVars, Monotype.freeVars, NameSet.mem_union, NameSet.mem_erase,
      NameSet.mem_singleton] at hx
    -- the only free name
    obtain rfl : x = "A" := by tauto
    exact hWord

end Polytype

end Mlf
