import Mathlib
import Mlf.Expr.Printer
import Mlf.Proofs.PrintedTypes

/-!
# Printed expressions tell expressions apart

The text of an expression fixes it up to the names of quantified variables in its declared types. Names
have to be words that are none of the words with a meaning of their own, and the numbers in question have
to be told apart by their own texts.

An expression is taken apart into its head and the arguments that the head is called with, one after the
other. The first word or sign of the text tells the form of the head. A function and a local definition
extend as far to the right as they can, so they end where the text ends, where a parenthesis is closed,
or where a blank comes that belongs to what is around. In front of an argument they stand in parentheses
themselves. This leaves three kinds of text that are put in parentheses: arguments, called functions and
definitions, and annotations. The first kind comes after a head and the others in its place, and of the
others an annotation is the one in which a colon follows.

Main results:

* `Text.quote_append_inj` — quoted text can be read in one way, whatever follows;
* `Expr.ofText_text` — the first word or sign of a text tells the form of its head;
* `Expr.tells` — what is written of an expression can be read in one way;
* `Expr.render_eq_iff_agrees` — two expressions have the same text exactly if they agree up to the names
  of quantified variables in declared types.
-/

namespace Mlf

variable {x : String} {c : Char} {r s : List Char}
/-! ## Quoted text -/

namespace Text

/-- The number that hexadecimal digits in lower case stand for. -/
def hexValue (digits : List Char) : Nat :=
  digits.foldl (fun n c => 16 * n + if c.isDigit then c.toNat - 48 else c.toNat - 87) 0

theorem hexValue_append_singleton (digits : List Char) {d : Nat} (hd : d < 16) :
    hexValue (digits ++ [d.digitChar]) = 16 * hexValue digits + d := by
  have hDigit : ∀ d < 16, (if d.digitChar.isDigit then d.digitChar.toNat - 48
      else d.digitChar.toNat - 87) = d := by decide
  rw [hexValue, List.foldl_append, List.foldl_cons, List.foldl_nil, hDigit d hd, ← hexValue]

theorem hexValue_toDigits (n : Nat) : hexValue (Nat.toDigits 16 n) = n := by
  induction n using Nat.strongRecOn with
  | ind n ih =>
    by_cases hn : n < 16
    · rw [Nat.toDigits_of_lt_base hn]
      exact (hexValue_append_singleton [] hn).trans (Nat.zero_add n)
    · -- the last digit is the remainder
      rw [Nat.toDigits_of_base_le (by omega) (by omega),
        hexValue_append_singleton _ (Nat.mod_lt n (by omega)), ih (n / 16) (by omega)]
      omega

theorem hexValue_hex (width n : Nat) : hexValue (hex width n) = n := by
  -- zeros in front do not count
  have hZeros (k : Nat) (digits : List Char) :
      hexValue (List.replicate k '0' ++ digits) = hexValue digits := by
    induction k with
    | zero => rfl
    | succ k ih => exact ih
  rw [hex, hZeros, hexValue_toDigits]

theorem length_hex {width n : Nat} (hWidth : 0 < width) (hn : n < 16 ^ width) :
    (hex width n).length = width := by
  have hLength : (Nat.toDigits 16 n).length ≤ width :=
    (Nat.length_toDigits_le_iff (by omega) hWidth).2 hn
  rw [hex, List.length_append, List.length_replicate]
  omega

/-- The character that a letter or a sign after a backslash stands for. -/
def named : Char → Char
  | 'n' => '\n'
  | 'r' => '\r'
  | 't' => '\t'
  | 'a' => '\x07'
  | 'b' => '\x08'
  | 'v' => '\x0b'
  | 'f' => '\x0c'
  | c => c

/-- Reads one character of quoted text. -/
def unescape : List Char → Option (Char × List Char)
  | '\\' :: 'x' :: r => some (.ofNat (hexValue (r.take 2)), r.drop 2)
  | '\\' :: 'u' :: r => some (.ofNat (hexValue (r.take 4)), r.drop 4)
  | '\\' :: 'U' :: r => some (.ofNat (hexValue (r.take 8)), r.drop 8)
  | '\\' :: c :: r => some (named c, r)
  | c :: r => some (c, r)
  | [] => none

theorem unescape_plain (hc : c ≠ '\\') (r : List Char) : unescape (c :: r) = some (c, r) := by
  unfold unescape
  split <;> simp_all

/-- Hexadecimal digits are read back, since there are as many of them as there have to be. -/
theorem ofNat_hexValue_hex (width : Nat) (c : Char) (hWidth : 0 < width) (hc : c.toNat < 16 ^ width)
    (r : List Char) :
    some (Char.ofNat (hexValue ((hex width c.toNat ++ r).take width)),
      (hex width c.toNat ++ r).drop width) = some (c, r) := by
  have hLength := length_hex hWidth hc
  rw [List.take_left' hLength, List.drop_left' hLength, hexValue_hex, Char.ofNat_toNat]

theorem unescape_escape (c : Char) (r : List Char) : unescape (escape c ++ r) = some (c, r) := by
  unfold escape
  split
  all_goals try rfl
  next _ hSlash _ _ _ _ _ _ _ =>
    dsimp only
    -- as it is, or with two, four or eight digits
    split_ifs with hPrintable hSmall hMedium
    · exact unescape_plain hSlash r
    · exact ofNat_hexValue_hex 2 c (by omega) (by omega) r
    · exact ofNat_hexValue_hex 4 c (by omega) (by omega) r
    · have hBound : c.toNat < 2 ^ 32 := c.val.toNat_lt
      exact ofNat_hexValue_hex 8 c (by omega) (by omega) r

/-- The text between quotes ends at the first quote that is not escaped. -/
theorem escape_append_ne (c : Char) (u r : List Char) : escape c ++ u ≠ '"' :: r := by
  intro h
  have hRead := unescape_escape c u
  rw [h, unescape_plain (by decide)] at hRead
  obtain ⟨rfl, -⟩ := Prod.mk.inj (Option.some.inj hRead)
  exact absurd (List.cons.inj h).1 (by decide)

/-- What stands between quotes can be read in one way, from the left. -/
theorem flatMap_escape_append_inj {cs ds : List Char}
    (h : cs.flatMap escape ++ '"' :: r = ds.flatMap escape ++ '"' :: s) : cs = ds ∧ r = s := by
  induction cs generalizing ds with
  | nil =>
    cases ds with
    | nil => exact ⟨rfl, (List.cons.inj h).2⟩
    | cons d ds =>
      rw [List.flatMap_cons, List.append_assoc] at h
      -- what is written for a character does not start with a closing quote
      exact absurd h.symm (escape_append_ne d _ r)
  | cons c cs ih =>
    cases ds with
    | nil =>
      rw [List.flatMap_cons, List.append_assoc] at h
      exact absurd h (escape_append_ne c _ s)
    | cons d ds =>
      rw [List.flatMap_cons, List.flatMap_cons, List.append_assoc, List.append_assoc] at h
      -- both texts are read from the left
      have hRead := congrArg unescape h
      rw [unescape_escape, unescape_escape] at hRead
      obtain ⟨rfl, hRest⟩ := Prod.mk.inj (Option.some.inj hRead)
      obtain ⟨rfl, rfl⟩ := ih hRest
      exact ⟨rfl, rfl⟩

/-- Quoted text can be read in one way, whatever follows it. -/
theorem quote_append_inj {y : String} (h : (quote x).toList ++ r = (quote y).toList ++ s) :
    x = y ∧ r = s := by
  simp only [quote, String.toList_ofList, List.cons_append, List.append_assoc, List.cons.injEq,
    true_and] at h
  obtain ⟨hChars, hRest⟩ := flatMap_escape_append_inj h
  exact ⟨String.toList_inj.1 hChars, hRest⟩

end Text

/-! ## Words -/

/-- The characters that end a word in a printed expression. -/
def isBreak (c : Char) : Bool := c == ' ' || c == '(' || c == ')'

/-- A text that ends or goes on with a character that ends a word. -/
def EndsWord (r : List Char) : Prop := ∀ c ∈ r.head?, isBreak c = true

/-- The characters up to the end of the first word. -/
def firstWord (text : List Char) : List Char := text.takeWhile fun c => !isBreak c

theorem endsWord_cons (hc : isBreak c = true) (r : List Char) : EndsWord (c :: r) := by
  intro d hd
  obtain rfl : c = d := by simpa using hd
  exact hc

theorem firstWord_append {w : List Char} (hw : ∀ c ∈ w, isBreak c = false) (hr : EndsWord r) :
    firstWord (w ++ r) = w := by
  have hRest : r.takeWhile (fun c => !isBreak c) = [] := by
    cases r with
    | nil => rfl
    | cons c r => rw [List.takeWhile_cons_of_neg (by simp [hr c (by simp)])]
  rw [firstWord, List.takeWhile_append_of_pos (by simpa using hw), hRest, List.append_nil]

/-- A word is read up to where it ends. -/
theorem append_inj_of_endsWord {w v : List Char} (hw : ∀ c ∈ w, isBreak c = false)
    (hv : ∀ c ∈ v, isBreak c = false) (hr : EndsWord r) (hs : EndsWord s) (h : w ++ r = v ++ s) :
    w = v ∧ r = s := by
  have hWord : w = v := by
    rw [← firstWord_append hw hr, h, firstWord_append hv hs]
  subst hWord
  exact ⟨rfl, List.append_cancel_left h⟩

/-- A letter, followed by letters, digits and underscores. -/
def IsName (x : String) : Prop :=
  ∃ c cs, x.toList = c :: cs ∧ c.isAlpha = true ∧ ∀ d ∈ cs, d.isAlphanum = true ∨ d = '_'

/-- The words with a meaning of their own. -/
def reservedWords : List String := ["let", "in", "fun", "true", "false", "Inf", "NaN"]

/-- A name that an expression may give to a variable. -/
structure IsIdentifier (x : String) : Prop where
  name : IsName x
  not_reserved : x ∉ reservedWords

theorem IsName.chars (h : IsName x) (hc : c ∈ x.toList) : c.isAlphanum = true ∨ c = '_' := by
  obtain ⟨d, ds, hList, hd, hds⟩ := h
  rw [hList] at hc
  rcases List.mem_cons.1 hc with rfl | hc
  · exact Or.inl (by simp [Char.isAlphanum, hd])
  · exact hds c hc

/-- A character of a name is none of those with a place of their own in printed texts. -/
theorem IsName.not_mem (h : IsName x) (signs : List Char)
    (hSigns : ∀ c ∈ signs, c.isAlphanum = false ∧ c ≠ '_') : ∀ c ∈ x.toList, c ∉ signs := by
  intro c hc hMem
  obtain ⟨hLetter, hUnderscore⟩ := hSigns c hMem
  rcases h.chars hc with hAlpha | rfl
  · rw [hLetter] at hAlpha
    cases hAlpha
  · exact hUnderscore rfl

theorem IsName.isBreak (h : IsName x) : ∀ c ∈ x.toList, isBreak c = false := by
  intro c hc
  have hSigns := h.not_mem [' ', '(', ')'] (by simp) c hc
  simpa [Mlf.isBreak, and_assoc] using hSigns

/-- A name that is no constant type is a word of a printed type. -/
theorem IsName.isWord (h : IsName x) (hBase : ∀ c : BaseType, x ≠ c.text) : IsWord x := by
  refine ⟨?_, hBase, h.not_mem separators (by simp [separators])⟩
  rintro rfl
  obtain ⟨c, cs, hList, -⟩ := h
  cases hList

/-! ## Numbers as words -/

namespace NumberFormat

/-- The characters of written numbers. -/
def isNumeral (c : Char) : Bool := c.isDigit || c == '.' || c == 'e' || c == '+' || c == '-'

theorem isNumeral_of_mem_toDigits {n : Nat} (hc : c ∈ Nat.toDigits 10 n) : isNumeral c = true := by
  simp [isNumeral, Nat.isDigit_of_mem_toDigits (by omega) (by omega) hc]

/-- A text that starts with a digit and goes on with characters of numbers. -/
def IsDigits (text : List Char) : Prop :=
  (∀ c ∈ text, isNumeral c = true) ∧ ∃ d ∈ text.head?, d.isDigit = true

theorem isDigits_toDigits (n : Nat) : IsDigits (Nat.toDigits 10 n) := by
  refine ⟨fun c => isNumeral_of_mem_toDigits, ?_⟩
  cases hDigits : Nat.toDigits 10 n with
  | nil => exact absurd hDigits Nat.toDigits_ne_nil
  | cons d ds =>
    exact ⟨d, rfl, Nat.isDigit_of_mem_toDigits (b := 10) (n := n) (by omega) (by omega)
      (by simp [hDigits])⟩

theorem IsDigits.append {text rest : List Char} (h : IsDigits text)
    (hRest : ∀ c ∈ rest, isNumeral c = true) : IsDigits (text ++ rest) := by
  obtain ⟨hChars, d, hHead, hd⟩ := h
  refine ⟨fun c hc => ?_, d, ?_, hd⟩
  · exact (List.mem_append.1 hc).elim (hChars c) (hRest c)
  · cases text with
    | nil => cases hHead
    | cons e text => exact hHead

theorem IsDigits.take {text : List Char} (h : IsDigits text) {k : Nat} (hk : 0 < k) :
    IsDigits (text.take k) := by
  obtain ⟨hChars, d, hHead, hd⟩ := h
  refine ⟨fun c hc => hChars c (List.mem_of_mem_take hc), d, ?_, hd⟩
  rwa [List.head?_take, if_neg (by omega)]

/-- A number with an exponent starts with a digit and has no other characters than numbers have:
digits, a point, the letter, a sign and the digits of the exponent. -/
theorem isDigits_scientific (f : NumberFormat) (d : Decimal) : IsDigits (f.scientific d) := by
  have hDigits := isDigits_toDigits d.digits
  -- the letter, the sign and the digits of the exponent
  have hExponent : ∀ c ∈ 'e' :: (if d.exponent < 0 then '-' else '+') ::
      (List.replicate (f.exponentDigits - (Nat.toDigits 10 d.exponent.natAbs).length) '0' ++
        Nat.toDigits 10 d.exponent.natAbs), isNumeral c = true := by
    intro c hc
    simp only [List.mem_cons, List.mem_append, List.mem_replicate] at hc
    rcases hc with rfl | rfl | ⟨-, rfl⟩ | hc
    · rfl
    · split_ifs <;> rfl
    · rfl
    · exact isNumeral_of_mem_toDigits hc
  refine IsDigits.append ?_ hExponent
  split_ifs with hSingle
  · exact hDigits
  · refine (hDigits.take (by omega)).append ?_
    intro c hc
    rcases List.mem_cons.1 hc with rfl | hc
    · rfl
    · exact hDigits.1 c (List.mem_of_mem_drop hc)

/-- So does a number that is written out: with zeros in front, with zeros behind, or with a point
between its digits. -/
theorem isDigits_plain (d : Decimal) : IsDigits (plain d) := by
  have hDigits := isDigits_toDigits d.digits
  have hZeros {k : Nat} : ∀ c ∈ List.replicate k '0', isNumeral c = true := by
    intro c hc
    rw [List.eq_of_mem_replicate hc]
    rfl
  have hZero : IsDigits ['0'] := by simp [IsDigits, isNumeral]
  unfold plain
  dsimp only
  -- zeros in front, zeros behind, or a point in between
  split_ifs with hSmall hShort
  · refine hZero.append fun c hc => ?_
    simp only [List.mem_cons, List.mem_append] at hc
    rcases hc with rfl | hc | hc
    · rfl
    · exact hZeros c hc
    · exact hDigits.1 c hc
  · exact hDigits.append hZeros
  · refine (hDigits.take (by omega)).append fun c hc => ?_
    rcases List.mem_cons.1 hc with rfl | hc
    · rfl
    · exact hDigits.1 c (List.mem_of_mem_drop hc)

/-- A written number is one word. It is the word for no number, or it starts with a digit or a sign.
-/
theorem render_word (n : Number) : (∀ c ∈ (constants.render n).toList, isBreak c = false) ∧
    (constants.render n = "NaN" ∨ ∃ c ∈ (constants.render n).toList.head?,
      c.isDigit = true ∨ c = '+' ∨ c = '-') := by
  cases n with
  | nan => exact ⟨by simp [render, constants, isBreak], Or.inl rfl⟩
  | infinite negative =>
    refine ⟨?_, Or.inr ⟨if negative then '-' else '+', ?_, ?_⟩⟩
    all_goals cases negative <;> simp [render, constants, isBreak]
  | finite negative m q =>
    have hText : IsDigits (if m = 0 then ['0'] else
        if (Decimal.shortest m q).exponent < constants.leastPlain ∨
            constants.plainEnd ≤ (Decimal.shortest m q).exponent then
          constants.scientific (Decimal.shortest m q)
        else plain (Decimal.shortest m q)) := by
      split_ifs
      · simp [IsDigits, isNumeral]
      · exact isDigits_scientific _ _
      · exact isDigits_plain _
    -- no character of a number is a break
    have hBreak {c : Char} (hc : isNumeral c = true) : isBreak c = false := by
      rw [Bool.eq_false_iff]
      intro h
      simp only [isBreak, Bool.or_eq_true, beq_iff_eq, or_assoc] at h
      rcases h with rfl | rfl | rfl <;> exact absurd hc (by decide)
    obtain ⟨hChars, d, hHead, hd⟩ := hText
    simp only [render, String.toList_ofList]
    cases negative with
    | false => exact ⟨fun c hc => hBreak (hChars c hc), Or.inr ⟨d, hHead, Or.inl hd⟩⟩
    | true =>
      refine ⟨fun c hc => ?_, Or.inr ⟨'-', rfl, Or.inr (Or.inr rfl)⟩⟩
      rcases List.mem_cons.1 hc with rfl | hc
      · rfl
      · exact hBreak (hChars c hc)

end NumberFormat

/-! ## What a text starts with -/

/-- What the text of an expression can start with. -/
inductive Lead where
  | name
  | truth
  | numeral
  | quotation
  | function
  | definition
  | parenthesis
deriving DecidableEq

/-- What the first word of a text says about it. -/
def Lead.ofWord (w : List Char) : Lead :=
  if w = "fun".toList then .function
  else if w = "let".toList then .definition
  else if w = "true".toList ∨ w = "false".toList then .truth
  else if w = "NaN".toList then .numeral
  else if w.head?.any Char.isAlpha then .name
  else .numeral

/-- What a text starts with. -/
def Lead.ofText (text : List Char) : Lead :=
  if text.head? = some '(' then .parenthesis
  else if text.head? = some '"' then .quotation
  else .ofWord (firstWord text)

theorem Lead.ofText_word {w : List Char} (hw : ∀ d ∈ c :: w, isBreak d = false) (hc : c ≠ '"')
    (hr : EndsWord r) : ofText (c :: w ++ r) = ofWord (c :: w) := by
  have hParen : c ≠ '(' := by
    rintro rfl
    exact absurd (hw '(' (by simp)) (by decide)
  rw [ofText, if_neg (by simpa using hParen), if_neg (by simpa using hc), firstWord_append hw hr]

theorem IsIdentifier.lead (h : IsIdentifier x) (hr : EndsWord r) :
    Lead.ofText (x.toList ++ r) = .name := by
  have hChars := h.name.isBreak
  obtain ⟨c, cs, hList, hc, -⟩ := h.name
  -- the words with a meaning of their own are no identifiers
  have hNot {y : String} (hy : y ∈ reservedWords) : c :: cs ≠ y.toList := by
    intro hEq
    rw [← hList, String.toList_inj] at hEq
    exact h.not_reserved (hEq ▸ hy)
  have hQuote : c ≠ '"' := by
    rintro rfl
    exact absurd hc (by decide)
  rw [hList] at hChars ⊢
  rw [Lead.ofText_word hChars hQuote hr, Lead.ofWord, if_neg (hNot (by decide)),
    if_neg (hNot (by decide)), if_neg (not_or.2 ⟨hNot (by decide), hNot (by decide)⟩),
    if_neg (hNot (by decide)), if_pos (by simpa using hc)]

/-- The words for truth values. -/
theorem Value.boolean_word (b : Bool) : (∀ c ∈ (boolean b).render.toList, isBreak c = false) ∧
    ∀ r, EndsWord r → Lead.ofText ((boolean b).render.toList ++ r) = .truth := by
  have hChars : ∀ c ∈ (boolean b).render.toList, isBreak c = false := by
    cases b <;> simp [render, isBreak]
  refine ⟨hChars, fun r hr => ?_⟩
  cases b with
  | true => exact (Lead.ofText_word hChars (by decide) hr).trans (by decide)
  | false => exact (Lead.ofText_word hChars (by decide) hr).trans (by decide)

/-- A number is taken for no other word. -/
theorem Value.lead_number (n : Number) (hr : EndsWord r) :
    Lead.ofText ((number n).render.toList ++ r) = .numeral := by
  obtain ⟨hChars, hNaN | ⟨c, hHead, hc⟩⟩ := NumberFormat.render_word n
  · have hText : (number n).render.toList = ['N', 'a', 'N'] := congrArg String.toList hNaN
    rw [hText]
    exact (Lead.ofText_word (by simp [isBreak]) (by decide) hr).trans (by decide)
  · obtain ⟨cs, hText⟩ : ∃ cs, (number n).render.toList = c :: cs := by
      show ∃ cs, (NumberFormat.constants.render n).toList = c :: cs
      cases hList : (NumberFormat.constants.render n).toList with
      | nil =>
        rw [hList] at hHead
        cases hHead
      | cons d ds =>
        rw [hList] at hHead
        obtain rfl : d = c := by simpa using hHead
        exact ⟨ds, rfl⟩
    -- neither digits nor signs are letters
    have hAlpha : c.isAlpha = false := by
      rcases hc with hc | rfl | rfl
      · grind [Char.isDigit, Char.isAlpha, Char.isUpper, Char.isLower]
      · rfl
      · rfl
    -- a word with a meaning of its own starts with a letter
    have hNot {w : List Char} (hw : w.head?.any Char.isAlpha = true) : c :: cs ≠ w := by
      rintro rfl
      simp [hAlpha] at hw
    have hQuote : c ≠ '"' := by
      rintro rfl
      revert hc
      decide
    rw [hText, Lead.ofText_word (hText ▸ hChars) hQuote hr, Lead.ofWord, if_neg (hNot (by decide)),
      if_neg (hNot (by decide)), if_neg (not_or.2 ⟨hNot (by decide), hNot (by decide)⟩),
      if_neg (hNot (by decide)), if_neg (by simp [hAlpha])]

/-! ## Expressions, their heads and their arguments -/

namespace Expr

variable {α β : Type}

/-- Expressions without missing, unknown or erroneous parts, with names that are identifiers, numbers
out of a given set and free names of declared types that are names and no constant types. -/
def Readable (numbers : Set Number) : Expr α → Prop
  | missing | unknown | error .. => False
  | var _ x => IsIdentifier x
  | const _ (.number n) => n ∈ numbers
  | const _ (.boolean _) | const _ (.string _) => True
  | func _ x b => IsIdentifier x ∧ b.Readable numbers
  | call _ c d => c.Readable numbers ∧ d.Readable numbers
  | letIn _ x v b => IsIdentifier x ∧ v.Readable numbers ∧ b.Readable numbers
  | annot _ v t => v.Readable numbers ∧ ∀ x ∈ t.freeVars, IsName x ∧ ∀ c : BaseType, x ≠ c.text

/-- Expressions that agree up to the names of quantified variables in their declared types, whatever
their nodes carry. -/
inductive Agrees : Expr α → Expr β → Prop
  | var (i : α) (j : β) (x : String) : Agrees (.var i x) (.var j x)
  | const (i : α) (j : β) (v : Value) : Agrees (.const i v) (.const j v)
  | func (i : α) (j : β) (x : String) {b : Expr α} {b' : Expr β} (h : Agrees b b') :
    Agrees (.func i x b) (.func j x b')
  | call (i : α) (j : β) {c d : Expr α} {c' d' : Expr β} (hc : Agrees c c') (hd : Agrees d d') :
    Agrees (.call i c d) (.call j c' d')
  | letIn (i : α) (j : β) (x : String) {v b : Expr α} {v' b' : Expr β} (hv : Agrees v v')
    (hb : Agrees b b') : Agrees (.letIn i x v b) (.letIn j x v' b')
  | annot (i : α) (j : β) {v : Expr α} {v' : Expr β} {t t' : Polytype} (hv : Agrees v v')
    (ht : t.alphaEq [] t' = true) : Agrees (.annot i v t) (.annot j v' t')

/-- The characters of a printed expression. -/
def text (asCallee : Bool) (e : Expr α) : List Char := (e.renderAs asCallee).toList

/-- What is called in the end. -/
def head : Expr α → Expr α
  | call _ c _ => c.head
  | e => e

/-- The arguments that the head is called with, one after the other. -/
def args : Expr α → List (Expr α)
  | call _ c d => c.args ++ [d]
  | _ => []

/-- An expression that is no call. -/
def IsHead (e : Expr α) : Prop := ∀ i c d, e ≠ call i c d

/-- The text of arguments, in front of another text. -/
def argsText (ds : List (Expr α)) (r : List Char) : List Char :=
  ds.foldr (fun d rest => '(' :: (d.text false ++ ')' :: rest)) r

theorem isHead_head (e : Expr α) : e.head.IsHead := by
  induction e with
  | call i c d ihc ihd => exact ihc
  | missing => exact nofun
  | unknown => exact nofun
  | var i x => exact nofun
  | const i v => exact nofun
  | func i x b ih => exact nofun
  | letIn i x v b ihv ihb => exact nofun
  | annot i v t ih => exact nofun
  | error i d e ih => exact nofun

theorem Readable.head {numbers : Set Number} {e : Expr α} (h : e.Readable numbers) :
    e.head.Readable numbers := by
  induction e with
  | call i c d ihc ihd => exact ihc h.1
  | _ => exact h

theorem Readable.args {numbers : Set Number} {e : Expr α} (h : e.Readable numbers) :
    ∀ d ∈ e.args, d.Readable numbers := by
  induction e with
  | call i c d ihc ihd =>
    intro e he
    rcases List.mem_append.1 he with he | he
    · exact ihc h.1 e he
    · exact List.mem_singleton.1 he ▸ h.2
  | _ => exact fun d hd => absurd hd List.not_mem_nil

theorem text_call_append (asCallee : Bool) (i : α) (c d : Expr α) (r : List Char) :
    (call i c d).text asCallee ++ r = c.text true ++ argsText [d] r := by
  simp [text, renderAs, argsText]

/-- A text is the text of the head and then of the arguments. A head with arguments is called. -/
theorem text_append (e : Expr α) (asCallee : Bool) (r : List Char) :
    e.text asCallee ++ r = e.head.text (asCallee || !e.args.isEmpty) ++ argsText e.args r := by
  induction e generalizing asCallee r with
  | call i c d ihc ihd =>
    have hCalled : (c.args ++ [d]).isEmpty = false := by
      cases c.args <;> rfl
    rw [text_call_append, ihc, head, args, hCalled]
    simp [argsText, List.foldr_append]
  | _ => simp [head, args, argsText]

theorem text_func_append (i : α) (x : String) (b : Expr α) (r : List Char) :
    (func i x b).text false ++ r =
      'f' :: 'u' :: 'n' :: ' ' :: (x.toList ++ ' ' :: '-' :: '>' :: ' ' :: (b.text false ++ r)) := by
  simp [text, renderAs, renderAs.enclose]

theorem text_letIn_append (i : α) (x : String) (v b : Expr α) (r : List Char) :
    (letIn i x v b).text false ++ r = 'l' :: 'e' :: 't' :: ' ' :: (x.toList ++
      ' ' :: '=' :: ' ' :: (v.text false ++ ' ' :: 'i' :: 'n' :: ' ' :: (b.text false ++ r))) := by
  simp [text, renderAs, renderAs.enclose]

theorem text_annot_append (asCallee : Bool) (i : α) (v : Expr α) (t : Polytype) (r : List Char) :
    (annot i v t).text asCallee ++ r =
      '(' :: (v.text false ++ ' ' :: ':' :: ' ' :: (t.render.toList ++ ')' :: r)) := by
  simp [text, renderAs]

/-- A function or a local definition. -/
def IsBinder (e : Expr α) : Prop := (∃ i x b, e = func i x b) ∨ ∃ i x v b, e = letIn i x v b

/-- A function or a local definition that is called stands in parentheses. -/
theorem IsBinder.text_append {e : Expr α} (h : e.IsBinder) (r : List Char) :
    e.text true ++ r = '(' :: (e.text false ++ ')' :: r) := by
  rcases h with ⟨i, x, b, rfl⟩ | ⟨i, x, v, b, rfl⟩
  · simp [text, renderAs, renderAs.enclose]
  · simp [text, renderAs, renderAs.enclose]

/-! ## What may follow -/

/-- What may follow a whole expression: nothing, a closing parenthesis or a blank. -/
def Stops (r : List Char) : Prop := ∀ c ∈ r.head?, c = ')' ∨ c = ' '

/-- What may follow a head: an argument if it is called, and else what may follow a whole expression. -/
def Follows : (asCallee : Bool) → List Char → Prop
  | true, r => r.head? = some '('
  | false, r => Stops r

theorem stops_cons {c : Char} (hc : c = ')' ∨ c = ' ') (r : List Char) : Stops (c :: r) := by
  intro d hd
  obtain rfl : c = d := by simpa using hd
  exact hc

theorem stops_nil : Stops [] := by
  intro c hc
  cases hc

theorem Follows.endsWord {asCallee : Bool} (h : Follows asCallee r) : EndsWord r := by
  intro c hc
  cases asCallee with
  | true =>
    have hHead : r.head? = some '(' := h
    obtain rfl : '(' = c := by rwa [hHead, Option.mem_some] at hc
    rfl
  | false =>
    rcases h c hc with rfl | rfl
    · rfl
    · rfl

/-- Arguments follow a head that is called, and without any the text goes on behind the whole. -/
theorem follows_argsText (ds : List (Expr α)) (hr : Stops r) :
    Follows (!ds.isEmpty) (argsText ds r) := by
  cases ds with
  | nil => exact hr
  | cons d ds => exact (rfl : (argsText (d :: ds) r).head? = some '(')

/-- In front of what may follow it, the text of a whole expression is read as that expression. -/
def Tells (numbers : Set Number) (β : Type) (a : Expr α) : Prop :=
  ∀ b : Expr β, b.Readable numbers → ∀ r s, Stops r → Stops s →
    a.text false ++ r = b.text false ++ s → a.Agrees b ∧ r = s

/-- In front of what may follow it, the text of a head is read as that head. -/
def TellsHead (numbers : Set Number) (β : Type) (asCallee : Bool) (a : Expr α) : Prop :=
  ∀ b : Expr β, b.Readable numbers → b.IsHead → ∀ asCallee' r s, Follows asCallee r →
    Follows asCallee' s → a.text asCallee ++ r = b.text asCallee' ++ s → a.Agrees b ∧ r = s

variable {numbers : Set Number}

/-- Arguments are read one after the other, until none follows. -/
theorem argsText_inj {ds : List (Expr α)} {es : List (Expr β)} (hds : ∀ d ∈ ds, d.Tells numbers β)
    (hes : ∀ e ∈ es, e.Readable numbers) (hr : Stops r) (hs : Stops s)
    (h : argsText ds r = argsText es s) : List.Forall₂ Agrees ds es ∧ r = s := by
  -- no argument follows a whole expression
  have hStop {γ : Type} {e : Expr γ} {es : List (Expr γ)} {r s : List Char} (hr : Stops r)
      (h : r = argsText (e :: es) s) : False := by
    subst h
    exact absurd (hr '(' rfl) (by decide)
  induction ds generalizing es with
  | nil =>
    cases es with
    | nil => exact ⟨.nil, h⟩
    | cons e es => exact (hStop hr h).elim
  | cons d ds ih =>
    cases es with
    | nil => exact (hStop hs h.symm).elim
    | cons e es =>
      obtain ⟨hd, hRest⟩ := hds d (by simp) e (hes e (by simp)) _ _ (stops_cons (Or.inl rfl) _)
        (stops_cons (Or.inl rfl) _) (List.cons.inj h).2
      obtain ⟨hArgs, hEnd⟩ := ih (fun d hd => hds d (by simp [hd])) (fun e he => hes e (by simp [he]))
        (List.cons.inj hRest).2
      exact ⟨.cons hd hArgs, hEnd⟩

theorem args_call_ne_nil (i : α) (c d : Expr α) : (call i c d).args ≠ [] := by
  simp [args]

/-- An expression without arguments is its own head. -/
theorem head_of_args_eq_nil {e : Expr α} (h : e.args = []) : e.head = e := by
  cases e with
  | call i c d => exact absurd h (args_call_ne_nil i c d)
  | _ => rfl

/-- Calls of heads that agree, with arguments that agree. -/
theorem agrees_of_head {a : Expr α} {b : Expr β} (hHead : a.head.Agrees b.head)
    (hArgs : List.Forall₂ Agrees a.args b.args) : a.Agrees b := by
  induction a generalizing b with
  | call i c d ihc ihd =>
    cases b with
    | call j c' d' =>
      -- the last argument of the one is the last argument of the other
      rw [← List.forall₂_reverse_iff] at hArgs
      simp only [args, List.reverse_append, List.reverse_singleton, List.singleton_append,
        List.forall₂_cons, List.forall₂_reverse_iff] at hArgs
      exact .call i j (ihc hHead hArgs.2) hArgs.1
    | _ => exact absurd (List.forall₂_nil_right_iff.1 hArgs) (args_call_ne_nil i c d)
  | _ =>
    have hNone : b.args = [] := List.forall₂_nil_left_iff.1 hArgs
    rwa [head_of_args_eq_nil hNone] at hHead

/-- A whole expression is read as its head and its arguments. -/
theorem tells_of_head {a : Expr α} (hHead : a.head.TellsHead numbers β (!a.args.isEmpty))
    (hArgs : ∀ d ∈ a.args, d.Tells numbers β) : a.Tells numbers β := by
  intro b hb r s hr hs h
  rw [text_append, text_append b] at h
  obtain ⟨hAgrees, hRest⟩ := hHead b.head hb.head b.isHead_head _ _ _ (follows_argsText a.args hr)
    (follows_argsText b.args hs) h
  obtain ⟨hPairs, rfl⟩ := argsText_inj hArgs hb.args hr hs hRest
  exact ⟨agrees_of_head hAgrees hPairs, rfl⟩

/-! ## Forms of heads -/

/-- What the text of a head starts with. -/
def lead (asCallee : Bool) : Expr α → Lead
  | var .. => .name
  | const _ (.boolean _) => .truth
  | const _ (.number _) => .numeral
  | const _ (.string _) => .quotation
  | func .. => if asCallee then .parenthesis else .function
  | letIn .. => if asCallee then .parenthesis else .definition
  | annot .. => .parenthesis
  | missing | unknown | call .. | error .. => .name

/-- The first word or sign of a text tells the form of the head. -/
theorem ofText_text {e : Expr α} (he : e.Readable numbers) (hHead : e.IsHead) {asCallee : Bool}
    (hr : Follows asCallee r) : Lead.ofText (e.text asCallee ++ r) = e.lead asCallee := by
  have hParen (text : List Char) : Lead.ofText ('(' :: text) = .parenthesis := rfl
  cases e with
  | missing => exact he.elim
  | unknown => exact he.elim
  | error i d e => exact he.elim
  | call i c d => exact absurd rfl (hHead i c d)
  | var i x => exact IsIdentifier.lead he hr.endsWord
  | const i v =>
    cases v with
    | boolean b => exact (Value.boolean_word b).2 r hr.endsWord
    | number n => exact Value.lead_number n hr.endsWord
    | string s =>
      show Lead.ofText ((Text.quote s).toList ++ r) = .quotation
      simp [Text.quote, Lead.ofText]
  -- what is called stands in parentheses, and else its first word tells
  | func i x b =>
    cases asCallee with
    | true =>
      rw [IsBinder.text_append (Or.inl ⟨i, x, b, rfl⟩)]
      exact hParen _
    | false =>
      rw [text_func_append]
      exact (Lead.ofText_word (w := ['u', 'n']) (by simp [isBreak]) (by decide)
        (endsWord_cons rfl _)).trans (by decide : Lead.ofWord ['f', 'u', 'n'] = .function)
  | letIn i x v b =>
    cases asCallee with
    | true =>
      rw [IsBinder.text_append (Or.inr ⟨i, x, v, b, rfl⟩)]
      exact hParen _
    | false =>
      rw [text_letIn_append]
      exact (Lead.ofText_word (w := ['e', 't']) (by simp [isBreak]) (by decide)
        (endsWord_cons rfl _)).trans (by decide : Lead.ofWord ['l', 'e', 't'] = .definition)
  | annot i v t =>
    rw [text_annot_append]
    exact hParen _

/-- The form of a head whose text starts in a given way. -/
def HasForm : Lead → (asCallee : Bool) → Expr α → Prop
  | .name, _, e => ∃ i x, e = var i x
  | .truth, _, e => ∃ i b, e = const i (.boolean b)
  | .numeral, _, e => ∃ i n, e = const i (.number n)
  | .quotation, _, e => ∃ i s, e = const i (.string s)
  | .function, asCallee, e => asCallee = false ∧ ∃ i x b, e = func i x b
  | .definition, asCallee, e => asCallee = false ∧ ∃ i x v b, e = letIn i x v b
  | .parenthesis, asCallee, e => asCallee = true ∧ e.IsBinder ∨ ∃ i v t, e = annot i v t

/-- A head has the form that its text tells. -/
theorem hasForm_lead {e : Expr α} (he : e.Readable numbers) (hHead : e.IsHead) (asCallee : Bool) :
    HasForm (e.lead asCallee) asCallee e := by
  cases e with
  | missing => exact he.elim
  | unknown => exact he.elim
  | error i d e => exact he.elim
  | call i c d => exact absurd rfl (hHead i c d)
  | var i x => exact ⟨i, x, rfl⟩
  | const i v =>
    cases v with
    | boolean b => exact ⟨i, b, rfl⟩
    | number n => exact ⟨i, n, rfl⟩
    | string s => exact ⟨i, s, rfl⟩
  | func i x b =>
    -- in brackets only where it is called
    cases asCallee with
    | true => exact Or.inl ⟨rfl, Or.inl ⟨i, x, b, rfl⟩⟩
    | false => exact ⟨rfl, i, x, b, rfl⟩
  | letIn i x v b =>
    cases asCallee with
    | true => exact Or.inl ⟨rfl, Or.inr ⟨i, x, v, b, rfl⟩⟩
    | false => exact ⟨rfl, i, x, v, b, rfl⟩
  | annot i v t => exact Or.inr ⟨i, v, t, rfl⟩

/-- Heads with the same text have the same form. -/
theorem hasForm_of_text_eq {a : Expr α} {b : Expr β} (ha : a.Readable numbers) (haHead : a.IsHead)
    (hb : b.Readable numbers) (hbHead : b.IsHead) {asCallee asCallee' : Bool}
    (hr : Follows asCallee r) (hs : Follows asCallee' s)
    (h : a.text asCallee ++ r = b.text asCallee' ++ s) : HasForm (a.lead asCallee) asCallee' b := by
  rw [← ofText_text ha haHead hr, h, ofText_text hb hbHead hs]
  exact hasForm_lead hb hbHead asCallee'

theorem tellsHead_var {i : α} (hx : (var i x).Readable numbers) (asCallee : Bool) :
    (var i x).TellsHead numbers β asCallee := by
  intro b hb hHead asCallee' r s hr hs h
  obtain ⟨j, y, rfl⟩ := hasForm_of_text_eq hx nofun hb hHead hr hs h
  obtain ⟨hName, hRest⟩ := append_inj_of_endsWord (IsIdentifier.name hx).isBreak
    (IsIdentifier.name hb).isBreak hr.endsWord hs.endsWord h
  obtain rfl := String.toList_inj.1 hName
  exact ⟨.var i j x, hRest⟩

/-- Constants are told apart by the first sign of their texts and then kind by kind. -/
theorem tellsHead_const (hNumbers : numbers.InjOn NumberFormat.constants.render) {i : α} {v : Value}
    (hv : (const i v).Readable numbers) (asCallee : Bool) :
    (const i v).TellsHead numbers β asCallee := by
  intro b hb hHead asCallee' r s hr hs h
  have hForm := hasForm_of_text_eq hv nofun hb hHead hr hs h
  cases v with
  | boolean t =>
    obtain ⟨j, u, rfl⟩ := hForm
    obtain ⟨hWord, hRest⟩ := append_inj_of_endsWord (Value.boolean_word t).1 (Value.boolean_word u).1
      hr.endsWord hs.endsWord h
    obtain rfl : t = u := by
      revert hWord
      cases t <;> cases u <;> decide
    exact ⟨.const i j _, hRest⟩
  | number n =>
    obtain ⟨j, m, rfl⟩ := hForm
    -- the words end where the rests start, so they are the same
    obtain ⟨hWord, hRest⟩ := append_inj_of_endsWord (NumberFormat.render_word n).1
      (NumberFormat.render_word m).1 hr.endsWord hs.endsWord h
    obtain rfl := hNumbers hv hb (String.toList_inj.1 hWord)
    exact ⟨.const i j _, hRest⟩
  | string t =>
    obtain ⟨j, u, rfl⟩ := hForm
    obtain ⟨rfl, hRest⟩ := Text.quote_append_inj h
    exact ⟨.const i j _, hRest⟩

/-- A function extends up to where the text around it goes on. -/
theorem tellsHead_func {i : α} {b : Expr α} (ha : (func i x b).Readable numbers)
    (hBody : b.Tells numbers β) : (func i x b).TellsHead numbers β false := by
  intro e he hHead asCallee' r s hr hs h
  obtain ⟨rfl, j, y, c, rfl⟩ := hasForm_of_text_eq ha nofun he hHead hr hs h
  rw [text_func_append, text_func_append] at h
  simp only [List.cons.injEq, true_and] at h
  obtain ⟨hName, hRest⟩ := append_inj_of_endsWord ha.1.name.isBreak he.1.name.isBreak
    (endsWord_cons rfl _) (endsWord_cons rfl _) h
  obtain rfl := String.toList_inj.1 hName
  simp only [List.cons.injEq, true_and] at hRest
  obtain ⟨hAgrees, rfl⟩ := hBody c he.2 r s hr hs hRest
  exact ⟨.func i j x hAgrees, rfl⟩

/-- The value of a local definition ends at the blank in front of its body. -/
theorem tellsHead_letIn {i : α} {v b : Expr α} (ha : (letIn i x v b).Readable numbers)
    (hValue : v.Tells numbers β) (hBody : b.Tells numbers β) :
    (letIn i x v b).TellsHead numbers β false := by
  intro e he hHead asCallee' r s hr hs h
  obtain ⟨rfl, j, y, w, c, rfl⟩ := hasForm_of_text_eq ha nofun he hHead hr hs h
  rw [text_letIn_append, text_letIn_append] at h
  simp only [List.cons.injEq, true_and] at h
  obtain ⟨hName, hRest⟩ := append_inj_of_endsWord ha.1.name.isBreak he.1.name.isBreak
    (endsWord_cons rfl _) (endsWord_cons rfl _) h
  obtain rfl := String.toList_inj.1 hName
  simp only [List.cons.injEq, true_and] at hRest
  -- the value stops at the blank in front of the word that comes before the body
  obtain ⟨hFirst, hRest⟩ := hValue w he.2.1 _ _ (stops_cons (Or.inr rfl) _)
    (stops_cons (Or.inr rfl) _) hRest
  simp only [List.cons.injEq, true_and] at hRest
  obtain ⟨hSecond, rfl⟩ := hBody c he.2.2 r s hr hs hRest
  exact ⟨.letIn i j x hFirst hSecond, rfl⟩

/-- A function or a local definition that is called is closed by a parenthesis, where an annotation
has a colon. -/
theorem tellsHead_called {a : Expr α} (ha : a.Readable numbers) (hBinder : a.IsBinder)
    (hWhole : a.Tells numbers β) : a.TellsHead numbers β true := by
  intro b hb hHead asCallee' r s hr hs h
  have hLead : a.IsHead ∧ a.lead true = .parenthesis := by
    rcases hBinder with ⟨i, x, b, rfl⟩ | ⟨i, x, v, b, rfl⟩ <;> exact ⟨nofun, rfl⟩
  have hForm := hasForm_of_text_eq ha hLead.1 hb hHead hr hs h
  rw [hLead.2] at hForm
  rw [hBinder.text_append] at h
  rcases hForm with ⟨rfl, hBinder'⟩ | ⟨j, w, u, rfl⟩
  · rw [hBinder'.text_append] at h
    obtain ⟨hAgrees, hRest⟩ := hWhole b hb _ _ (stops_cons (Or.inl rfl) _) (stops_cons (Or.inl rfl) _)
      (List.cons.inj h).2
    exact ⟨hAgrees, (List.cons.inj hRest).2⟩
  · -- a blank and a colon would stand where the parenthesis is closed
    rw [text_annot_append] at h
    obtain ⟨-, hRest⟩ := hWhole w hb.1 _ _ (stops_cons (Or.inl rfl) _) (stops_cons (Or.inr rfl) _)
      (List.cons.inj h).2
    exact absurd (List.cons.inj hRest).1 (by decide)

/-- An annotation is read as its value and then its type, up to the parenthesis that closes it. -/
theorem tellsHead_annot {i : α} {v : Expr α} {t : Polytype} (ha : (annot i v t).Readable numbers)
    (hValue : v.Tells numbers β) (asCallee : Bool) : (annot i v t).TellsHead numbers β asCallee := by
  intro b hb hHead asCallee' r s hr hs h
  have hForm : HasForm .parenthesis asCallee' b := hasForm_of_text_eq ha nofun hb hHead hr hs h
  rw [text_annot_append] at h
  rcases hForm with ⟨rfl, hBinder⟩ | ⟨j, w, u, rfl⟩
  · -- a function or definition in parentheses, after which the parenthesis is closed at once
    rw [hBinder.text_append] at h
    obtain ⟨-, hRest⟩ := hValue b hb _ _ (stops_cons (Or.inr rfl) _) (stops_cons (Or.inl rfl) _)
      (List.cons.inj h).2
    exact absurd (List.cons.inj hRest).1 (by decide)
  · rw [text_annot_append] at h
    obtain ⟨hAgrees, hRest⟩ := hValue w hb.1 _ _ (stops_cons (Or.inr rfl) _)
      (stops_cons (Or.inr rfl) _) (List.cons.inj h).2
    simp only [List.cons.injEq, true_and] at hRest
    -- what is left is a type in front of the closing parenthesis
    have hWords {t : Polytype} (h : ∀ x ∈ t.freeVars, IsName x ∧ ∀ c : BaseType, x ≠ c.text) :
        ∀ x ∈ t.freeVars, IsWord x := fun x hx => (h x hx).1.isWord (h x hx).2
    obtain ⟨hShape, hRest⟩ := Polytype.render_append_inj (hWords ha.2) (hWords hb.2) (closes_cons r)
      (closes_cons s) hRest
    exact ⟨.annot i j hAgrees (Polytype.alphaEq_iff.2 hShape), (List.cons.inj hRest).2⟩

/-! ## Whole expressions -/

/-- What is written of an expression is read as that expression. -/
theorem tells (hNumbers : numbers.InjOn NumberFormat.constants.render) {a : Expr α}
    (ha : a.Readable numbers) : a.Tells numbers β := by
  -- the head and the arguments are told apart, and this gives the whole
  suffices h : (∀ asCallee, a.head.TellsHead numbers β asCallee) ∧
      ∀ d ∈ a.args, d.Tells numbers β from tells_of_head (h.1 _) h.2
  have hNone : ∀ d ∈ ([] : List (Expr α)), d.Tells numbers β := fun d hd => absurd hd List.not_mem_nil
  induction a with
  | missing => exact ha.elim
  | unknown => exact ha.elim
  | error i d e => exact ha.elim
  | var i x => exact ⟨tellsHead_var ha, hNone⟩
  | const i v => exact ⟨tellsHead_const hNumbers ha, hNone⟩
  | call i c d ihc ihd =>
    have hArg : d.Tells numbers β := tells_of_head ((ihd ha.2).1 _) (ihd ha.2).2
    refine ⟨(ihc ha.1).1, fun e he => ?_⟩
    rcases List.mem_append.1 he with he | he
    · exact (ihc ha.1).2 e he
    · exact List.mem_singleton.1 he ▸ hArg
  | func i x b ih =>
    have hBody : b.Tells numbers β := tells_of_head ((ih ha.2).1 _) (ih ha.2).2
    -- between parentheses, a called function is read as a whole expression
    have hWhole := tellsHead_func ha hBody
    refine ⟨fun asCallee => ?_, hNone⟩
    cases asCallee with
    | false => exact hWhole
    | true =>
      exact tellsHead_called ha (Or.inl ⟨i, x, b, rfl⟩) (tells_of_head hWhole hNone)
  | letIn i x v b ihv ihb =>
    have hValue : v.Tells numbers β := tells_of_head ((ihv ha.2.1).1 _) (ihv ha.2.1).2
    have hBody : b.Tells numbers β := tells_of_head ((ihb ha.2.2).1 _) (ihb ha.2.2).2
    have hWhole := tellsHead_letIn ha hValue hBody
    refine ⟨fun asCallee => ?_, hNone⟩
    cases asCallee with
    | false => exact hWhole
    | true =>
      exact tellsHead_called ha (Or.inr ⟨i, x, v, b, rfl⟩) (tells_of_head hWhole hNone)
  | annot i v t ih =>
    have hValue : v.Tells numbers β := tells_of_head ((ih ha.1).1 _) (ih ha.1).2
    exact ⟨tellsHead_annot ha hValue, hNone⟩

/-- Expressions that agree are printed alike. -/
theorem Agrees.renderAs_eq {a : Expr α} {b : Expr β} (h : a.Agrees b) (asCallee : Bool) :
    a.renderAs asCallee = b.renderAs asCallee := by
  induction h generalizing asCallee with
  | var i j x => rfl
  | const i j v => rfl
  | func i j x _ ih => simp only [renderAs, renderAs.enclose, ih]
  | call i j _ _ ihc ihd => simp only [renderAs, ihc, ihd]
  | letIn i j x _ _ ihv ihb => simp only [renderAs, renderAs.enclose, ihv, ihb]
  | annot i j _ ht ih =>
    simp only [renderAs, ih, Polytype.render_eq_of_shape_eq (Polytype.alphaEq_iff.1 ht)]

/-- Printed expressions identify expressions up to the names of quantified variables in their
declared types, if different numbers in them are printed differently. -/
theorem render_eq_iff_agrees (hNumbers : numbers.InjOn NumberFormat.constants.render) {a : Expr α}
    {b : Expr β} (ha : a.Readable numbers) (hb : b.Readable numbers) :
    a.render = b.render ↔ a.Agrees b := by
  constructor
  · intro h
    refine (tells hNumbers ha b hb [] [] stops_nil stops_nil ?_).1
    rw [text, text, show a.renderAs false = b.renderAs false from h]
  · intro h
    exact h.renderAs_eq false

/-- A called definition, an annotated function in it and the zero below zero as its argument. The
declared types have their free name in common and differ in a quantified variable. -/
theorem render_eq_iff_agrees_called : ∃ (zero negative : Number) (a b : Program),
    zero = .finite false 0 (-1074) ∧ negative = .finite true 0 (-1074) ∧
    a = .call () (.letIn () "f" (.annot () (.func () "x" (.const () (.number zero)))
      (.all "u" .flexible .bottom (.mono (.fn (.var "u") (.var "t"))))) (.var () "f"))
      (.const () (.number negative)) ∧
    b = .call () (.letIn () "f" (.annot () (.func () "x" (.const () (.number zero)))
      (.all "v" .flexible .bottom (.mono (.fn (.var "v") (.var "t"))))) (.var () "f"))
      (.const () (.number negative)) ∧
    a.render = "(let f = (fun x -> 0 : ∀A. A → t) in f)(-0)" ∧ a ≠ b ∧ a.Agrees b := by
  -- the two zeros are printed differently
  have hNumbers : Set.InjOn NumberFormat.constants.render
      {.finite false 0 (-1074), .finite true 0 (-1074)} := by
    have hTexts : NumberFormat.constants.render (.finite false 0 (-1074)) = "0" ∧
        NumberFormat.constants.render (.finite true 0 (-1074)) = "-0" := by constructor <;> cbv
    rw [Set.injOn_pair, hTexts.1, hTexts.2]
    intro h
    exact absurd h (by decide)
  have hName (c : Char) (hc : c.isAlpha = true) : IsName (String.ofList [c]) :=
    ⟨c, [], String.toList_ofList, hc, by simp⟩
  refine ⟨_, _, _, _, rfl, rfl, rfl, rfl, by cbv, by decide, ?_⟩
  refine (render_eq_iff_agrees hNumbers ?_ ?_).1 (by cbv)
  all_goals
    refine ⟨⟨⟨hName 'f' rfl, by decide⟩, ⟨⟨⟨hName 'x' rfl, by decide⟩, by simp [Readable]⟩,
      fun x hx => ?_⟩, hName 'f' rfl, by decide⟩, by simp [Readable]⟩
    simp only [Polytype.freeVars, Monotype.freeVars, NameSet.mem_union, NameSet.mem_erase,
      NameSet.mem_singleton] at hx
    -- the only free name of the declared types
    obtain rfl : x = "t" := by grind [NameSet.not_mem_empty]
    refine ⟨hName 't' rfl, fun c => ?_⟩
    cases c <;> decide

end Expr

end Mlf
