import Mlf.Number.Basic
import Mlf.Yaml.Cursor

/-!
# YAML scalars

How scalars are written, with and without quotes, and what the ones without quotes stand for:
nothing, a truth value, an integer, a number or a text.

Inside a scalar, blanks around a line end are dropped, one line end counts as a space, and further
ones stay line ends.
-/

namespace Mlf.Yaml

/-! ## Written scalars -/

/-- Text under way: what is read, backwards, then blanks and line ends that count only if more
follows. -/
structure Folded where
  chars : List Char
  blanks : List Char
  breaks : Nat

namespace Folded

/-- Nothing read yet. -/
def empty : Folded := ⟨[], [], 0⟩

/-- What is read, backwards, with the blanks and line ends at its end. -/
def flush (f : Folded) : List Char :=
  if f.breaks = 0 then f.blanks ++ f.chars
  else if f.breaks = 1 then ' ' :: f.chars
  else List.replicate (f.breaks - 1) '\n' ++ f.chars

/-- Reads a blank. -/
def blank (f : Folded) (c : Char) : Folded :=
  if f.breaks = 0 then { f with blanks := c :: f.blanks } else f

/-- Reads a line end. -/
def lineEnd (f : Folded) : Folded := { f with blanks := [], breaks := f.breaks + 1 }

/-- Reads a character that counts. -/
def push (f : Folded) (c : Char) : Folded := ⟨c :: f.flush, [], 0⟩

/-- The text without blanks and line ends at its end. -/
def trimmed (f : Folded) : String := String.ofList f.chars.reverse

/-- The text with the blanks and line ends at its end. -/
def whole (f : Folded) : String := String.ofList f.flush.reverse

/-- Whether blanks or line ends stand before the next character. -/
def atGap (f : Folded) : Bool := f.breaks != 0 || !f.blanks.isEmpty

end Folded

/-- Whether a character cannot start a scalar without quotes on its own. -/
def isIndicator (c : Char) : Bool :=
  c ∈ ['-', '?', ':', ',', '[', ']', '{', '}', '#', '&', '*', '!', '|', '>', '\'', '"', '%', '@',
    '\x60']

/-- Whether a scalar without quotes starts here. -/
def startsPlain (inFlow : Bool) : List Char → Bool
  | [] => false
  | c :: cs =>
    (!isIndicator c && !startsBlank [c])
      || (c == '-' && !(cs.head?.any isBlank))
      || (!inFlow && (c == '?' || c == ':') && !startsBlank cs)

/-- Whether a scalar without quotes ends before a character `c` that is no blank. -/
def endsPlain (inFlow : Bool) (indent : Int) (f : Folded) (column : Nat) (c : Char)
    (cs : List Char) : Bool :=
  (f.breaks != 0 && ((!inFlow && column < indent) || (Cursor.mk (c :: cs) 0 column 0).atEnd))
    || (f.atGap && c == '#')
    || (c == ':' && startsBlank cs)
    || (inFlow && c ∈ [',', '?', '[', ']', '{', '}'])

/-- Reads a scalar without quotes, whose further lines are indented by `indent` columns at least. -/
def scanPlain (inFlow : Bool) (indent : Int) (f : Folded) :
    List Char → (line column last : Nat) → String × Cursor
  | [], l, k, last => (f.trimmed, ⟨[], l, k, last⟩)
  | c :: cs, l, k, last =>
    if c == '\n' then scanPlain inFlow indent f.lineEnd cs (l + 1) 0 last
    else if isBlank c then scanPlain inFlow indent (f.blank c) cs l (k + 1) last
    else if endsPlain inFlow indent f k c cs then (f.trimmed, ⟨c :: cs, l, k, last⟩)
    else scanPlain inFlow indent (f.push c) cs l (k + 1) l

/-- Reads the rest of a scalar in single quotes, in which a quote is written twice. -/
def scanSingle (f : Folded) : List Char → (line column : Nat) → Option (String × Cursor)
  | [], _, _ => none
  | '\'' :: '\'' :: cs, l, k => scanSingle (f.push '\'') cs l (k + 2)
  | '\'' :: cs, l, k => some (f.whole, ⟨cs, l, k + 1, l⟩)
  | '\n' :: cs, l, _ => scanSingle f.lineEnd cs (l + 1) 0
  | c :: cs, l, k =>
    if isBlank c then scanSingle (f.blank c) cs l (k + 1) else scanSingle (f.push c) cs l (k + 1)

/-- The character that an escape of one letter stands for. -/
def escaped? : Char → Option Char
  | '0' => some '\x00'
  | 'a' => some '\x07'
  | 'b' => some '\x08'
  | 't' | '\t' => some '\t'
  | 'n' => some '\n'
  | 'v' => some '\x0b'
  | 'f' => some '\x0c'
  | 'r' => some '\r'
  | 'e' => some '\x1b'
  | ' ' => some ' '
  | '"' => some '"'
  | '\'' => some '\''
  | '/' => some '/'
  | '\\' => some '\\'
  | 'N' => some '\x85'
  | '_' => some '\xa0'
  | 'L' => some '\u2028'
  | 'P' => some '\u2029'
  | _ => none

/-- The number of hexadecimal digits of an escape by code. -/
def codeLength? : Char → Option Nat
  | 'x' => some 2
  | 'u' => some 4
  | 'U' => some 8
  | _ => none

/-- The value of a digit in a base up to sixteen. -/
def digit? (base : Nat) (c : Char) : Option Nat :=
  let n := c.toNat
  let v :=
    if '0' ≤ c ∧ c ≤ '9' then n - '0'.toNat
    else if 'a' ≤ c ∧ c ≤ 'f' then n - 'a'.toNat + 10
    else if 'A' ≤ c ∧ c ≤ 'F' then n - 'A'.toNat + 10
    else base
  if v < base then some v else none

/-- The value of digits in a base. -/
def digits? (base : Nat) (cs : List Char) : Option Nat :=
  cs.foldlM (fun n c => (digit? base c).map (n * base + ·)) 0

/-- The character with a code. -/
def charOfCode? (n : Nat) : Option Char := if n.isValidChar then some (Char.ofNat n) else none

/-- The character that an escape of several characters stands for, and how many there are. -/
def escapedCode? (c : Char) (cs : List Char) : Option (Char × Nat) := do
  let size ← codeLength? c
  if cs.length < size then none
  else
    let n ← digits? 16 (cs.take size)
    return (← charOfCode? n, size)

/-- Reads the rest of a scalar in double quotes; `skip` characters of it are read already, as the
code of an escape or as the start of a line after an escaped line end. -/
def scanDouble (f : Folded) (skip : Nat) :
    List Char → (line column : Nat) → Option (String × Cursor)
  | [], _, _ => none
  | c :: cs, l, k =>
    match skip, c, cs with
    | skip + 1, _, _ => scanDouble f skip cs l (k + 1)
    | 0, '"', _ => some (f.whole, ⟨cs, l, k + 1, l⟩)
    | 0, '\n', _ => scanDouble f.lineEnd 0 cs (l + 1) 0
    | 0, '\\', '\n' :: ds =>
      scanDouble ⟨f.flush, [], 0⟩ (1 + (ds.takeWhile isBlank).length) cs (l + 1) 0
    | 0, '\\', d :: ds =>
      match escaped? d, escapedCode? d ds with
      | some e, _ => scanDouble (f.push e) 1 cs l (k + 1)
      | none, some (e, size) => scanDouble (f.push e) (size + 1) cs l (k + 1)
      | none, none => none
    | 0, _, _ =>
      if isBlank c then scanDouble (f.blank c) 0 cs l (k + 1)
      else scanDouble (f.push c) 0 cs l (k + 1)

/-! ## What scalars stand for -/

/-- The meaning of a scalar. -/
inductive Scalar where
  | null
  | bool (value : Bool)
  | int (value : Int)
  | float (value : Number)
  | text

namespace Scalar

/-- The written name of the kind of a scalar. -/
def tag : Scalar → String
  | null => "!!null"
  | bool _ => "!!bool"
  | int _ => "!!int"
  | float _ => "!!float"
  | text => "!!str"

/-- Texts with a meaning of their own. -/
def ofWord? (s : String) : Option Scalar :=
  if s ∈ ["", "~", "null", "Null", "NULL"] then some null
  else if s ∈ ["true", "True", "TRUE"] then some (bool true)
  else if s ∈ ["false", "False", "FALSE"] then some (bool false)
  else if s ∈ [".nan", ".NaN", ".NAN"] then some (float .nan)
  else if s ∈ [".inf", ".Inf", ".INF", "+.inf", "+.Inf", "+.INF"] then
    some (float (.infinite false))
  else if s ∈ ["-.inf", "-.Inf", "-.INF"] then some (float (.infinite true))
  else none

/-- Whether there is a minus sign, and what follows a sign. -/
def splitSign : List Char → Bool × List Char
  | '-' :: cs => (true, cs)
  | '+' :: cs => (false, cs)
  | cs => (false, cs)

/-- The base of a natural number from how it starts, and its digits. -/
def splitBase : List Char → Nat × List Char
  | '0' :: b :: d :: cs =>
    if b == 'x' || b == 'X' then (16, d :: cs)
    else if b == 'o' || b == 'O' then (8, d :: cs)
    else if b == 'b' || b == 'B' then (2, d :: cs)
    else (8, b :: d :: cs)
  | '0' :: cs => (8, cs)
  | cs => (10, cs)

/-- An integer of at most 64 bits, with a sign or without. -/
def integer? (cs : List Char) : Option Int := do
  let (negative, body) := splitSign cs
  if body.isEmpty then none
  else
    let (base, ds) := splitBase body
    let n ← digits? base ds
    let signed := body.length != cs.length
    let limit :=
      if negative then Nat.pow 2 63
      else if signed then Nat.pow 2 63 - 1
      else Nat.pow 2 64 - 1
    if n ≤ limit then return if negative then -n else n else none

/-- The digits at the start of a text, and the rest. -/
def splitDigits (cs : List Char) : List Char × List Char := cs.span Char.isDigit

/-- An exponent, or nothing at all. -/
def exponent? : List Char → Option Int
  | [] => some 0
  | c :: cs =>
    if c == 'e' || c == 'E' then
      let (negative, ds) := splitSign cs
      if ds.isEmpty then none
      else (digits? 10 ds).map fun n => if negative then -(n : Int) else n
    else none

/-- A decimal number with or without a point and an exponent, with a digit before or after the
point. -/
def decimal? (cs : List Char) : Option Number := do
  let (negative, body) := splitSign cs
  let (whole, rest) := splitDigits body
  let (fraction, rest) := match rest with
    | '.' :: ds => splitDigits ds
    | _ => ([], rest)
  if whole.isEmpty && fraction.isEmpty then none
  else
    let e ← exponent? rest
    let n ← digits? 10 (whole ++ fraction)
    let x := Number.ofDecimal negative n (e - fraction.length)
    if x.isFinite then return x else none

/-- The meaning of a scalar without quotes. -/
def ofPlain (s : String) : Scalar :=
  match ofWord? s, s.toList with
  | some v, _ => v
  | none, c :: cs =>
    if c == '.' then ((decimal? (c :: cs)).map float).getD text
    else if c.isDigit || c == '+' || c == '-' then
      let plain := (c :: cs).filter (· != '_')
      match integer? plain, decimal? plain with
      | some i, _ => int i
      | none, some x => float x
      | none, none => text
    else text
  | none, [] => text

end Scalar

end Mlf.Yaml
