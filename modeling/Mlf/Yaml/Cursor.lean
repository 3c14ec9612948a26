/-!
# Places in a YAML text

A cursor is a place in a text: what follows, and on which line and in which column that starts.
Blanks, line ends and comments between the parts of a text are skipped.
-/

namespace Mlf.Yaml

/-- A place in a text. -/
structure Cursor where
  rest : List Char
  /-- The line of the place, counted from 1. -/
  line : Nat
  /-- The column of the place, counted from 0. -/
  column : Nat
  /-- The line on which the part before the place ends. -/
  last : Nat

/-- Whether a character separates words on a line. -/
def isBlank (c : Char) : Bool := c == ' ' || c == '\t'

/-- Whether a text starts with a blank or a line end, or is at its end. -/
def startsBlank : List Char → Bool
  | [] => true
  | c :: _ => isBlank c || c == '\n'

/-- Skips blanks, line ends and comments; the flag tells that a comment is being skipped. -/
def skipSpace : List Char → (line column : Nat) → (inComment : Bool) → List Char × Nat × Nat
  | [], l, k, _ => ([], l, k)
  | c :: cs, l, k, inComment =>
    if c == '\n' then skipSpace cs (l + 1) 0 false
    else if inComment || isBlank c then skipSpace cs l (k + 1) inComment
    else if c == '#' then skipSpace cs l (k + 1) true
    else (c :: cs, l, k)

namespace Cursor

/-- The start of a text. -/
def start (text : List Char) : Cursor := ⟨text, 1, 0, 1⟩

/-- The place after `n` characters on the same line, which are a part of the text. -/
def advance (c : Cursor) (n : Nat) : Cursor := ⟨c.rest.drop n, c.line, c.column + n, c.line⟩

/-- The place after blanks, line ends and comments. -/
def skip (c : Cursor) : Cursor :=
  let (rest, line, column) := skipSpace c.rest c.line c.column false
  { c with rest, line, column }

/-- Whether a mark of three characters that divides documents stands at a place. -/
def atMark (c : Cursor) (mark : List Char) : Bool :=
  c.column == 0 && mark.isPrefixOf c.rest && startsBlank (c.rest.drop mark.length)

/-- Whether a document ends at a place. -/
def atEnd (c : Cursor) : Bool :=
  c.rest.isEmpty || c.atMark ['-', '-', '-'] || c.atMark ['.', '.', '.']

/-- Whether an entry of a block sequence starts at a place. -/
def atEntry (c : Cursor) : Bool :=
  match c.rest with
  | '-' :: cs => startsBlank cs
  | _ => false

/-- Whether the mark of a value of a block mapping stands at a place. -/
def atValue (c : Cursor) : Bool :=
  match c.rest with
  | ':' :: cs => startsBlank cs
  | _ => false

end Cursor

/-- The characters that may stand in a text. -/
def isAllowed (c : Char) : Bool :=
  let n := c.toNat
  n == 0x09 || n == 0x0a || (0x20 ≤ n && n ≤ 0x7e) || (0xa0 ≤ n && n ≤ 0xfffd && n != 0xfeff)
    || 0x10000 ≤ n

/-- A text with all line ends written alike. -/
def normalLines : List Char → List Char
  | '\r' :: '\n' :: cs => '\n' :: normalLines cs
  | '\r' :: cs => '\n' :: normalLines cs
  | '\x85' :: cs => '\n' :: normalLines cs
  | c :: cs => c :: normalLines cs
  | [] => []

end Mlf.Yaml
