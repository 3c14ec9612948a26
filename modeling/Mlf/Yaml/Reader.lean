import Mlf.Yaml.Node
import Mlf.Yaml.Scalar

/-!
# Reading YAML

The reader knows block and flow collections, scalars with and without quotes, comments and the marks
between documents. It reads the first document of a text. Anchors, tags, explicit keys and block
scalars are not read.

The functions take fuel, one unit for each step into a part of the text; a text has fewer parts than
characters, and `read` supplies three units for each.
-/

namespace Mlf.Yaml

/-- What a text holds. -/
inductive Stream where
  /-- No document. -/
  | empty
  /-- A first document. -/
  | document (root : Node)

/-- Reads a scalar. -/
def readScalar (inFlow : Bool) (indent : Int) (c : Cursor) : Option (Node × Cursor) :=
  match c.rest with
  | '"' :: cs => do
    let (s, d) ← scanDouble .empty 0 cs c.line (c.column + 1)
    return (.scalar c.line false s, d)
  | '\'' :: cs => do
    let (s, d) ← scanSingle .empty cs c.line (c.column + 1)
    return (.scalar c.line false s, d)
  | cs =>
    if startsPlain inFlow cs then
      let (s, d) := scanPlain inFlow (indent + 1) .empty cs c.line c.column c.line
      some (.scalar c.line true s, d)
    else none

mutual

/-- Reads a node inside a flow collection. -/
def readFlow (fuel : Nat) (c : Cursor) : Option (Node × Cursor) :=
  match fuel, c.rest with
  | 0, _ => none
  | n + 1, '{' :: _ => readFlowMap n c.line [] (c.advance 1).skip
  | n + 1, '[' :: _ => readFlowSeq n c.line [] (c.advance 1).skip
  | _ + 1, _ => readScalar true 0 c

/-- Reads the value of an entry of a flow collection, if it has one. -/
def readFlowValue (fuel : Nat) (c : Cursor) : Option (Option Node × Cursor) :=
  match fuel, c.rest with
  | 0, _ => none
  | n + 1, ':' :: _ =>
    let d := (c.advance 1).skip
    match d.rest with
    | ',' :: _ | '}' :: _ | ']' :: _ => some (some (.absent c.line), d)
    | _ => do
      let (v, d) ← readFlow n d
      return (some v, d.skip)
  | _ + 1, _ => some (none, c)

/-- Reads the entries of a flow mapping. -/
def readFlowMap (fuel : Nat) (line : Nat) (entries : List (Node × Node)) (c : Cursor) :
    Option (Node × Cursor) :=
  match fuel, c.rest with
  | 0, _ => none
  | _ + 1, '}' :: _ => some (.map line entries.reverse, c.advance 1)
  | n + 1, _ => do
    let (k, d) ← readFlow n c
    let (v, d) ← readFlowValue n d.skip
    let entries := (k, v.getD (.absent d.line)) :: entries
    match d.rest with
    | ',' :: _ => readFlowMap n line entries (d.advance 1).skip
    | '}' :: _ => readFlowMap n line entries d
    | _ => none

/-- Reads the items of a flow sequence; an item with a value is a mapping of one entry. -/
def readFlowSeq (fuel : Nat) (line : Nat) (items : List Node) (c : Cursor) :
    Option (Node × Cursor) :=
  match fuel, c.rest with
  | 0, _ => none
  | _ + 1, ']' :: _ => some (.seq line items.reverse, c.advance 1)
  | n + 1, _ => do
    let (k, d) ← readFlow n c
    let (v, d) ← readFlowValue n d.skip
    let item := match v with
      | none => k
      | some v => .map k.line [(k, v)]
    match d.rest with
    | ',' :: _ => readFlowSeq n line (item :: items) (d.advance 1).skip
    | ']' :: _ => readFlowSeq n line (item :: items) d
    | _ => none

end

/-- Reads a flow collection or a scalar in the block of a collection that is indented by `indent`.
-/
def readAtom (fuel : Nat) (indent : Int) (c : Cursor) : Option (Node × Cursor) :=
  match c.rest with
  | '{' :: _ | '[' :: _ => readFlow fuel c
  | _ => readScalar false indent c

/-- The place of the mark after a key that was read from `start` to `c`, if it is one: the mark
stands on the line of the key. -/
def keyEnd? (start c : Cursor) : Option Cursor :=
  let d := c.skip
  if d.line == start.line && d.atValue then some d else none

mutual

/-- Reads a node in the block of a collection that is indented by `indent`; only where `fresh` holds
may it be a block collection itself. -/
def readBlock (fuel : Nat) (indent : Int) (fresh : Bool) (c : Cursor) : Option (Node × Cursor) :=
  match fuel with
  | 0 => none
  | n + 1 =>
    if c.atEntry then
      if fresh then readBlockSeq n c.line c.column false [] c else none
    else do
      let (k, d) ← readAtom n indent c
      match keyEnd? c d with
      | none => return (k, d)
      | some m => if fresh then readBlockMap n c.line c.column [] k m else none

/-- Reads the value after the mark of a block mapping whose keys stand in `column`. -/
def readBlockValue (fuel : Nat) (column : Nat) (mark : Cursor) : Option (Node × Cursor) :=
  match fuel with
  | 0 => none
  | n + 1 =>
    let d := (mark.advance 1).skip
    if d.atEnd then some (.absent mark.line, d)
    else if d.line == mark.line then readBlock n column false d
    -- On a new line, deeper than the keys: a collection may start there.
    else if column < d.column then readBlock n column true d
    -- The entries of a sequence may stand right below its key.
    else if d.column == column && d.atEntry then readBlockSeq n d.line d.column true [] d
    else some (.absent mark.line, d)

/-- Reads a block mapping on from the mark after the key `k`. -/
def readBlockMap (fuel : Nat) (line column : Nat) (entries : List (Node × Node)) (k : Node)
    (mark : Cursor) : Option (Node × Cursor) :=
  match fuel with
  | 0 => none
  | n + 1 => do
    let (v, d) ← readBlockValue n column mark
    let entries := (k, v) :: entries
    let d := d.skip
    if d.atEnd || d.column < column then return (.map line entries.reverse, d)
    else if d.line == d.last || d.column != column then none
    else
      let (next, e) ← readAtom n column d
      let m ← keyEnd? d e
      readBlockMap n line column entries next m

/-- Reads a block sequence whose entries stand in `column`; `inMap` tells that they stand in the
column of the keys of a mapping around it. -/
def readBlockSeq (fuel : Nat) (line column : Nat) (inMap : Bool) (items : List Node) (c : Cursor) :
    Option (Node × Cursor) :=
  match fuel with
  | 0 => none
  | n + 1 => do
    let d := (c.advance 1).skip
    let (item, d) ←
      if d.atEnd || (d.line != c.line && d.column ≤ column) then some (.absent c.line, d)
      else readBlock n column true d
    let items := item :: items
    let d := d.skip
    if d.atEnd || d.column < column then return (.seq line items.reverse, d)
    else if d.line == d.last || d.column != column then none
    else if d.atEntry then readBlockSeq n line column inMap items d
    else if inMap then return (.seq line items.reverse, d)
    else none

end

/-- A text without the mark of the byte order that may stand in front of it. -/
def dropOrderMark : List Char → List Char
  | '\ufeff' :: cs => cs
  | cs => cs

/-- Reads the first document of a text; `none` means that the text is no YAML. -/
def read (text : String) : Option Stream :=
  let chars := normalLines (dropOrderMark text.toList)
  let fuel := 3 * chars.length + 3
  let c := (Cursor.start chars).skip
  if !chars.all isAllowed then none
  else if c.rest.isEmpty then some .empty
  else if c.atMark ['-', '-', '-'] then
    let d := (c.advance 3).skip
    if d.atEnd then some (.document (.absent c.line))
    else (readBlock fuel (-1) (d.line != c.line) d).map fun r => .document r.1
  else (readBlock fuel (-1) true c).map fun r => .document r.1

end Mlf.Yaml
