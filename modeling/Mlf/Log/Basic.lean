import Mlf.Text.Quoted

/-!
# The log

A log is a sequence of lines of the form `level=… msg=… key=value …`. Warnings and errors are always
written. Other records belong to sections, which they name in attributes, and are written if one of
their sections is enabled. An enabled section stands for all sections that start with it.
-/

namespace Mlf.Log

/-- The weight of a record. -/
inductive Level where
  | debug
  | info
  | warn
  | error
deriving DecidableEq, Repr

/-- The written name of a level. -/
def Level.text : Level → String
  | debug => "DEBUG"
  | info => "INFO"
  | warn => "WARN"
  | error => "ERROR"

/-- Whether records of the level are written whatever their section. -/
def Level.urgent : Level → Bool
  | debug | info => false
  | warn | error => true

/-- A named value: the groups that it stands in, outermost first, its key, and its text. -/
structure Attr where
  groups : List String
  key : String
  value : String
deriving DecidableEq, Repr

/-- A value outside of groups. -/
def Attr.plain (key value : String) : Attr := ⟨[], key, value⟩

/-- The key that names a section. -/
def sectionKey : String := "section"

/-- The key of values that are left out. -/
def timeKey : String := "time"

/-- Something to be written to the log. -/
structure Record where
  level : Level
  message : String
  attrs : List Attr
deriving DecidableEq, Repr

/-- Whether a character may stand in a text that is written without quotes: any printable one other
than the space, the equals sign, the double quote and the replacement character; and the delete
character. -/
def isBare (c : Char) : Bool :=
  c == '\x7f' ||
    (Text.isPrintable c && c != ' ' && c != '=' && c != '"' && c != '\ufffd')

/-- Whether a text cannot be written without quotes. -/
def needsQuotes (s : String) : Bool := s.isEmpty || !s.toList.all isBare

/-- A text, in quotes where needed. -/
def bare (s : String) : String := if needsQuotes s then Text.quote s else s

/-- A key with the groups in front of it, in quotes where needed. -/
def Attr.path (a : Attr) : String :=
  let front := String.join (a.groups.map (· ++ "."))
  if needsQuotes a.key || !front.toList.all isBare then Text.quote (front ++ a.key)
  else front ++ a.key

/-- A value as it is written. -/
def Attr.render (a : Attr) : String := a.path ++ "=" ++ bare a.value

/-- A writer of records: the sections, attributes and groups that are attached to all of them. -/
structure Logger where
  sections : List String
  attrs : List Attr
  groups : List String
deriving DecidableEq, Repr

namespace Logger

/-- The sections that attributes name. -/
def sectionsOf (attrs : List Attr) : List String :=
  (attrs.filter fun a => a.groups.isEmpty && a.key == sectionKey).map (·.value)

/-- The logger that attaches nothing. -/
def plain : Logger := ⟨[], [], []⟩

/-- Attaches attributes. -/
def withAttrs (l : Logger) (attrs : List Attr) : Logger :=
  { l with
    sections := l.sections ++ sectionsOf attrs
    attrs := l.attrs ++ attrs.map fun a => { a with groups := l.groups ++ a.groups } }

/-- Opens a group for later attributes; a group without a name is none. -/
def withGroup (l : Logger) (name : String) : Logger :=
  if name.isEmpty then l else { l with groups := l.groups ++ [name] }

/-- Whether a record is written when sections are enabled. -/
def accepts (l : Logger) (enabled : List String) (r : Record) : Bool :=
  r.level.urgent ||
    (l.sections ++ sectionsOf r.attrs).any fun s => enabled.any fun e => e.isPrefixOf s

/-- The line for a record. -/
def line (l : Logger) (r : Record) : String :=
  let attrs := (l.withAttrs r.attrs).attrs.filter (·.key != timeKey)
  " ".intercalate
    (("level=" ++ r.level.text) :: ("msg=" ++ bare r.message) :: attrs.map Attr.render)

/-- The line for a record, if it is written when sections are enabled. -/
def line? (l : Logger) (enabled : List String) (r : Record) : Option String :=
  if l.accepts enabled r then some (l.line r) else none

end Logger

end Mlf.Log
