import Mlf.Text.Quoted

/-!
# The command line

The command takes the names of documents and, before, between and after them, flags. A flag is
written `--flag` or `--flag=value`, and one that needs a value also `--flag value`. After `--` there
are only names. The first fault of a command line, from left to right, is its error.
-/

namespace Mlf.Check

/-- The choices of the command line. -/
structure Options where
  /-- Whether a fault of inference itself stops the command. -/
  debug : Bool
  /-- Whether typed trees are shown in full. -/
  dump : Bool
  /-- Whether the type of every part is shown. -/
  types : Bool
  /-- When diagnostics are coloured: `auto`, `always` or `never`. -/
  color : String
  /-- The sections that are logged. -/
  sections : List String
deriving DecidableEq, Repr

/-- The choices without flags. -/
def Options.standard : Options := ⟨false, false, false, "auto", []⟩

/-- A flag that is on or off. -/
inductive Switch where
  | debug
  | dump
  | types
deriving DecidableEq, Repr

/-- A flag that needs a value. -/
inductive Setting where
  | color
  | logSection
deriving DecidableEq, Repr

/-- A flag as it is written, without dashes. -/
def Switch.text : Switch → String
  | debug => "debug"
  | dump => "dump"
  | types => "types"

/-- A flag as it is written, without dashes. -/
def Setting.text : Setting → String
  | color => "color"
  | logSection => "log-section"

/-- The switch with a name. -/
def Switch.ofText? (s : String) : Option Switch :=
  [Switch.debug, .dump, .types].find? (·.text == s)

/-- The setting with a name. -/
def Setting.ofText? (s : String) : Option Setting :=
  [Setting.color, .logSection].find? (·.text == s)

namespace Options

/-- Turns a switch on or off. -/
def turn (o : Options) (s : Switch) (on : Bool) : Options :=
  match s with
  | .debug => { o with debug := on }
  | .dump => { o with dump := on }
  | .types => { o with types := on }

/-- Gives a setting a value; sections add up. -/
def set (o : Options) (s : Setting) (value : String) : Options :=
  match s with
  | .color => { o with color := value }
  | .logSection =>
    { o with sections := o.sections ++ if value.isEmpty then [] else value.splitOn "," }

end Options

/-- What is wrong with a command line. -/
inductive UsageError where
  | badFlag (arg : String)
  | unknownFlag (name : String)
  | unknownShorthand (arg : String)
  | missingValue (flag : Setting)
  | badSwitch (flag : Switch) (value : String)
  | noDocuments
  | unknownColor (mode : String)
deriving DecidableEq, Repr

/-- The first byte of a text as a character. -/
def firstByte (s : String) : Char :=
  match s.toUTF8.toList with
  | b :: _ => Char.ofNat b.toNat
  | [] => ' '

/-- A character in single quotes. -/
def quoteChar (c : Char) : String :=
  let inner := match c with
    | '\'' => ['\\', '\'']
    | '"' => ['"']
    | c => Text.escape c
  String.ofList ('\'' :: inner ++ ['\''])

/-- The wording of an error. -/
def UsageError.message : UsageError → String
  | badFlag s => "bad flag syntax: " ++ s
  | unknownFlag x => "unknown flag: --" ++ x
  | unknownShorthand s =>
    "unknown shorthand flag: " ++ quoteChar (firstByte (s.drop 1).copy) ++ " in " ++ s
  | missingValue f => "flag needs an argument: --" ++ f.text
  | badSwitch f v =>
    "invalid argument " ++ Text.quote v ++ " for " ++ Text.quote ("--" ++ f.text)
      ++ " flag: strconv.ParseBool: parsing " ++ Text.quote v ++ ": invalid syntax"
  | noDocuments => "requires at least 1 arg(s), only received 0"
  | unknownColor m => "unknown color mode " ++ Text.quote m

/-- The truth value of a switch. -/
def switchValue? (s : String) : Option Bool :=
  if s ∈ ["1", "t", "T", "true", "TRUE", "True"] then some true
  else if s ∈ ["0", "f", "F", "false", "FALSE", "False"] then some false
  else none

/-- A command line. -/
structure CommandLine where
  options : Options
  /-- The names of the documents, in order. -/
  paths : List String
deriving DecidableEq, Repr

namespace CommandLine

/-- A command line without arguments. -/
def empty : CommandLine := ⟨.standard, []⟩

/-- An argument with dashes, apart: the name of the flag, and the value after an equals sign. -/
def splitFlag (s : String) : String × Option String :=
  match ((s.drop 2).copy).splitOn "=" with
  | [] => ("", none)
  | [x] => (x, none)
  | x :: v => (x, some ("=".intercalate v))

/-- Takes in an argument with two dashes. A setting without a value waits for the next argument. -/
def takeFlag (c : CommandLine) (s : String) : Except UsageError (CommandLine × Option Setting) :=
  let (x, value) := splitFlag s
  if x.isEmpty || x.startsWith "-" then throw (.badFlag s)
  else match Switch.ofText? x, Setting.ofText? x with
    | some f, _ =>
      match switchValue? (value.getD "true") with
      | some b => return ({ c with options := c.options.turn f b }, none)
      | none => throw (.badSwitch f (value.getD "true"))
    | none, some f =>
      match value with
      | some v => return ({ c with options := c.options.set f v }, none)
      | none => return (c, some f)
    | none, none => throw (.unknownFlag x)

/-- Takes in arguments, the first one as the value of a setting that waits for it. -/
def takeArgs (c : CommandLine) :
    (waiting : Option Setting) → List String → Except UsageError CommandLine
  | none, [] => return c
  | some f, [] => throw (.missingValue f)
  | some f, v :: rest => takeArgs { c with options := c.options.set f v } none rest
  | none, s :: rest => do
    if s = "--" then
      return { c with paths := c.paths ++ rest }
    else if s.startsWith "--" then
      let (c, waiting) ← takeFlag c s
      takeArgs c waiting rest
    -- A dash alone is a name.
    else if s.startsWith "-" && s ≠ "-" then
      throw (.unknownShorthand s)
    else
      takeArgs { c with paths := c.paths ++ [s] } none rest

/-- Reads a command line, which names a document at least. -/
def parse (args : List String) : Except UsageError CommandLine := do
  let c ← takeArgs empty none args
  if c.paths.isEmpty then throw .noDocuments else return c

end CommandLine

end Mlf.Check
