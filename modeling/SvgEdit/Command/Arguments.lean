import SvgEdit.Files.Path
import SvgEdit.Number.Reading
import SvgEdit.Shrink.Level

/-!
# Command lines

A command line names a command, with options before and after the name. Words are taken one by one:
an option waits for its value, and what was given is looked at when the next option or another kind
of word comes, so of two faults the one that is looked at first is told. After two hyphens all words
are inputs. `Arguments.parse` gives what is asked for, or why nothing can be done.
-/
namespace SvgEdit

/-- Why a command line does not lead to a command being run. -/
inductive Refusal
  | helpWanted
  | versionWanted
  | nothingGiven
  | noCommand
  | unknownCommand
  | missingArgument
  | conflict
  | badValue
  | badNumber
  | unknownOption
  | unwantedValue
deriving DecidableEq, Repr

/-! ## Commands and options -/

inductive CommandName
  | select
  | transform
  | optimize
deriving DecidableEq, Repr

/-- A command by its name or its first letter. -/
def CommandName.ofText? (s : Text) : Option CommandName :=
  match s.string with
  | "select" | "s" => some select
  | "transform" | "t" => some transform
  | "optimize" | "o" => some optimize
  | _ => none

/-- The word that asks for help like a command. -/
def helpCommand : Text := ['h', 'e', 'l', 'p']

/-- When the log is coloured. -/
inductive ColorChoice
  | auto
  | always
  | never
deriving DecidableEq, Repr

def ColorChoice.ofText? (s : Text) : Option ColorChoice :=
  match s.string with
  | "auto" => some auto
  | "always" => some always
  | "never" => some never
  | _ => none

inductive OptionName
  | color
  | config
  | help
  | version
  | output
  | verbose
  | pretty
  | request
  | requestFile
  | report
  | level
  | precision
deriving DecidableEq, Repr

namespace OptionName

def long : OptionName → Text
  | color => "color".toList
  | config => "config".toList
  | help => "help".toList
  | version => "version".toList
  | output => "output".toList
  | verbose => "verbose".toList
  | pretty => "pretty".toList
  | request => "request".toList
  | requestFile => "request-file".toList
  | report => "report".toList
  | level => "level".toList
  | precision => "precision".toList

def short? : OptionName → Option Char
  | color => none
  | config => some 'C'
  | help => some 'h'
  | version => some 'V'
  | output => some 'o'
  | verbose => some 'V'
  | pretty => some 'p'
  | request => some 't'
  | requestFile => some 'f'
  | report => some 'r'
  | level => some 'l'
  | precision => some 'p'

def takesValue : OptionName → Bool
  | help | version | verbose | pretty | report => false
  | _ => true

/-- The options that may stand anywhere. -/
def everywhere : List OptionName := [color, config, help]

/-- The options before the name of a command. -/
def general : List OptionName := everywhere ++ [version]

/-- The options of a command. -/
def ofCommand : CommandName → List OptionName
  | .select => everywhere ++ [output, verbose, pretty]
  | .transform => everywhere ++ [output, verbose, request, requestFile, report, pretty]
  | .optimize => everywhere ++ [output, verbose, level, precision]

end OptionName

/-! ## What is given -/

/-- What the options and inputs gave so far. -/
structure Given where
  color : Option ColorChoice := none
  config : Option FilePath := none
  selector : Option Text := none
  paths : List FilePath := []
  output : Option FilePath := none
  request : Option Text := none
  requestFile : Option FilePath := none
  level : Option Shrink.Level := none
  precision : Option Nat := none
  verbose : Bool := false
  pretty : Bool := false
  report : Bool := false
deriving DecidableEq, Repr

namespace Given

/-- A value that may be given once. -/
def once {α : Type} (old : Option α) (value : Except Refusal α) : Except Refusal (Option α) :=
  if old.isSome then .error .conflict else value.map some

/-- A path is not empty. -/
def readPath (s : Text) : Except Refusal FilePath := if s = [] then .error .badValue else .ok s

/-- A value out of a list of names. -/
def readName {α : Type} (found : Option α) : Except Refusal α :=
  match found with
  | some value => .ok value
  | none => .error .badValue

/-- A count of places has eight bits. -/
def readPrecision (s : Text) : Except Refusal Nat :=
  match readInteger? s with
  | some n => if 0 ≤ n ∧ n < 256 then .ok n.toNat else .error .badNumber
  | none => .error .badNumber

/-- Takes an option with its value. -/
def withValue (g : Given) (o : OptionName) (v : Text) : Except Refusal Given :=
  match o with
  | .color => (once g.color (readName (ColorChoice.ofText? v))).map ({ g with color := · })
  | .config => (once g.config (readPath v)).map ({ g with config := · })
  | .output => (once g.output (readPath v)).map ({ g with output := · })
  | .request => (once g.request (.ok v)).map ({ g with request := · })
  | .requestFile => (once g.requestFile (readPath v)).map ({ g with requestFile := · })
  | .level =>
    (once g.level (readName (Shrink.Level.ofName? (v.string)))).map ({ g with level := · })
  | .precision => (once g.precision (readPrecision v)).map ({ g with precision := · })
  | _ => .error .unwantedValue

/-- Takes an option that has no value. -/
def withFlag (g : Given) (o : OptionName) : Except Refusal Given :=
  match o with
  | .help => .error .helpWanted
  | .version => .error .versionWanted
  | .verbose => if g.verbose then .error .conflict else .ok { g with verbose := true }
  | .pretty => if g.pretty then .error .conflict else .ok { g with pretty := true }
  | .report => if g.report then .error .conflict else .ok { g with report := true }
  | _ => .error .badValue

end Given

/-! ## Words -/

/-- How a word of a command line looks. -/
inductive Word
  | plain
  /-- Two hyphens alone. -/
  | ending
  | long (name : Text) (value : Option Text)
  | short (letters : Text)
deriving DecidableEq, Repr

/-- A long option, with a value after an equals sign. -/
def Word.ofLong (s : Text) : Word :=
  match Text.cut? ['='] s with
  | some (name, value) => .long name (some value)
  | none => .long s none

def Word.ofText (s : Text) : Word :=
  match s with
  | ['-', '-'] => .ending
  | '-' :: '-' :: s => .ofLong s
  | ['-'] => .plain
  | '-' :: letters => .short letters
  | _ => .plain

/-- What was read and is not looked at yet. -/
inductive Pending
  | nothing
  /-- An option waits for its value. -/
  | waiting (o : OptionName)
  | value (o : OptionName) (v : Text)
  | selector (s : Text)
  | paths (ps : List FilePath)
deriving DecidableEq, Repr

/-- How far a command line is read. -/
structure Progress where
  given : Given := {}
  pending : Pending := .nothing
  hasSelector : Bool := false
deriving DecidableEq, Repr

namespace Progress

/-- Looks at what is pending. -/
def settle (p : Progress) : Except Refusal Given :=
  match p.pending with
  | .nothing => .ok p.given
  | .waiting _ => .error .badValue
  | .value o v => p.given.withValue o v
  | .selector s => .ok { p.given with selector := some s }
  | .paths ps => do
    let ps ← ps.mapM Given.readPath
    pure { p.given with paths := p.given.paths ++ ps }

/-- Looks at what is pending and lets something else wait. -/
def wait (p : Progress) (pending : Pending) : Except Refusal Progress := do
  pure { p with given := ← p.settle, pending }

/-- Takes an option with the value that is attached to it. -/
def attach (p : Progress) (o : OptionName) (v : Text) : Except Refusal Progress := do
  let given ← p.settle
  pure { p with given := ← given.withValue o v, pending := .nothing }

/-- Takes an option that has no value. -/
def flag (p : Progress) (o : OptionName) : Except Refusal Progress := do
  let given ← p.settle
  pure { p with given := ← given.withFlag o, pending := .nothing }

/-- Takes a long option. -/
def long (options : List OptionName) (name : Text) (value : Option Text) (p : Progress) :
    Except Refusal Progress :=
  match options.find? (·.long = name) with
  | none => .error .unknownOption
  | some o =>
    match o.takesValue, value with
    | true, some v => p.attach o v
    | true, none => p.wait (.waiting o)
    | false, some _ => .error .unwantedValue
    | false, none => p.flag o

/-- Takes short options; what follows one that takes a value is its value. -/
def short (options : List OptionName) : Text → Progress → Except Refusal Progress
  | [], p => .ok p
  | c :: letters, p =>
    match options.find? (·.short? = some c) with
    | none => .error .unknownOption
    | some o =>
      if o.takesValue then
        match letters with
        | [] => p.wait (.waiting o)
        | '=' :: v => p.attach o v
        | v => p.attach o v
      else do short options letters (← p.flag o)

/-- Takes a selector or an input. -/
def positional (command : CommandName) (s : Text) (p : Progress) : Except Refusal Progress :=
  if command ≠ .optimize ∧ ¬ p.hasSelector then do
    pure { ← p.wait (.selector s) with hasSelector := true }
  else
    match p.pending with
    | .paths ps => .ok { p with pending := .paths (ps ++ [s]) }
    | _ => p.wait (.paths [s])

/-- Takes a word that is no option. -/
def plain (command : CommandName) (s : Text) (p : Progress) : Except Refusal Progress :=
  match p.pending with
  | .waiting o => .ok { p with pending := .value o s }
  | _ => p.positional command s

/-- Takes the words after the name of a command. -/
def words (command : CommandName) : List Text → Progress → Except Refusal Progress
  | [], p => .ok p
  | s :: rest, p => do
    match Word.ofText s with
    | .ending => rest.foldlM (fun p s => p.positional command s) p
    | .long name value => words command rest (← p.long (OptionName.ofCommand command) name value)
    | .short letters => words command rest (← p.short (OptionName.ofCommand command) letters)
    | .plain => words command rest (← p.plain command s)

end Progress

/-! ## Before the command -/

/-- Help for the command that is named, or for all. -/
def helpFor : List Text → Refusal
  | [] => .helpWanted
  | [name] =>
    if (CommandName.ofText? name).isSome ∨ name = helpCommand then .helpWanted else .unknownCommand
  | _ => .unknownCommand

/-- The first word after two hyphens: no command may stand there. -/
def afterEnding (s : Text) : Refusal :=
  if (CommandName.ofText? s).isSome ∨ s = helpCommand then .unknownOption else .unknownCommand

/-- Takes the words up to the name of a command; gives the command and the words after it. -/
def generalWords : List Text → Progress →
    Except Refusal (Progress × Option (CommandName × List Text))
  | [], p => .ok (p, none)
  | s :: rest, p => do
    match Word.ofText s with
    | .ending =>
      match rest with
      | [] => pure (p, none)
      | s :: _ => .error (afterEnding s)
    | .long name value => generalWords rest (← p.long OptionName.general name value)
    | .short letters => generalWords rest (← p.short OptionName.general letters)
    | .plain =>
      match p.pending with
      | .waiting o => generalWords rest { p with pending := .value o s }
      | _ =>
        if s = helpCommand then .error (helpFor rest)
        else
          match CommandName.ofText? s with
          | some command => pure (p, some (command, rest))
          | none => .error .unknownCommand

/-! ## Arguments -/

/-- Where a request is written. -/
inductive RequestSource
  | text (s : Text)
  | file (p : FilePath)
deriving DecidableEq, Repr

inductive Command
  | select (selector : Text)
  | transform (selector : Text) (request : RequestSource) (report : Bool)
  | optimize (level : Option Shrink.Level) (precision : Option Nat)
deriving DecidableEq, Repr

/-- What a command line asks for. -/
structure Arguments where
  color : ColorChoice
  config : FilePath
  paths : List FilePath
  output : Option FilePath
  verbose : Bool
  pretty : Bool
  command : Command
deriving DecidableEq, Repr

/-- The command that is asked for, if all that it needs is given. -/
def Given.command (g : Given) : CommandName → Except Refusal Command
  | .select =>
    match g.selector with
    | some selector => .ok (.select selector)
    | none => .error .missingArgument
  | .transform =>
    match g.selector, g.request, g.requestFile with
    | _, some _, some _ => .error .conflict
    | some selector, some s, none => .ok (.transform selector (.text s) g.report)
    | some selector, none, some p => .ok (.transform selector (.file p) g.report)
    | _, _, _ => .error .missingArgument
  | .optimize => .ok (.optimize g.level g.precision)

/-- The name of a configuration file. -/
def defaultConfig : FilePath := "svgsel.toml".toList

/--
Reads a command line. What stands before the name of the command is looked at last, except for what
was settled there by a later word.
-/
def Arguments.parse (words : List Text) : Except Refusal Arguments := do
  let (before, called) ← generalWords words {}
  match called with
  | none =>
    let given ← before.settle
    .error (if given.color.isNone ∧ given.config.isNone then .nothingGiven else .noCommand)
  | some (name, rest) =>
    let given ← (← Progress.words name rest {}).settle
    let command ← given.command name
    let outer ← before.settle
    pure {
      color := (given.color.or outer.color).getD .auto
      config := (given.config.or outer.config).getD defaultConfig
      paths := given.paths
      output := given.output
      verbose := given.verbose
      pretty := given.pretty
      command }

end SvgEdit
