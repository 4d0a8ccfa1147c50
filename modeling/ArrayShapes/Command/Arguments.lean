import ArrayShapes.Query

/-!
The words of a command line. Options may stand in front of the name of a command and behind it, and
what stands behind it wins. An option with a value takes it from the same word or from the next one.
-/

namespace ArrayShapes.Command

/-- Why the words make no command. Asking for help is one of the reasons. -/
inductive Usage where
  | help
  | version
  | nothing
  | missingCommand
  | unknownCommand
  | unknownArgument
  | missingArgument
  | invalidValue
  | malformedValue
  | valueForSwitch
  | repeated
deriving DecidableEq, Repr

def Usage.message : Usage → String
  | .help => "DisplayHelp"
  | .version => "DisplayVersion"
  | .nothing => "DisplayHelpOnMissingArgumentOrSubcommand"
  | .missingCommand => "MissingSubcommand"
  | .unknownCommand => "InvalidSubcommand"
  | .unknownArgument => "UnknownArgument"
  | .missingArgument => "MissingRequiredArgument"
  | .invalidValue => "InvalidValue"
  | .malformedValue => "ValueValidation"
  | .valueForSwitch => "TooManyValues"
  | .repeated => "ArgumentConflict"

inductive OutputFormat where
  | text
  | json
deriving DecidableEq, Repr

inductive Action where
  /-- Proposals at a caret in a file. -/
  | complete (file : String) (caret : Query.Caret)
  /-- Shapes at a caret in a file. -/
  | types (file : String) (caret : Query.Caret)
  /-- Files of the project. -/
  | files
deriving DecidableEq, Repr

structure Arguments where
  action : Action
  project : Option String
  config : Option String
  maxFileSize : Option Nat
  indices : Option Nat
  exclude : List String
  format : OutputFormat
deriving DecidableEq, Repr

namespace Arguments

/-! ### Names -/

inductive CommandName where
  | complete
  | types
  | files
deriving DecidableEq, Repr

def commandName? : String → Option CommandName
  | "complete" => some .complete
  | "types" => some .types
  | "files" => some .files
  | _ => none

/-- Where in the command line a word stands. -/
inductive Level where
  /-- In front of the name of a command. -/
  | top
  | behind (name : CommandName)
deriving DecidableEq, Repr

def Level.hasCaret : Level → Bool
  | .behind .complete | .behind .types => true
  | _ => false

/-- What a value is for. -/
inductive Target where
  | project
  | config
  | maxFileSize
  | indices
  | exclude
  | format
  | line
  | column
  | file
deriving DecidableEq, Repr

inductive Flag where
  | option (target : Target)
  | help
  | version
deriving DecidableEq, Repr

def longFlag? (level : Level) : String → Option Flag
  | "project" => some (.option .project)
  | "config" => some (.option .config)
  | "max-file-size" => some (.option .maxFileSize)
  | "list-index-suggestions" => some (.option .indices)
  | "exclude" => some (.option .exclude)
  | "format" => some (.option .format)
  | "line" => if level.hasCaret then some (.option .line) else none
  | "column" => if level.hasCaret then some (.option .column) else none
  | "help" => some .help
  | "version" => if level == .top then some .version else none
  | _ => none

def shortFlag? (level : Level) : Char → Option Flag
  | 'p' => some (.option .project)
  | 'c' => some (.option .config)
  | 'l' => if level.hasCaret then some (.option .line) else none
  | 'C' => if level.hasCaret then some (.option .column) else none
  | 'h' => some .help
  | 'V' => if level == .top then some .version else none
  | _ => none

/-! ### Words -/

inductive Word where
  /-- Two dashes: all words behind them are plain. -/
  | rest
  | long (name : String) (value : Option String)
  | short (letter : Char) (value : Option String)
  | plain (text : String)
deriving DecidableEq, Repr

def Word.ofString (word : String) : Word :=
  match word.toList with
  | ['-', '-'] => .rest
  | '-' :: '-' :: cs =>
    let name := String.ofList (cs.takeWhile (· != '='))
    match cs.dropWhile (· != '=') with
    | [] => .long name none
    | _ :: value => .long name (some (String.ofList value))
  | ['-'] => .plain word
  | '-' :: letter :: cs =>
    match cs with
    | [] => .short letter none
    | '=' :: value => .short letter (some (String.ofList value))
    | value => .short letter (some (String.ofList value))
  | _ => .plain word

/-! ### Values -/

/-- The values that have been given at one level. -/
structure Given where
  project : Option String := none
  config : Option String := none
  maxFileSize : Option Nat := none
  indices : Option Nat := none
  exclude : Option (List String) := none
  format : Option OutputFormat := none
  line : Option Nat := none
  column : Option Nat := none
  file : Option String := none
deriving DecidableEq, Repr

/-- A path has to have something in it. -/
def path (value : String) : Except Usage String :=
  if value.isEmpty then .error .invalidValue else .ok value

/-- A size that fits 64 bits. -/
def size (value : String) : Except Usage Nat :=
  match (Text.unsigned? 10 value.toList).filter (· < UInt64.size) with
  | some n => .ok n
  | none => .error .malformedValue

/-- A line or a column. Both are counted from one and fit 32 bits. -/
def ordinal (value : String) : Except Usage Nat :=
  match (Text.signed? 10 value.toList).filter fun (n : Int) => 1 ≤ n && n < UInt32.size with
  | some n => .ok n.toNat
  | none => .error .malformedValue

def outputFormat : String → Except Usage OutputFormat
  | "text" => .ok .text
  | "json" => .ok .json
  | _ => .error .invalidValue

/-- The value for something that can be given only once. -/
def once {α : Type} (given : Option α) (value : Except Usage α) : Except Usage (Option α) :=
  if given.isSome then .error .repeated else value.map some

/-- Adds a value. -/
def Given.set (g : Given) (target : Target) (value : String) : Except Usage Given :=
  match target with
  | .project => return { g with project := ← once g.project (path value) }
  | .config => return { g with config := ← once g.config (path value) }
  | .maxFileSize => return { g with maxFileSize := ← once g.maxFileSize (size value) }
  | .indices => return { g with indices := ← once g.indices (size value) }
  | .exclude => return { g with exclude := some (g.exclude.getD [] ++ value.splitOn ",") }
  | .format => return { g with format := ← once g.format (outputFormat value) }
  | .line => return { g with line := ← once g.line (ordinal value) }
  | .column => return { g with column := ← once g.column (ordinal value) }
  | .file => return { g with file := ← once g.file (path value) }

/-- What has been read at one level. The value read last is looked at only when the next one is due,
so words in between that make no sense are found first. -/
structure State where
  given : Given := {}
  pending : Option (Target × Option String) := none
  /-- Whether all words are plain from here on. -/
  plainOnly : Bool := false

namespace State

/-- Whether the next word is the value of an option. -/
def awaits (st : State) : Bool :=
  match st.pending with
  | some (_, none) => !st.plainOnly
  | _ => false

/-- The values given, the pending one included. -/
def settled (st : State) : Except Usage Given :=
  match st.pending with
  | none => .ok st.given
  | some (_, none) => .error .invalidValue
  | some (target, some value) => st.given.set target value

/-- Makes a value the pending one. -/
def await (st : State) (target : Target) (value : Option String) : Except Usage State :=
  return { st with given := ← st.settled, pending := some (target, value) }

/-- Reads an option. A value in the same word is looked at at once. -/
def flag (st : State) (f : Option Flag) (long : Bool) (value : Option String) :
    Except Usage State := do
  match f, value with
  | none, _ => .error .unknownArgument
  | some (.option target), none => st.await target none
  | some (.option target), some value =>
    let given ← (← st.settled).set target value
    return { st with given, pending := none }
  | some f, value =>
    if long && value.isSome then .error .valueForSwitch
    else
      let _ ← st.settled
      .error (if f = .help then .help else .version)

/-- Reads a word that is no option: the value that is awaited, or else the name of the file. -/
def plain (st : State) (level : Level) (text : String) : Except Usage State :=
  match st.pending with
  | some (target, none) =>
    if st.awaits then .ok { st with pending := some (target, some text) }
    else if level.hasCaret && st.given.file.isNone then .error .invalidValue
    else .error (surplus level text st.plainOnly)
  | pending =>
    let fileGiven := st.given.file.isSome || pending.any fun (target, _) => target = .file
    if level.hasCaret && !fileGiven then st.await .file (some text)
    else .error (surplus level text st.plainOnly)
where
  /-- A word that nothing has a use for. In front of a command it is taken for a command's name. -/
  surplus (level : Level) (text : String) (plainOnly : Bool) : Usage :=
    if level = .top && !(plainOnly && ((commandName? text).isSome || text = "help"))
    then .unknownCommand else .unknownArgument

end State

/-- The words behind `help`: at most one, the name of a command. -/
def helpAbout : List String → Usage
  | [] => .help
  | [word] => if (commandName? word).isSome || word = "help" then .help else .unknownCommand
  | _ => .unknownCommand

/-- Reads the words of a level, and in front of a command up to its name. -/
def readWords (level : Level) (st : State) :
    List String → Except Usage (State × Option (CommandName × List String))
  | [] => .ok (st, none)
  | word :: words => do
    if level = .top && !st.awaits && !st.plainOnly && (word = "help" || (commandName? word).isSome) then
      match commandName? word with
      | some name => return (st, some (name, words))
      | none => .error (helpAbout words)
    else if st.plainOnly then readWords level (← st.plain level word) words
    else match Word.ofString word with
      | .rest => readWords level { st with plainOnly := true } words
      | .long name value => readWords level (← st.flag (longFlag? level name) true value) words
      | .short letter value => readWords level (← st.flag (shortFlag? level letter) false value) words
      | .plain text => readWords level (← st.plain level text) words

/-! ### The whole line -/

/-- What a command is to do, with all that it requires. -/
def actionOf (name : CommandName) (g : Given) : Except Usage Action :=
  match name, g.file, g.line, g.column with
  | .files, _, _, _ => .ok .files
  | .complete, some file, some line, some column => .ok (.complete file ⟨line, column⟩)
  | .types, some file, some line, some column => .ok (.types file ⟨line, column⟩)
  | _, _, _, _ => .error .missingArgument

/-- Values given in front of a command and behind it. -/
def combine (action : Action) (outer inner : Given) : Arguments where
  action := action
  project := inner.project <|> outer.project
  config := inner.config <|> outer.config
  maxFileSize := inner.maxFileSize <|> outer.maxFileSize
  indices := inner.indices <|> outer.indices
  exclude := (inner.exclude <|> outer.exclude).getD []
  format := (inner.format <|> outer.format).getD .text

/-- Reads a command line. -/
def read (words : List String) : Except Usage Arguments := do
  match ← readWords .top {} words with
  | (st, none) => .error (if (← st.settled) = {} then .nothing else .missingCommand)
  | (st, some (name, words)) =>
    let (inner, _) ← readWords (.behind name) {} words
    let inner ← inner.settled
    let action ← actionOf name inner
    return combine action (← st.settled) inner

end Arguments

end ArrayShapes.Command
