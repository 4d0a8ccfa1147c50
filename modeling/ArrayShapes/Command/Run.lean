import ArrayShapes.Command.Config
import ArrayShapes.Command.Disk
import ArrayShapes.Command.Output

/-!
Commands, from the words of the command line to what they print.
-/

namespace ArrayShapes.Command

open Project

/-- Why a command prints nothing. -/
inductive Failure where
  | usage (reason : Usage)
  | unreadableConfig (path : String)
  | malformedConfig (path : String)
  | pattern (fault : PatternFault)
  | noSuchFile (path : String)
  | query (fault : Query.Fault)
deriving DecidableEq, Repr

def Failure.message : Failure → String
  | .usage reason => reason.message
  | .unreadableConfig path => "failed to read config: " ++ path
  | .malformedConfig path => "in " ++ path
  | .pattern fault => fault.message
  | .noSuchFile path => "no such file: " ++ path
  | .query fault => fault.message

/-- The configuration file: the one that was asked for, or else that of the project, if it has one. -/
def configPath? (disk : Disk) (args : Arguments) (root : String) : Option String :=
  match args.config with
  | some path => some (Path.join root path)
  | none =>
    let path := Path.join root Config.fileName
    if (disk.locateFile? path).isSome then some path else none

def loadConfig (disk : Disk) (path : String) : Except Failure Config :=
  match (disk.locateFile? path).bind disk.text? with
  | none => .error (.unreadableConfig path)
  | some source =>
    match Config.read? source with
    | none => .error (.malformedConfig path)
    | some config => .ok config

def loadSettings (disk : Disk) (args : Arguments) (root : String) : Except Failure Settings := do
  let config ← match configPath? disk args root with
    | some path => loadConfig disk path
    | none => pure {}
  match Settings.ofConfig config args with
  | .ok settings => .ok settings
  | .error fault => .error (.pattern fault)

/-- The files of a project, by their names from its root. -/
def projectFiles (disk : Disk) (settings : Settings) (root : String) : List (List String) :=
  match disk.locate? root with
  | none => []
  | some place => (disk.below place).filter fun names => settings.includes ("/".intercalate names)

/-- The text of a file that is not too large. -/
def sourceOf? (disk : Disk) (settings : Settings) (names : List String) : Option String :=
  match disk.bytes? names with
  | some bytes => if bytes.size ≤ settings.maxFileSize then String.fromUTF8? bytes else none
  | none => none

/-- The documents of a project and of one more file, which need not belong to it. -/
def loadStore (disk : Disk) (settings : Settings) (root : String) (file : List String) : Store :=
  let place := (disk.locate? root).getD []
  let files := (projectFiles disk settings root).map (place ++ ·)
  let files := if files.contains file then files else files ++ [file]
  .ofSources (files.filterMap fun names =>
    (sourceOf? disk settings names).map fun text => (Path.absolute names, text))

/-- Asks a question about a file. -/
def ask {α : Type} (disk : Disk) (settings : Settings) (root path : String)
    (question : Store → (uri : String) → Except Query.Fault α) : Except Failure α :=
  match disk.locateFile? path with
  | none => .error (.noSuchFile path)
  | some file =>
    match question (loadStore disk settings root file) (Path.absolute file) with
    | .ok answer => .ok answer
    | .error fault => .error (.query fault)

/-- Answers in the format that was asked for. -/
def print {α : Type} (format : OutputFormat) (line : α → String) (json : α → Json)
    (answers : List α) : String :=
  match format with
  | .text => "\n".intercalate (answers.map line)
  | .json => (Json.array (answers.map json)).pretty

/-- Runs a command in a directory. -/
def perform (disk : Disk) (directory : String) (args : Arguments) : Except Failure String := do
  let root := (args.project.map (Path.join directory)).getD directory
  let settings ← loadSettings disk args root
  match args.action with
  | .files =>
    let files := (projectFiles disk settings root).map ("/".intercalate ·)
    return print args.format id .string files
  | .complete file caret =>
    let path := Path.join directory file
    let items ← ask disk settings root path fun store uri =>
      Query.completionsAt store path uri caret settings.indices
    return print args.format Output.lineOfItem Output.ofItem items
  | .types file caret =>
    let path := Path.join directory file
    let shapes ← ask disk settings root path fun store uri => Query.shapesAt store path uri caret
    return print args.format Shape.render Output.ofShape shapes

/-- Reads a command line and runs the command in a directory. -/
def run (disk : Disk) (directory : String) (words : List String) : Except Failure String :=
  match Arguments.read words with
  | .ok args => perform disk directory args
  | .error reason => .error (.usage reason)

end ArrayShapes.Command
