import ArrayShapes.Command.Arguments
import ArrayShapes.Command.Glob
import ArrayShapes.Command.Json
import ArrayShapes.Command.Path

/-!
The configuration of a project: what its file says, and what holds once the command line and the
defaults are taken into account.
-/

namespace ArrayShapes.Command

/-- What a configuration file sets. -/
structure Config where
  maxFileSize : Option Nat := none
  indices : Option Nat := none
  exclude : Option (List String) := none
  extensions : Option (List String) := none
deriving DecidableEq, Repr

namespace Config

/-- The name of the file that a project is configured by. -/
def fileName : String := "phz.json"

/-- A size that fits 64 bits, or nothing. -/
def size? : Json → Option (Option Nat)
  | .null => some none
  | .number n => if 0 ≤ n && n < UInt64.size then some (some n.toNat) else none
  | _ => none

def text? : Json → Option String
  | .string s => some s
  | _ => none

/-- Texts, or nothing. -/
def texts? : Json → Option (Option (List String))
  | .null => some none
  | .array items => (items.mapM text?).map some
  | _ => none

/-- Sets what a field stands for. -/
def set? (config : Config) (name : String) (value : Json) : Option Config :=
  match name with
  | "maxFileSize" => (size? value).map fun v => { config with maxFileSize := v }
  | "listIndexSuggestions" => (size? value).map fun v => { config with indices := v }
  | "exclude" => (texts? value).map fun v => { config with exclude := v }
  | "include" => (texts? value).map fun v => { config with extensions := v }
  | _ => none

def setAll? : Config → List (String × Json) → Option Config
  | config, [] => some config
  | config, (name, value) :: fields => (set? config name value).bind (setAll? · fields)

def fieldNames : List String := ["maxFileSize", "listIndexSuggestions", "exclude", "include"]

/-- A configuration is an object with some of the fields, each at most once, or an array of the
first few values in order. -/
def ofJson? : Json → Option Config
  | .object fields =>
    if (fields.map Prod.fst).Nodup then setAll? {} fields else none
  | .array items =>
    if items.length ≤ fieldNames.length then setAll? {} (fieldNames.zip items) else none
  | _ => none

def read? (source : String) : Option Config := (Json.read? source).bind ofJson?

/-- What is said about a source that is no configuration. -/
def malformed : String := "failed to parse " ++ fileName

end Config

/-- Why files cannot be excluded by some patterns. -/
inductive PatternFault where
  /-- A text is no pattern. -/
  | malformed (pattern : String)
  /-- All texts are patterns, and one of them is nested too deep to be matched. -/
  | tooDeep
deriving DecidableEq, Repr

def PatternFault.message : PatternFault → String
  | .malformed pattern => "invalid exclude pattern: " ++ pattern
  | .tooDeep => "failed to build exclude patterns"

/-- What holds for a project. -/
structure Settings where
  maxFileSize : Nat
  /-- How many indices are proposed for a list. -/
  indices : Nat
  exclude : List (String × Glob)
  /-- The extensions of the files of the project, without the dot. -/
  extensions : List String

namespace Settings

def defaultMaxFileSize : Nat := 1048576

def defaultIndices : Nat := 5

def defaultExtensions : List String := ["php"]

/-- A file extension without dots in front. -/
def bareExtension (text : String) : String := String.ofList (text.toList.dropWhile (· == '.'))

/-- Patterns with the text they are read from. The first text that is no pattern is the fault. -/
def readPatterns : List String → Except PatternFault (List (String × Glob))
  | [] => .ok []
  | text :: texts =>
    match Glob.read? text with
    | none => .error (.malformed text)
    | some glob => (readPatterns texts).map ((text, glob) :: ·)

/-- Patterns that can be matched. Their depth counts only once all of them are read. -/
def patterns (texts : List String) : Except PatternFault (List (String × Glob)) := do
  let globs ← readPatterns texts
  if globs.all fun (_, glob) => glob.depth ≤ Glob.maxDepth then return globs else throw .tooDeep

/-- What the command line says wins over the file, and the file over the defaults. Patterns on the
command line replace those of the file. -/
def ofConfig (config : Config) (args : Arguments) : Except PatternFault Settings := do
  let exclude ← patterns (if args.exclude.isEmpty then config.exclude.getD [] else args.exclude)
  return {
    maxFileSize := (args.maxFileSize <|> config.maxFileSize).getD defaultMaxFileSize
    indices := (args.indices <|> config.indices).getD defaultIndices
    exclude
    extensions := (config.extensions.map (·.map bareExtension)).getD defaultExtensions }

/-- Whether a file belongs to the project, by its path from the root. -/
def includes (s : Settings) (path : String) : Bool :=
  ((Path.extension? path).any fun e => s.extensions.any (Text.sameName · e)) &&
    !s.exclude.any fun (_, glob) => glob.isMatch path

end Settings

end ArrayShapes.Command
