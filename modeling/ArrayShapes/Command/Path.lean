/-!
Paths as text. Names are divided by slashes, and a path that starts with one is absolute.
-/

namespace ArrayShapes.Command.Path

def isAbsolute (path : String) : Bool := path.toList.head? == some '/'

/-- A path as seen from the directory `base`. -/
def join (base path : String) : String :=
  if isAbsolute path then path
  else if base.isEmpty || base.toList.getLast? == some '/' then base ++ path
  else base ++ "/" ++ path

/-- The names between the slashes. Slashes next to each other have an empty name between them. -/
def components (path : String) : List String := path.splitOn "/"

/-- The absolute path with the given names. -/
def absolute (names : List String) : String := "/" ++ "/".intercalate names

/-- The last name of a path. Slashes at the end and names that are a dot do not count, and two dots
are no name. -/
def fileName? (path : String) : Option String :=
  ((components path).reverse.find? fun name => name != "" && name != ".").filter (· != "..")

/-- What follows the last dot of a name, unless it is the first character. -/
def extensionOf? (name : String) : Option String :=
  let reversed := name.toList.reverse
  match reversed.dropWhile (· != '.') with
  | [] | [_] => none
  | _ => some (String.ofList (reversed.takeWhile (· != '.')).reverse)

def extension? (path : String) : Option String := (fileName? path).bind extensionOf?

/-- The order of names that files are listed in: directory by directory, code point by code point. -/
def precedes : List String → List String → Bool
  | [], _ => true
  | _ :: _, [] => false
  | a :: as, b :: bs => a < b || (a == b && precedes as bs)

end ArrayShapes.Command.Path
