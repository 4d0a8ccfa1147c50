import ArrayShapes.Shape
import ArrayShapes.Text.Character

/-!
Shapes that can be written in two ways are kept in one.
-/

namespace ArrayShapes.Shape

/-- A name without the backslash in front that makes it absolute. -/
def relativeName (name : String) : String :=
  match name.toList with
  | '\\' :: cs => String.ofList cs
  | _ => name

/-- Whether a name is one of `names`, up to case and a backslash in front. -/
def isNameIn (names : List String) (name : String) : Bool :=
  names.any (Text.sameName (relativeName name))

/-- A type with arguments. Arrays and lists of one argument are lists, arrays of two are maps, and
the same holds of those that are never empty; all other names are kept. -/
def ofName (name : String) (arguments : List Shape) : Shape :=
  let isArray := isNameIn ["array", "non-empty-array"] name
  let isList := isNameIn ["list", "non-empty-list"] name
  match arguments with
  | [value] => if isArray || isList then .list value else .named name [value]
  | [key, value] => if isArray then .map key value else .named name [key, value]
  | _ => .named name arguments

/-- The key that a literal stands for in an array: integers become strings. -/
def recordKey : Shape → Shape
  | .int value => .str (toString value)
  | s => s

/-- Whether keys are the strings of the numbers from `start` on, in order. -/
def areIndices (start : Nat) : List Shape → Bool
  | [] => true
  | key :: keys => key.str? == some (toString start) && areIndices (start + 1) keys

/-- Entries with a part that could not be read. If there are any and their keys are `0`, `1`, … in
order they make a tuple. -/
def ofEntries (entries : List (Shape × Shape)) (unparsed : Option String) : Shape :=
  if !entries.isEmpty && areIndices 0 (entries.map (·.1)) then .tuple (entries.map (·.2))
  else .record entries unparsed

end ArrayShapes.Shape
