/-!
Shapes of values: single strings and integers, four kinds of arrays, named types and unions.
-/

namespace ArrayShapes

inductive Shape where
  /-- Any value at all. -/
  | any
  /-- One string. -/
  | str (content : String)
  /-- One integer. -/
  | int (value : Int)
  /-- An array with these keys and values. Entries are in order and may repeat a key. `unparsed` is
  the part of the annotation that could not be read. -/
  | record (entries : List (Shape × Shape)) (unparsed : Option String)
  /-- An array indexed from zero. -/
  | tuple (elements : List Shape)
  /-- An array of like elements with unknown indices. -/
  | list (value : Shape)
  /-- An array of like keys and like values. -/
  | map (key value : Shape)
  /-- A class, an interface or a scalar type. -/
  | named (name : String) (arguments : List Shape)
  | union (members : List Shape)
deriving Inhabited, Repr

namespace Shape

/-- A named type without arguments. -/
def plain (name : String) : Shape := .named name []

/-- One of several shapes: none is any shape, one is itself. -/
def oneOf : List Shape → Shape
  | [] => .any
  | [s] => s
  | ss => .union ss

def isAny : Shape → Bool
  | .any => true
  | _ => false

/-- The content of a single string. -/
def str? : Shape → Option String
  | .str content => some content
  | _ => none

mutual

/-- The members of a union and of the unions in it; any other shape is its own alternative. -/
def alternatives : Shape → List Shape
  | .union ss => alternativesList ss
  | s => [s]

def alternativesList : List Shape → List Shape
  | [] => []
  | s :: ss => s.alternatives ++ alternativesList ss

end

end Shape

end ArrayShapes
