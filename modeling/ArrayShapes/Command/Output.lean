import ArrayShapes.Command.Json
import ArrayShapes.Query

/-!
What a command prints, one line for each answer or all of them as JSON.
-/

namespace ArrayShapes.Command.Output

/-- An object that says what it is first. -/
def tagged (kind : String) (fields : List (String × Json)) : Json :=
  .object (("kind", .string kind) :: fields)

mutual

def ofShape : Shape → Json
  | .any => tagged "any" []
  | .str content => tagged "str" [("content", .string content)]
  | .int value => tagged "int" [("value", .number value)]
  | .record entries none => tagged "recordArr" [("entries", .array (ofEntries entries))]
  | .record entries (some rest) =>
    tagged "recordArr" [("entries", .array (ofEntries entries)), ("unparsed", .string rest)]
  | .tuple elements => tagged "tupleArr" [("elements", .array (ofShapes elements))]
  | .list value => tagged "listArr" [("valueType", ofShape value)]
  | .map key value => tagged "mapArr" [("keyType", ofShape key), ("valueType", ofShape value)]
  | .named name arguments =>
    tagged "fqn" [("fqn", .string name), ("generics", .array (ofShapes arguments))]
  | .union members => tagged "mt" [("types", .array (ofShapes members))]

def ofShapes : List Shape → List Json
  | [] => []
  | s :: ss => ofShape s :: ofShapes ss

def ofEntries : List (Shape × Shape) → List Json
  | [] => []
  | (key, value) :: es =>
    .object [("keyType", ofShape key), ("valueType", ofShape value)] :: ofEntries es

end

def ofItem (i : Completion.Item) : Json :=
  .object [("label", .string i.label), ("kind", .string i.kind.label), ("detail", .string i.detail),
    ("sortText", .string i.sortText)]

def lineOfItem (i : Completion.Item) : String := i.label ++ "\t" ++ i.detail

end ArrayShapes.Command.Output
