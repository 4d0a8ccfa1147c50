import ArrayShapes.Shape
import ArrayShapes.Text.Character

/-!
Shapes in the notation of doc comments.
-/

namespace ArrayShapes.Shape

/-- Single quotes around a text, with a backslash before each quote and backslash in it. -/
def quoted (content : String) : List Char :=
  '\'' :: content.toList.flatMap (fun c => if c == '\'' || c == '\\' then ['\\', c] else [c]) ++ ['\'']

/-- The text of a key that is written without quotes. -/
def bareKey? : Shape → Option String
  | .str content =>
    if !content.isEmpty && content.toList.all fun c => Text.isAsciiAlphanumeric c || c == '_' then
      some content
    else none
  | _ => none

mutual

def renderChars : Shape → List Char
  | .any => "mixed".toList
  | .str content => quoted content
  | .int value => (toString value).toList
  | .record entries unparsed =>
    let rest := (Text.trim (unparsed.getD "")).toList
    "array\x7b".toList ++ renderEntries entries ++
      (if entries.isEmpty || rest.isEmpty then [] else ", ".toList) ++ rest ++ ['}']
  | .tuple elements => "array\x7b".toList ++ renderList ", ".toList elements ++ ['}']
  | .list value => "list<".toList ++ renderChars value ++ ['>']
  | .map key value =>
    "array<".toList ++ renderChars key ++ ", ".toList ++ renderChars value ++ ['>']
  | .named name arguments =>
    if arguments.isEmpty then name.toList
    else name.toList ++ '<' :: renderList ", ".toList arguments ++ ['>']
  | .union members => if members.isEmpty then "never".toList else renderList ['|'] members

/-- Shapes with a separator between them. -/
def renderList (separator : List Char) : List Shape → List Char
  | [] => []
  | s :: ss => renderChars s ++ (if ss.isEmpty then [] else separator ++ renderList separator ss)

/-- Entries with commas between them. -/
def renderEntries : List (Shape × Shape) → List Char
  | [] => []
  | (key, value) :: es =>
    (match bareKey? key with
      | some content => content.toList
      | none => renderChars key) ++
      ": ".toList ++ renderChars value ++
      (if es.isEmpty then [] else ", ".toList ++ renderEntries es)

end

@[simp]
theorem renderChars_str (content : String) : (str content).renderChars = quoted content := rfl

@[simp]
theorem renderChars_record (entries : List (Shape × Shape)) :
    (record entries none).renderChars = "array\x7b".toList ++ renderEntries entries ++ ['}'] := by
  have hrest : (Text.trim "").toList = [] := by decide
  have heq : (record entries none).renderChars = "array\x7b".toList ++ renderEntries entries ++
      (if entries.isEmpty || (Text.trim "").toList.isEmpty then [] else ", ".toList) ++
      (Text.trim "").toList ++ ['}'] := rfl
  simp [heq, hrest]

@[simp]
theorem renderChars_list (value : Shape) :
    (list value).renderChars = "list<".toList ++ value.renderChars ++ ['>'] := rfl

@[simp]
theorem renderChars_map (key value : Shape) :
    (map key value).renderChars =
      "array<".toList ++ key.renderChars ++ ", ".toList ++ value.renderChars ++ ['>'] := rfl

@[simp]
theorem renderChars_named (name : String) (arguments : List Shape) :
    (named name arguments).renderChars =
      if arguments.isEmpty then name.toList
      else name.toList ++ '<' :: renderList ", ".toList arguments ++ ['>'] := rfl

@[simp]
theorem renderChars_union (members : List Shape) :
    (union members).renderChars =
      if members.isEmpty then "never".toList else renderList ['|'] members := rfl

def render (s : Shape) : String := String.ofList s.renderChars

end ArrayShapes.Shape
