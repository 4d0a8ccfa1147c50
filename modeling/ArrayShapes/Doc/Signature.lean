import ArrayShapes.Doc.Expression
import ArrayShapes.Doc.Tag

/-!
What the doc comment of a function says about its parameters and its result.
-/

namespace ArrayShapes.Doc

open Text

/-- Shapes of parameters, by name and in the order in which they came, and of the result. -/
structure Signature where
  parameters : List (String × Shape)
  result : Option Shape
deriving Inhabited, Repr

namespace Signature

/-- The name of the variable a text starts with, without its dollar sign. An ampersand and an
ellipsis may stand in front of it. -/
def variableName? (text : String) : Option String := do
  let cs := dropWhite text.toList
  let cs := (after? ['&'] cs).getD cs
  let cs := (after? "...".toList cs).getD cs
  let cs ← after? ['$'] cs
  let name := cs.takeWhile fun c => isAlphanumeric c || c == '_'
  if name.isEmpty then none else some (String.ofList name)

/-- Gives a parameter a shape. A parameter that had one keeps its position. -/
def put (name : String) (s : Shape) : List (String × Shape) → List (String × Shape)
  | [] => [(name, s)]
  | (n, t) :: ps => if n = name then (n, s) :: ps else (n, t) :: put name s ps

def parameterTags : List String := ["param", "psalm-param", "phpstan-param"]

def resultTags : List String := ["return", "psalm-return", "phpstan-return"]

/-- Adds what one tag says. A later tag overrides an earlier one. -/
def addTag (sig : Signature) (tag : Tag) : Signature :=
  if parameterTags.contains tag.name then
    match expression? tag.text with
    | some (s, rest) =>
      match variableName? rest with
      | some name => { sig with parameters := put name s sig.parameters }
      | none => sig
    | none => sig
  else if resultTags.contains tag.name then
    match expression? tag.text with
    | some (s, _) => { sig with result := some s }
    | none => sig
  else sig

def ofComment (raw : String) : Signature := (commentTags raw).foldl addTag ⟨[], none⟩

/-- The shape given for a parameter, named with or without its dollar sign. -/
def parameter? (sig : Signature) (name : String) : Option Shape :=
  sig.parameters.lookup (String.ofList ((after? ['$'] name.toList).getD name.toList))

/-- The alternatives given for a parameter. -/
def parameter (sig : Signature) (name : String) : List Shape :=
  ((sig.parameter? name).map Shape.alternatives).getD []

/-- The alternatives given for the result. -/
def results (sig : Signature) : List Shape := (sig.result.map Shape.alternatives).getD []

end Signature

end ArrayShapes.Doc
