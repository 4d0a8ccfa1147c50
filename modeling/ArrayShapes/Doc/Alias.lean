import ArrayShapes.Doc.Expression
import ArrayShapes.Doc.Tag
import ArrayShapes.Guard

/-!
Names for shapes: their definitions in doc comments, their imports from other classes, and shapes
with such names replaced by what they stand for.
-/

namespace ArrayShapes.Doc

open Text

/-! ### Definitions and imports -/

/-- A name for a shape. -/
structure Alias where
  name : String
  shape : Shape
deriving Inhabited, Repr

/-- An alias taken from the doc comment of a class, under a name of its own. -/
structure Import where
  localName : String
  name : String
  fromClass : String
deriving DecidableEq, Repr

def isWordChar (c : Char) : Bool := isAlphanumeric c || c == '_' || c == '\\'

/-- The word a text starts with, and the text after it. -/
def word? (cs : List Char) : Option (String × List Char) :=
  let cs := dropWhite cs
  let word := cs.takeWhile isWordChar
  if word.isEmpty then none else some (String.ofList word, cs.dropWhile isWordChar)

def aliasOf? (tag : Tag) : Option Alias := do
  let (name, rest) ← word? tag.text.toList
  let rest := dropWhite rest
  match readExpression ((after? ['='] rest).getD rest) with
  | (some s, _) => some ⟨name, s⟩
  | (none, _) => none

/-- The name an import is given behind `as`. -/
def importName? (cs : List Char) : Option String := do
  let (keyword, rest) ← word? cs
  if sameName keyword "as" then (word? rest).map (·.1) else none

def importOf? (tag : Tag) : Option Import := do
  let (name, rest) ← word? tag.text.toList
  let (keyword, rest) ← word? rest
  if sameName keyword "from" then
    let (fromClass, rest) ← word? rest
    return ⟨(importName? rest).getD name, name, fromClass⟩
  else none

/-- The aliases a doc comment defines, in order. -/
def aliases (raw : String) : List Alias :=
  ((commentTags raw).filter fun t => ["psalm-type", "phpstan-type"].contains t.name).filterMap aliasOf?

/-- The aliases a doc comment imports, in order. -/
def imports (raw : String) : List Import :=
  ((commentTags raw).filter fun t =>
    ["psalm-import-type", "phpstan-import-type"].contains t.name).filterMap importOf?

/-! ### Expansion -/

abbrev Expand := StateM (Guard String)

mutual

/-- Replaces every name without arguments by what `resolve` makes of it. -/
def expandWith (resolve : String → Expand Shape) : Shape → Expand Shape
  | .any => pure .any
  | .str content => pure (.str content)
  | .int value => pure (.int value)
  | .record entries unparsed => return .record (← expandEntries resolve entries) unparsed
  | .tuple elements => return .tuple (← expandList resolve elements)
  | .list value => return .list (← expandWith resolve value)
  | .map key value => return .map (← expandWith resolve key) (← expandWith resolve value)
  | .named name [] => resolve name
  | .named name (a :: as) => return .named name (← expandList resolve (a :: as))
  | .union members => return .union (← expandList resolve members)

def expandList (resolve : String → Expand Shape) : List Shape → Expand (List Shape)
  | [] => pure []
  | s :: ss => return (← expandWith resolve s) :: (← expandList resolve ss)

def expandEntries (resolve : String → Expand Shape) :
    List (Shape × Shape) → Expand (List (Shape × Shape))
  | [] => pure []
  | (key, value) :: es =>
    return (← expandWith resolve key, ← expandWith resolve value) :: (← expandEntries resolve es)

end

/-- What a name stands for, with aliases followed at most `fuel` deep. A name that is being expanded
already is kept, and so is one that the guard refuses. -/
def expandName (lookup : String → Option Shape) : (fuel : Nat) → String → Expand Shape
  | 0, name => pure (.plain name)
  | fuel + 1, name =>
    match lookup name with
    | none => pure (.plain name)
    | some target => do
      match ← modifyGet (·.enter name) with
      | .entered =>
        let s ← expandWith (expandName lookup fuel) target
        modify (·.leave name)
        return s
      | _ => return .plain name

/-- A shape with the aliases in it replaced by what they stand for. The guard stops at its depth, so
more fuel than that would never be used. -/
def expand (lookup : String → Option Shape) (s : Shape) : Shape :=
  ((expandWith (expandName lookup (Limits.aliases.depth + 1)) s).run (.ofLimits .aliases)).1

end ArrayShapes.Doc
