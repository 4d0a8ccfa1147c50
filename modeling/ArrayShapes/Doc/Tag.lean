import ArrayShapes.Text.Character

/-!
Doc comments and the tags in them.
-/

namespace ArrayShapes.Doc

open Text

/-- What stands in front of `tail`, when the text ends with it. -/
def before? (tail cs : List Char) : Option (List Char) :=
  (after? tail.reverse cs.reverse).map List.reverse

/-- A line without the star that leads it, and without one blank after the star. -/
def stripGutter (line : List Char) : List Char :=
  match dropWhite line with
  | '*' :: ' ' :: rest => rest
  | '*' :: rest => rest
  | rest => rest

/-- Lines put together again. -/
def joinLines (ls : List (List Char)) : List Char := ['\n'].intercalate ls

/-- The text of a doc comment without its delimiters and the stars that lead its lines. -/
def commentText? (raw : String) : Option String := do
  let body ← after? "/*".toList raw.toList
  let body ← before? "*/".toList (body.dropWhile (· == '*'))
  return String.ofList (joinLines ((lines (dropWhite body)).map stripGutter))

/-- A tag with the text behind it, which may go on over several lines. -/
structure Tag where
  name : String
  text : String
deriving DecidableEq, Repr

def isTagChar (c : Char) : Bool := isWord c || c == '-'

/-- The tag a line begins, with the rest of that line. -/
def tagLine? (line : List Char) : Option Tag :=
  match dropWhite line with
  | '@' :: rest =>
    let name := rest.takeWhile isTagChar
    if name.isEmpty then none
    else some ⟨String.ofList name, String.ofList (dropWhite (rest.dropWhile isTagChar))⟩
  | _ => none

/-- The tags of some lines, with the lines in front of the first one. -/
def gatherTags : List (List Char) → List (List Char) × List Tag
  | [] => ([], [])
  | line :: ls =>
    let (loose, tags) := gatherTags ls
    match tagLine? line with
    | some tag =>
      ([], { tag with text := tag.text ++ String.ofList (loose.flatMap ('\n' :: ·)) } :: tags)
    | none => (line :: loose, tags)

/-- The tags of a text. Lines that begin none belong to the tag before them. -/
def tags (text : String) : List Tag := (gatherTags (lines text.toList)).2

/-- The tags of a doc comment; what is no doc comment has none. -/
def commentTags (raw : String) : List Tag := ((commentText? raw).map tags).getD []

end ArrayShapes.Doc
