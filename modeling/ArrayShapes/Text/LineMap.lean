import ArrayShapes.Text.Character
import ArrayShapes.Text.Slice

/-!
Lines and columns. Text is addressed by byte offset; carets are addressed by line and column,
where a column counts UTF-16 units. A line ends at a line feed, at a carriage return, or at the
two together.
-/

namespace ArrayShapes.Text

/-- Line and UTF-16 column, both counted from zero. -/
structure Position where
  line : Nat
  column : Nat
deriving DecidableEq, Repr

/-- A text with the byte offset at which each of its lines starts. -/
structure LineMap where
  text : String
  starts : Array Nat
deriving Repr

namespace LineMap

/-- Offsets just after each line end, for characters that start at byte `offset`. -/
def startsFrom : Nat → List Char → List Nat
  | _, [] => []
  | offset, '\r' :: '\n' :: rest => (offset + 2) :: startsFrom (offset + 2) rest
  | offset, c :: rest =>
    let next := offset + c.utf8Size
    if c == '\n' || c == '\r' then next :: startsFrom next rest else startsFrom next rest

def ofText (text : String) : LineMap where
  text := text
  starts := (0 :: startsFrom 0 text.toList).toArray

def lineCount (m : LineMap) : Nat := m.starts.size

/-- The last line that starts at or before `offset`. -/
def lineOf (m : LineMap) (offset : Nat) : Nat :=
  (m.starts.toList.takeWhile (· ≤ offset)).length - 1

/-- The characters of a line without its end. -/
def lineText? (m : LineMap) (line : Nat) : Option (List Char) := do
  let start ← m.starts[line]?
  let stop := m.starts[line + 1]?.getD m.text.utf8ByteSize
  let text ← slice? m.text start stop
  return (text.toList.reverse.dropWhile fun c => c == '\n' || c == '\r').reverse

/-- Offsets past the end of the text stand for its end; an offset inside a character has
column 0. -/
def positionAt (m : LineMap) (offset : Nat) : Position :=
  let offset := min offset m.text.utf8ByteSize
  let line := m.lineOf offset
  let start := m.starts[line]?.getD 0
  ⟨line, ((slice? m.text start offset).map fun s => unitLength s.toList).getD 0⟩

/-- Bytes of the longest prefix of at most `column` UTF-16 units. -/
def bytesWithin (column : Nat) : List Char → Nat
  | [] => 0
  | c :: cs =>
    let units := unitLength [c]
    if units ≤ column then c.utf8Size + bytesWithin (column - units) cs else 0

/-- Columns past the end of a line stand for its end. -/
def offsetAt? (m : LineMap) (p : Position) : Option Nat := do
  let text ← m.lineText? p.line
  let start ← m.starts[p.line]?
  return start + bytesWithin p.column text

end LineMap

end ArrayShapes.Text
