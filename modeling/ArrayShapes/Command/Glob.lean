/-!
Patterns for paths. A question mark stands for any byte and a star for any run of bytes, slashes
included; two stars as a whole component stand for any number of directories; brackets stand for one
byte out of some, braces for one of several patterns, and a backslash takes the next character as it
is. Patterns are matched against whole paths, byte by byte, unless they are nested too deep.
-/

namespace ArrayShapes.Command

namespace Glob

inductive Piece where
  | literal (c : Char)
  /-- Any byte. -/
  | any
  /-- Any run of bytes. -/
  | run
  /-- Directories at the start of a path, if any. -/
  | leading
  /-- A slash and all that follows. -/
  | trailing
  /-- A slash, or directories between two of them. -/
  | middle
  | charClass (negated : Bool) (ranges : List (Char × Char))
  | choice (branches : List (List Piece))
deriving Inhabited, Repr

/-! ### Reading -/

/-- A pattern that has been read in part. -/
structure Draft where
  /-- For each brace that is open, the branches finished at the level around it and the pieces in
  front of the brace, last first. -/
  outer : List (List (List Piece) × List Piece)
  /-- Finished branches between the innermost open braces, last first. -/
  branches : List (List Piece)
  /-- Pieces of the branch being read, last first. -/
  current : List Piece

namespace Draft

def start : Draft := ⟨[], [], []⟩

def push (p : Draft) (piece : Piece) : Draft := { p with current := piece :: p.current }

def isNested (p : Draft) : Bool := !p.outer.isEmpty

def openBrace (p : Draft) : Draft := ⟨(p.branches, p.current) :: p.outer, [], []⟩

/-- A comma outside of braces stands for itself. -/
def comma (p : Draft) : Draft :=
  if p.isNested then { p with branches := p.current.reverse :: p.branches, current := [] }
  else p.push (.literal ',')

def closeBrace? (p : Draft) : Option Draft :=
  match p.outer with
  | [] => none
  | (branches, current) :: outer =>
    let choice := .choice (p.current.reverse :: p.branches).reverse
    some ⟨outer, branches, choice :: current⟩

/-- Puts directories in place of the slash read last. Next to other directories they add nothing at
the start and at the end. -/
def directories (p : Draft) (piece : Piece) : Draft :=
  match p.current with
  | .leading :: _ | .trailing :: _ => p
  | _ :: rest => { p with current := piece :: rest }
  | [] => { p with current := [piece] }

/-- Two stars that are no component of their own. -/
def twoRuns (p : Draft) : Draft := (p.push .run).push .run

end Draft

/-- Reads a class up to its closing bracket: the ranges, last first, and how many characters they
take. A bracket or a dash that comes first stands for itself, and so does a dash that comes last. -/
def ranges? (first inRange : Bool) (done : List (Char × Char)) (taken : Nat) :
    List Char → Option (List (Char × Char) × Nat)
  | [] => none
  | c :: cs =>
    if c == ']' && !first then
      some (if inRange then ('-', '-') :: done else done, taken + 1)
    else if c == '-' && !first && !inRange then ranges? false true done (taken + 1) cs
    else
      match inRange, done with
      | true, (low, _) :: done =>
        if c < low then none else ranges? false false ((low, c) :: done) (taken + 1) cs
      | _, _ => ranges? false false ((c, c) :: done) (taken + 1) cs

/-- A class after its opening bracket, and how many characters it takes. -/
def class? (cs : List Char) : Option (Piece × Nat) :=
  let negated := cs.head?.any fun c => c == '!' || c == '^'
  let skipped := if negated then 1 else 0
  (ranges? true false [] skipped (cs.drop skipped)).map fun (ranges, taken) =>
    (.charClass negated ranges.reverse, taken)

/-- Reads a pattern on, after the character `previous`. -/
def readFrom? (previous : Option Char) (p : Draft) : List Char → Option Draft
  | [] => some p
  | '?' :: cs => readFrom? (some '?') (p.push .any) cs
  | '*' :: '*' :: cs =>
    if p.current.isEmpty then
      match cs with
      | [] => some (p.push .leading)
      | '/' :: cs => readFrom? (some '/') (p.push .leading) cs
      | c :: cs => readFrom? (some '*') p.twoRuns (c :: cs)
    else if previous == some '/' || (p.isNested && (previous == some ',' || previous == some '{')) then
      match cs with
      | [] => some (p.directories .trailing)
      | '/' :: cs => readFrom? (some '/') (p.directories .middle) cs
      | c :: cs =>
        if p.isNested && (c == ',' || c == '}') then
          readFrom? (some '*') (p.directories .trailing) (c :: cs)
        else readFrom? (some '*') p.twoRuns (c :: cs)
    else readFrom? (some '*') p.twoRuns cs
  | '*' :: cs => readFrom? (some '*') (p.push .run) cs
  | '[' :: cs =>
    match class? cs with
    | some (piece, taken) => readFrom? (some ']') (p.push piece) (cs.drop taken)
    | none => none
  | '{' :: cs => readFrom? (some '{') p.openBrace cs
  | '}' :: cs =>
    match p.closeBrace? with
    | some p => readFrom? (some '}') p cs
    | none => none
  | ',' :: cs => readFrom? (some ',') p.comma cs
  | '\\' :: c :: cs => readFrom? (some c) (p.push (.literal c)) cs
  | '\\' :: [] => none
  | c :: cs => readFrom? (some c) (p.push (.literal c)) cs
termination_by cs => cs.length
decreasing_by all_goals simp only [List.length_cons, List.length_drop]; omega

/-! ### Matching -/

/-- Positions of a text that can be reached: one entry in front of each byte and one at the end. -/
abbrev Reach := List Bool

/-- One byte on, where it satisfies `p`. -/
def byte (p : UInt8 → Bool) (bytes : List UInt8) (reach : Reach) : Reach :=
  false :: List.zipWith (fun b r => r && p b) bytes reach

/-- Any number of bytes on. -/
def onward (seen : Bool) : Reach → Reach
  | [] => []
  | r :: rs => (seen || r) :: onward (seen || r) rs

def either (a b : Reach) : Reach := List.zipWith (· || ·) a b

def isSlash (b : UInt8) : Bool := b == 47

def slash (bytes : List UInt8) (reach : Reach) : Reach := byte isSlash bytes reach

/-- Whether a byte is in the range between two characters. Characters of several bytes stand for each
of their bytes; the range is that between the bytes next to the dash. -/
def inRange (low high : Char) (b : UInt8) : Bool :=
  let lows := String.utf8EncodeChar low
  let highs := String.utf8EncodeChar high
  if low == high then lows.contains b
  else lows.dropLast.contains b || highs.tail.contains b ||
    (lows.getLast?.any (· ≤ b) && highs.head?.any (b ≤ ·))

mutual

/-- Whether a piece stands for nothing at all: a choice without a branch that has something in it. -/
def Piece.isVoid : Piece → Bool
  | .choice branches => areVoid branches
  | _ => false

def isVoidList : List Piece → Bool
  | [] => true
  | p :: ps => p.isVoid && isVoidList ps

def areVoid : List (List Piece) → Bool
  | [] => true
  | b :: bs => isVoidList b && areVoid bs

end

mutual

/-- Where a piece leads to. -/
def Piece.advance (bytes : List UInt8) : Piece → Reach → Reach
  | .literal c, r => (String.utf8EncodeChar c).foldl (fun r b => byte (· == b) bytes r) r
  | .any, r => byte (fun _ => true) bytes r
  | .run, r => onward false r
  | .leading, r => either r (either (slash bytes r) (slash bytes (onward false r)))
  | .trailing, r => onward false (slash bytes r)
  | .middle, r =>
    let first := slash bytes r
    either first (slash bytes (onward false first))
  | .charClass negated ranges, r =>
    byte (fun b => (ranges.any fun (low, high) => inRange low high b) != negated) bytes r
  | .choice branches, r => if areVoid branches then r else advanceAny bytes branches r

/-- Where pieces lead to, one after the other. -/
def advanceAll (bytes : List UInt8) : List Piece → Reach → Reach
  | [], r => r
  | p :: ps, r => advanceAll bytes ps (p.advance bytes r)

/-- Where any of some branches leads to. Branches with nothing in them do not count. -/
def advanceAny (bytes : List UInt8) : List (List Piece) → Reach → Reach
  | [], r => r.map fun _ => false
  | b :: bs, r =>
    if isVoidList b then advanceAny bytes bs r
    else either (advanceAll bytes b r) (advanceAny bytes bs r)

end

/-! ### Nesting -/

/-- How much there is to match in a row: how many parts, and how many levels the deepest of them has. A
single byte has no level. -/
structure Extent where
  parts : Nat
  depth : Nat
deriving DecidableEq, Repr

namespace Extent

def empty : Extent := ⟨0, 0⟩

/-- One part with the given number of levels. -/
def single (depth : Nat) : Extent := ⟨1, depth⟩

def append (a b : Extent) : Extent := ⟨a.parts + b.parts, max a.depth b.depth⟩

/-- Levels of the whole. Several parts are a level of their own. -/
def levels (e : Extent) : Nat := if e.parts ≤ 1 then e.depth else e.depth + 1

end Extent

/-- How many ranges of bytes a range of characters amounts to: each byte by itself but for the two
next to the dash. -/
def rangeItems (low high : Char) : Nat :=
  if low == high then low.utf8Size else low.utf8Size + high.utf8Size - 1

mutual

/-- A repetition is a level, and so are a class, the ranges of a class that has several, a choice, and
the branches of a choice that has several. Directories are choices with a repetition in a row. -/
def Piece.extent : Piece → Extent
  | .literal c => ⟨c.utf8Size, 0⟩
  | .any => .single 0
  | .run => .single 1
  | .leading | .middle => .single 4
  | .trailing => ⟨2, 1⟩
  | .charClass _ ranges =>
    .single (1 + (Extent.levels ⟨(ranges.map fun (low, high) => rangeItems low high).sum, 0⟩))
  | .choice branches =>
    if areVoid branches then .empty else .single (1 + (branchExtent branches).levels)

/-- The extent of pieces one after the other. -/
def extent : List Piece → Extent
  | [] => .empty
  | p :: ps => p.extent.append (extent ps)

/-- The extent of branches next to each other. Branches with nothing in them do not count. -/
def branchExtent : List (List Piece) → Extent
  | [] => .empty
  | b :: bs =>
    if isVoidList b then branchExtent bs
    else (Extent.single (extent b).levels).append (branchExtent bs)

end

end Glob

structure Glob where
  pieces : List Glob.Piece
deriving Inhabited, Repr

namespace Glob

/-- Reads a pattern. Brackets and braces have to be closed, no brace closes what is not open, ranges
go upward, and a backslash has something to escape. -/
def read? (pattern : String) : Option Glob := do
  let p ← readFrom? none .start pattern.toList
  if p.isNested then none else some ⟨p.current.reverse⟩

/-- The number of levels that a pattern may have. -/
def maxDepth : Nat := 250

/-- Levels of a pattern, the pattern itself included. -/
def depth (g : Glob) : Nat := (extent g.pieces).depth + 1

/-- Whether the pattern matches a whole path. Directories alone match every path. -/
def isMatch (g : Glob) (path : String) : Bool :=
  let bytes := path.toUTF8.toList
  match g.pieces with
  | [.leading] => true
  | pieces => (advanceAll bytes pieces (true :: bytes.map fun _ => false)).getLast? == some true

end Glob

end ArrayShapes.Command
