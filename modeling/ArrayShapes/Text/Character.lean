import ArrayShapes.Text.Ranges

/-!
The character classes the library reads text by. White space, words and alphanumerics are the
Unicode classes; the `isAscii` predicates stop at ASCII.
-/

namespace ArrayShapes.Text

/-- Unicode white space. -/
def isWhite (c : Char) : Bool :=
  let n := c.toNat
  (0x9 ≤ n && n ≤ 0xd) || n == 0x20 || n == 0x85 || n == 0xa0 || n == 0x1680 ||
    (0x2000 ≤ n && n ≤ 0x200a) || n == 0x2028 || n == 0x2029 || n == 0x202f || n == 0x205f ||
    n == 0x3000

def isAsciiDigit (c : Char) : Bool := '0' ≤ c && c ≤ '9'

def isAsciiLetter (c : Char) : Bool := ('a' ≤ c && c ≤ 'z') || ('A' ≤ c && c ≤ 'Z')

def isAsciiAlphanumeric (c : Char) : Bool := isAsciiLetter c || isAsciiDigit c

def isAscii (c : Char) : Bool := c.toNat < 128

/-- Letters and numbers of any script, as of Unicode 17. -/
def isAlphanumeric (c : Char) : Bool :=
  if isAscii c then isAsciiAlphanumeric c
  else alphabeticRanges.contains c.toNat || numberRanges.contains c.toNat

/-- Characters of a word: letters, marks, decimal digits, connectors and joiners, as of Unicode 16. -/
def isWord (c : Char) : Bool :=
  if isAscii c then isAsciiAlphanumeric c || c == '_'
  else (alphabeticRanges.contains c.toNat || wordRanges.contains c.toNat) &&
    !recentRanges.contains c.toNat

/-- Lower case of an ASCII letter, any other character unchanged. -/
def lowerAscii (c : Char) : Char :=
  if 'A' ≤ c && c ≤ 'Z' then Char.ofNat (c.toNat + 32) else c

/-- ASCII letters lowered, all else unchanged. -/
def lower (s : String) : String := s.map lowerAscii

/-- Equality up to the case of ASCII letters. -/
def sameName (a b : String) : Bool := lower a == lower b

/-- The text without its leading white space. -/
def dropWhite (cs : List Char) : List Char := cs.dropWhile isWhite

/-- The text without white space at either end. -/
def trim (s : String) : String :=
  String.ofList (((s.toList.dropWhile isWhite).reverse.dropWhile isWhite).reverse)

/-- What follows `lead`, when the text starts with it. -/
def after? : List Char → List Char → Option (List Char)
  | [], cs => some cs
  | _ :: _, [] => none
  | l :: ls, c :: cs => if l == c then after? ls cs else none

/-- How many bytes the characters take in UTF-8. -/
def byteLength (cs : List Char) : Nat := cs.foldl (fun n c => n + c.utf8Size) 0

/-- How many 16-bit units the characters take in UTF-16. -/
def unitLength (cs : List Char) : Nat :=
  cs.foldl (fun n c => n + if c.toNat < 0x10000 then 1 else 2) 0

/-- The pieces of a text between line feeds; an empty text has one empty piece. -/
def lines : List Char → List (List Char)
  | [] => [[]]
  | c :: cs =>
    if c == '\n' then [] :: lines cs
    else match lines cs with
      | [] => [[c]]
      | l :: ls => (c :: l) :: ls

end ArrayShapes.Text
