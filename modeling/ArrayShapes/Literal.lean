import ArrayShapes.Text.Numeral

/-!
Values of string and integer literals in source text.
-/

namespace ArrayShapes.Literal

/-! ### Strings -/

/-- What stands between two quotes. -/
def body? (quote : Char) : List Char → Option (List Char)
  | [] => none
  | c :: cs => if c == quote && cs.getLast? == some quote then some cs.dropLast else none

/-- Between single quotes a backslash escapes itself and the quote. -/
def unescapeSingle : List Char → List Char
  | [] => []
  | '\\' :: '\\' :: cs => '\\' :: unescapeSingle cs
  | '\\' :: '\'' :: cs => '\'' :: unescapeSingle cs
  | c :: cs => c :: unescapeSingle cs

def isVariableStart (c : Char) : Bool := Text.isAsciiLetter c || c == '_' || !Text.isAscii c

/-- The character with a code point, when there is one. -/
def charOf? (n : Nat) : Option Char :=
  if n.isValidChar then some (Char.ofNat n) else none

/-- The digits at the start of a text, at most `most` of them. -/
def digits (radix most : Nat) (cs : List Char) : List Char :=
  (cs.take most).takeWhile (Text.isDigit radix)

/-- What an escape between double quotes stands for and how many characters it takes after its
backslash. An escape that names no character has no value. -/
def escape? : List Char → Option (List Char × Nat)
  | [] => some (['\\'], 0)
  | 'n' :: _ => some (['\n'], 1)
  | 't' :: _ => some (['\t'], 1)
  | 'r' :: _ => some (['\r'], 1)
  | 'v' :: _ => some (['\x0b'], 1)
  | 'e' :: _ => some (['\x1b'], 1)
  | 'f' :: _ => some (['\x0c'], 1)
  | '\\' :: _ => some (['\\'], 1)
  | '$' :: _ => some (['$'], 1)
  | '"' :: _ => some (['"'], 1)
  | 'u' :: '{' :: cs => do
    let ds := cs.takeWhile (· != '}')
    return ([← charOf? (← Text.unsigned? 16 ds)], ds.length + 3)
  | c :: cs =>
    if Text.isDigit 8 c then do
      let ds := c :: digits 8 2 cs
      return ([← charOf? ((← Text.numeral? 8 ds) % 256)], ds.length)
    else if c == 'x' && cs.head?.any (Text.isDigit 16) then do
      let ds := digits 16 2 cs
      return ([← charOf? (← Text.numeral? 16 ds)], ds.length + 1)
    else some (['\\', c], 1)

/-- Nothing when a variable stands in the text or an escape has no value. -/
def unescapeDouble? : List Char → Option (List Char)
  | [] => some []
  | '\\' :: cs => do
    let (out, taken) ← escape? cs
    let rest ← unescapeDouble? (cs.drop taken)
    return out ++ rest
  | c :: cs =>
    if c == '$' && cs.head?.any isVariableStart then none
    else (unescapeDouble? cs).map (c :: ·)
termination_by cs => cs.length
decreasing_by all_goals simp only [List.length_cons, List.length_drop]; omega

/-- The content of a quoted string, with escapes applied. -/
def unquote? (text : String) : Option String :=
  let cs := text.toList
  match body? '\'' cs with
  | some body => some (String.ofList (unescapeSingle body))
  | none => ((body? '"' cs).bind unescapeDouble?).map String.ofList

/-! ### Integers -/

/-- The radix an integer is written in, and what follows the mark of the radix. -/
def radixOf : List Char → Nat × List Char
  | '0' :: 'x' :: cs => (16, cs)
  | '0' :: 'b' :: cs => (2, cs)
  | '0' :: 'o' :: cs => (8, cs)
  | '0' :: c :: cs => (8, c :: cs)
  | cs => (10, cs)

/-- Decimal, hexadecimal, binary and octal integers with underscores between their digits. -/
def integer? (text : String) : Option Int :=
  let (radix, cs) := radixOf ((text.toList.filter (· != '_')).map Text.lowerAscii)
  Text.signed? radix cs

end ArrayShapes.Literal
