import ArrayShapes.Token
import ArrayShapes.Text.Character

/-!
Scanning: a source text becomes the sequence of its tokens, none left out. Scanning moves between
two modes, markup and code. In either mode the next token is a *cut*: its kind, how many
characters it takes, and what is wrong with them. A cut is made by looking at the text ahead only,
so the text of the tokens, in order, is the source text whatever the cuts say.
-/

namespace ArrayShapes

open Text

namespace Scan

/-- Outside or inside the code tags. -/
inductive Mode where
  | markup | code
deriving DecidableEq, Repr

/-- A problem with `length` characters, `start` characters into a cut. -/
structure Fault where
  start : Nat
  length : Nat
  problem : Problem
deriving Repr

/-- The next token: its kind, its length in characters, its faults, and the mode after it. -/
structure Cut where
  kind : TokenKind
  length : Nat
  faults : List Fault := []
  mode : Mode := .code
deriving Repr

/-- A cut with one problem, which concerns all of it. -/
def Cut.faulty (kind : TokenKind) (length : Nat) (problem : Problem) : Cut :=
  { kind, length, faults := [⟨0, length, problem⟩] }

/-! ### Character classes -/

def isBlank (c : Char) : Bool :=
  c == ' ' || c == '\t' || c == '\n' || c == '\r' || c == '\x0b' || c == '\x0c'

/-- The blanks that do not end a line. -/
def isGap (c : Char) : Bool := c == ' ' || c == '\t'

def isLineEnd (c : Char) : Bool := c == '\n' || c == '\r'

def isNameStart (c : Char) : Bool := isAsciiLetter c || c == '_' || !isAscii c

def isNamePart (c : Char) : Bool := isNameStart c || isAsciiDigit c

def isQuote (c : Char) : Bool := c == '\'' || c == '"'

/-- How many characters at the front are in a class. -/
def run (p : Char → Bool) (cs : List Char) : Nat := (cs.takeWhile p).length

/-- Whether the first character, if there is one, is in a class. -/
def starts (p : Char → Bool) (cs : List Char) : Bool := cs.head?.any p

/-- Characters before the first occurrence of `needle`, added to `n`. -/
def before? (needle : List Char) (n : Nat) : List Char → Option Nat
  | [] => none
  | c :: cs => if needle.isPrefixOf (c :: cs) then some n else before? needle (n + 1) cs

/-! ### Markup -/

/-- `<?php` needs a blank or the end of the text after it; a bare `<?` opens code too. -/
def openTag (cs : List Char) : Cut :=
  if lower (String.ofList (cs.take 3)) == "php" && (cs.drop 3).head?.all isBlank then
    { kind := .openTag, length := 5 }
  else if starts (· == '=') cs then
    { kind := .openTagWithEcho, length := 3 }
  else
    { kind := .openTag, length := 2 }

def markup (cs : List Char) : Cut :=
  match cs with
  | '<' :: '?' :: rest => openTag rest
  | _ =>
    { kind := .inlineHtml, length := (before? ['<', '?'] 0 cs).getD cs.length, mode := .markup }

/-! ### Comments -/

/-- A line comment runs to the end of its line or to a closing tag. -/
def lineCommentLength (n : Nat) : List Char → Nat
  | [] => n
  | c :: cs =>
    if isLineEnd c || (c == '?' && starts (· == '>') cs) then n else lineCommentLength (n + 1) cs

/-- A comment that opens with two asterisks and a blank is a doc comment. -/
def blockComment (cs : List Char) : Cut :=
  let kind := match cs with
    | '/' :: '*' :: '*' :: rest => if starts isBlank rest then .documentComment else .comment
    | _ => TokenKind.comment
  match before? ['*', '/'] 2 (cs.drop 2) with
  | some n => { kind, length := n + 2 }
  | none => .faulty kind cs.length (.expected "*/")

/-! ### Strings -/

/-- Length of a quoted text, `n` characters of which stand before the given ones. A backslash
guards the character after it. Nothing when the quote is never closed. -/
def closedLength? (quote : Char) (n : Nat) : List Char → Option Nat
  | [] => none
  | ['\\'] => none
  | '\\' :: _ :: cs => closedLength? quote (n + 2) cs
  | c :: cs => if c == quote then some (n + 1) else closedLength? quote (n + 1) cs

/-- A string that is never closed ends with its first line. -/
def string (quote : Char) (cs : List Char) : Cut :=
  match closedLength? quote 1 (cs.drop 1) with
  | some n => { kind := .stringLiteral, length := n }
  | none => .faulty .stringLiteral (max 1 (run (!isLineEnd ·) cs)) .unterminatedString

/-- Length and faults of an attribute group once `n` characters of it are read and `depth`
brackets are open; `skip` characters ahead belong to a string. -/
def attributeFrom (n depth skip : Nat) (faults : List Fault) : List Char → Nat × Bool × List Fault
  | [] => (n, false, faults)
  | c :: cs =>
    if skip > 0 then attributeFrom (n + 1) depth (skip - 1) faults cs
    else if isQuote c then
      let cut := string c (c :: cs)
      let moved := cut.faults.map fun f => { f with start := f.start + n }
      attributeFrom (n + 1) depth (cut.length - 1) (faults ++ moved) cs
    else if c == '[' then attributeFrom (n + 1) (depth + 1) 0 faults cs
    else if c == ']' then
      if depth ≤ 1 then (n + 1, true, faults) else attributeFrom (n + 1) (depth - 1) 0 faults cs
    else attributeFrom (n + 1) depth 0 faults cs

/-- An attribute group is a comment. -/
def attributeGroup (cs : List Char) : Cut :=
  match attributeFrom 2 1 0 [] (cs.drop 2) with
  | (length, true, faults) => { kind := .comment, length, faults }
  | (length, false, faults) =>
    { kind := .comment, length, faults := faults ++ [⟨0, length, .expected "]"⟩] }

/-- Length of a heredoc once `n` characters are read: its end is a line that holds the label after
any blanks. -/
def heredocLength? (label : List Char) (n : Nat) : List Char → Option Nat
  | [] => none
  | c :: cs =>
    if c == '\n' then
      let gap := run isGap cs
      match after? label (cs.drop gap) with
      | some rest =>
        if starts isNamePart rest then heredocLength? label (n + 1) cs
        else some (n + 1 + gap + label.length)
      | none => heredocLength? label (n + 1) cs
    else heredocLength? label (n + 1) cs

/-- A heredoc, when the text after `<<<` names a label and ends its line there. -/
def heredoc? (cs : List Char) : Option Cut := do
  let gap := run isGap (cs.drop 3)
  let opened := cs.drop (3 + gap)
  let quote := opened.head?.filter isQuote
  let skip := if quote.isSome then 1 else 0
  let named := opened.drop skip
  guard (starts isNameStart named)
  let label := named.takeWhile isNamePart
  let closed := named.drop label.length
  guard (quote.all fun q => starts (· == q) closed)
  let body := closed.drop skip
  guard (starts isLineEnd body)
  let head := 3 + gap + skip + label.length + skip
  return match heredocLength? label head body with
    | some n => { kind := .heredoc, length := n }
    | none => .faulty .heredoc cs.length .unterminatedHeredoc

/-! ### Names and numbers -/

/-- Length of a name whose segments a backslash joins, `n` characters of it already read. The
text ahead is passed over one character at a time. -/
def nameLength (n : Nat) : List Char → Nat
  | [] => n
  | c :: cs =>
    if isNamePart c then nameLength (n + 1) cs
    else if c == '\\' && starts isNameStart cs then nameLength (n + 1) cs
    else n

/-- The digits that may follow `0x`, `0o` and `0b`, in either case. -/
def radixDigit? (marker : Char) : Option (Char → Bool) :=
  match lowerAscii marker with
  | 'x' => some fun c => isAsciiDigit c || ('a' ≤ lowerAscii c && lowerAscii c ≤ 'f') || c == '_'
  | 'o' => some fun c => ('0' ≤ c && c ≤ '7') || c == '_'
  | 'b' => some fun c => c == '0' || c == '1' || c == '_'
  | _ => none

def isDigitOrSeparator (c : Char) : Bool := isAsciiDigit c || c == '_'

/-- The fraction at the front, with its point. -/
def fractionLength (cs : List Char) : Nat :=
  if starts (· == '.') cs && starts isAsciiDigit (cs.drop 1) then
    1 + run isDigitOrSeparator (cs.drop 1)
  else 0

/-- The exponent at the front, with its letter and sign. -/
def exponentLength (cs : List Char) : Nat :=
  if starts (fun c => c == 'e' || c == 'E') cs then
    let sign := if starts (fun c => c == '+' || c == '-') (cs.drop 1) then 1 else 0
    if starts isAsciiDigit (cs.drop (1 + sign)) then
      1 + sign + run isDigitOrSeparator (cs.drop (1 + sign))
    else 0
  else 0

def decimal (cs : List Char) : Cut :=
  let whole := run isDigitOrSeparator cs
  let fraction := fractionLength (cs.drop whole)
  let exponent := exponentLength (cs.drop (whole + fraction))
  { kind := if fraction + exponent = 0 then .integerLiteral else .floatingLiteral
    length := whole + fraction + exponent }

def number (cs : List Char) : Cut :=
  match cs with
  | '0' :: marker :: rest =>
    match radixDigit? marker with
    | some digit => { kind := .integerLiteral, length := 2 + run digit rest }
    | none => decimal cs
  | _ => decimal cs

/-! ### Punctuation -/

/-- The words that make a cast when they stand alone in parentheses. -/
def castWords : List String :=
  ["int", "integer", "bool", "boolean", "float", "double", "real", "string", "array", "object",
    "unset", "binary"]

def cast? (cs : List Char) : Option Cut :=
  let gap := run isGap (cs.drop 1)
  let word := (cs.drop (1 + gap)).takeWhile isAsciiLetter
  let tail := cs.drop (1 + gap + word.length)
  let close := run isGap tail
  if starts (· == ')') (tail.drop close) && castWords.contains (lower (String.ofList word)) then
    some { kind := .castOperator, length := 1 + gap + word.length + close + 1 }
  else none

/-- A closing tag takes the line end right after it. -/
def closeTag (rest : List Char) : Cut :=
  let taken := match rest with
    | '\r' :: '\n' :: _ => 2
    | '\n' :: _ => 1
    | _ => 0
  { kind := .closeTag, length := 2 + taken, mode := .markup }

/-- Operators and brackets. Where one text starts with another, the longer stands first. -/
def operators : List (List Char × TokenKind) :=
  [("?->", .nullsafeArrow), ("??=", .compoundAssignment), ("...", .ellipsis),
    ("**=", .compoundAssignment), ("===", .equalsEqualsEquals), ("!==", .exclamationEqualsEquals),
    ("<=>", .spaceship), ("<<=", .compoundAssignment), (">>=", .compoundAssignment),
    ("/=", .compoundAssignment), ("??", .questionQuestion), (".=", .compoundAssignment),
    ("::", .colonColon), ("->", .arrow), ("--", .minusMinus), ("-=", .compoundAssignment),
    ("++", .plusPlus), ("+=", .compoundAssignment), ("**", .asteriskAsterisk),
    ("*=", .compoundAssignment), ("%=", .compoundAssignment), ("==", .equalsEquals),
    ("=>", .fatArrow), ("!=", .exclamationEquals), ("<<", .lessThanLessThan),
    ("<=", .lessThanEquals), ("<>", .exclamationEquals), (">>", .greaterThanGreaterThan),
    (">=", .greaterThanEquals), ("&&", .ampersandAmpersand), ("&=", .compoundAssignment),
    ("||", .barBar), ("|=", .compoundAssignment), ("^=", .compoundAssignment), ("/", .slash),
    ("?", .question), ("$", .dollar), ("\x60", .backtick), (".", .dot), ("(", .openParen),
    (")", .closeParen), ("[", .openBracket), ("]", .closeBracket), ("\x7b", .openBrace),
    ("\x7d", .closeBrace), (";", .semicolon), (",", .comma), ("~", .tilde), ("@", .at),
    (":", .colon), ("-", .minus), ("+", .plus), ("*", .asterisk), ("%", .percent), ("=", .equals),
    ("!", .exclamation), ("<", .lessThan), (">", .greaterThan), ("&", .ampersand), ("|", .bar),
    ("^", .caret)].map fun (text, kind) => (text.toList, kind)

def operator (cs : List Char) : Cut :=
  match operators.find? fun o => o.1.isPrefixOf cs with
  | some (text, kind) => { kind, length := text.length }
  | none => .faulty .unknown 1 .unexpectedCharacter

/-! ### Code -/

def code (cs : List Char) : Cut :=
  match cs with
  | '#' :: '[' :: _ => attributeGroup cs
  | '#' :: _ => { kind := .comment, length := lineCommentLength 0 cs }
  | '/' :: '/' :: _ => { kind := .comment, length := lineCommentLength 0 cs }
  | '/' :: '*' :: _ => blockComment cs
  | '?' :: '>' :: rest => closeTag rest
  | '(' :: _ => (cast? cs).getD { kind := .openParen, length := 1 }
  | '<' :: '<' :: '<' :: _ => (heredoc? cs).getD (operator cs)
  | c :: rest =>
    if isBlank c then { kind := .whitespace, length := run isBlank cs }
    else if isQuote c then string c cs
    else if isAsciiDigit c || (c == '.' && starts isAsciiDigit rest) then number cs
    else if c == '$' && starts isNameStart rest then
      { kind := .variableName, length := 1 + run isNamePart rest }
    else if isNameStart c || (c == '\\' && starts isNameStart rest) then
      { kind := .name, length := nameLength 1 rest }
    else operator cs
  | [] => operator cs

def Mode.cut : Mode → List Char → Cut
  | .markup => Scan.markup
  | .code => Scan.code

/-- A fault of a cut at byte `pos`, measured in bytes. -/
def Fault.diagnostic (f : Fault) (pos : Nat) (cs : List Char) : Diagnostic where
  start := pos + byteLength (cs.take f.start)
  length := byteLength ((cs.drop f.start).take f.length)
  problem := f.problem

end Scan

/-- The tokens of a source text and the problems found in it, both in order. -/
structure Scanned where
  tokens : Array Token
  diagnostics : Array Diagnostic

namespace Scan

/-- Every round takes at least one character, whatever the cut says. -/
def fromMode (mode : Mode) (pos : Nat) (cs : List Char) (done : Scanned) : Scanned :=
  match cs with
  | [] => done
  | c :: rest =>
    let cut := mode.cut (c :: rest)
    let text := String.ofList (c :: rest.take (cut.length - 1))
    let faults := cut.faults.map (·.diagnostic pos (c :: rest))
    fromMode cut.mode (pos + text.utf8ByteSize) (rest.drop (cut.length - 1))
      { tokens := done.tokens.push ⟨cut.kind, pos, text⟩
        diagnostics := done.diagnostics ++ faults.toArray }
termination_by cs.length
decreasing_by simp only [List.length_cons, List.length_drop]; omega

end Scan

/-- All tokens of a source text, blank text and comments included. -/
def scan (source : String) : Scanned := Scan.fromMode .markup 0 source.toList ⟨#[], #[]⟩

end ArrayShapes
