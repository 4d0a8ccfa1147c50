import ArrayShapes.Text.Numeral

/-!
Data in JSON, read strictly and written with two blanks for each level. Numbers are whole numbers:
nothing here has any other.
-/

namespace ArrayShapes.Command

inductive Json where
  | null
  | bool (value : Bool)
  | number (value : Int)
  | string (value : String)
  | array (items : List Json)
  | object (fields : List (String × Json))
deriving Inhabited, Repr

namespace Json

/-! ### Reading -/

def isBlank (c : Char) : Bool := c == ' ' || c == '\n' || c == '\t' || c == '\r'

def skipBlank (cs : List Char) : List Char := cs.dropWhile isBlank

/-- The number that four hexadecimal digits stand for. -/
def unit? (a b c d : Char) : Option Nat := Text.numeral? 16 [a, b, c, d]

def escaped? : Char → Option Char
  | '"' => some '"'
  | '\\' => some '\\'
  | '/' => some '/'
  | 'b' => some '\x08'
  | 'f' => some '\x0c'
  | 'n' => some '\n'
  | 'r' => some '\r'
  | 't' => some '\t'
  | _ => none

/-- A string after its opening quote, and what follows it. A character beyond the first 65536 may be
escaped as two halves; a half alone is an error, and so is a control character. -/
def stringTail? : List Char → Option (List Char × List Char)
  | [] => none
  | '"' :: rest => some ([], rest)
  | '\\' :: 'u' :: a :: b :: c :: d :: rest => do
    let high ← unit? a b c d
    if 0xd800 ≤ high && high < 0xdc00 then
      match rest with
      | '\\' :: 'u' :: e :: f :: g :: h :: rest => do
        let low ← unit? e f g h
        if 0xdc00 ≤ low && low < 0xe000 then
          let code := 0x10000 + (high - 0xd800) * 0x400 + (low - 0xdc00)
          let (s, rest) ← stringTail? rest
          return (Char.ofNat code :: s, rest)
        else none
      | _ => none
    else if 0xdc00 ≤ high && high < 0xe000 then none
    else
      let (s, rest) ← stringTail? rest
      return (Char.ofNat high :: s, rest)
  | '\\' :: c :: rest => do
    let c ← escaped? c
    let (s, rest) ← stringTail? rest
    return (c :: s, rest)
  | c :: rest =>
    if c == '\\' || c.toNat < 0x20 then none
    else (stringTail? rest).map fun (s, rest) => (c :: s, rest)

/-- Digits without a zero in front of others. -/
def digits? (cs : List Char) : Option (Nat × List Char) :=
  let ds := cs.takeWhile Text.isAsciiDigit
  let rest := cs.dropWhile Text.isAsciiDigit
  if (ds.length > 1 && ds.head? == some '0') ||
      rest.head?.any (fun c => c == '.' || c == 'e' || c == 'E') then none
  else (Text.numeral? 10 ds).map fun n => (n, rest)

/-- A whole number. Zero has no sign. -/
def number? : List Char → Option (Int × List Char)
  | '-' :: cs => do
    let (n, rest) ← digits? cs
    if n = 0 then none else some (-(n : Int), rest)
  | cs => (digits? cs).map fun (n, rest) => ((n : Int), rest)

mutual

/-- A value and what follows it, nested at most `fuel` deep. -/
def value? : (fuel : Nat) → List Char → Option (Json × List Char)
  | 0, _ => none
  | fuel + 1, cs =>
    match skipBlank cs with
    | 'n' :: 'u' :: 'l' :: 'l' :: rest => some (.null, rest)
    | 't' :: 'r' :: 'u' :: 'e' :: rest => some (.bool true, rest)
    | 'f' :: 'a' :: 'l' :: 's' :: 'e' :: rest => some (.bool false, rest)
    | '"' :: rest => (stringTail? rest).map fun (s, rest) => (.string (String.ofList s), rest)
    | '[' :: rest =>
      match skipBlank rest with
      | ']' :: rest => some (.array [], rest)
      | rest => (items? fuel rest).map fun (items, rest) => (.array items, rest)
    | '{' :: rest =>
      match skipBlank rest with
      | '}' :: rest => some (.object [], rest)
      | rest => (fields? fuel rest).map fun (fields, rest) => (.object fields, rest)
    | rest => (number? rest).map fun (n, rest) => (.number n, rest)

/-- Values with commas between them, through the bracket that closes them. -/
def items? : (fuel : Nat) → List Char → Option (List Json × List Char)
  | 0, _ => none
  | fuel + 1, cs => do
    let (item, rest) ← value? fuel cs
    match skipBlank rest with
    | ']' :: rest => return ([item], rest)
    | ',' :: rest =>
      let (items, rest) ← items? fuel rest
      return (item :: items, rest)
    | _ => none

/-- Names with their values and commas between them, through the brace that closes them. -/
def fields? : (fuel : Nat) → List Char → Option (List (String × Json) × List Char)
  | 0, _ => none
  | fuel + 1, cs => do
    match skipBlank cs with
    | '"' :: rest =>
      let (name, rest) ← stringTail? rest
      match skipBlank rest with
      | ':' :: rest =>
        let (value, rest) ← value? fuel rest
        match skipBlank rest with
        | '}' :: rest => return ([(String.ofList name, value)], rest)
        | ',' :: rest =>
          let (fields, rest) ← fields? fuel rest
          return ((String.ofList name, value) :: fields, rest)
        | _ => none
      | _ => none
    | _ => none

end

/-- The value a text holds, with nothing but blanks around it. Every step inward takes a character,
so the length of the text is fuel enough. -/
def read? (text : String) : Option Json := do
  let cs := text.toList
  let (value, rest) ← value? (2 * cs.length + 2) cs
  if (skipBlank rest).isEmpty then some value else none

/-! ### Writing -/

def hexDigit (n : Nat) : Char := if n < 10 then Char.ofNat (48 + n) else Char.ofNat (87 + n)

def escape (c : Char) : List Char :=
  match c with
  | '"' => ['\\', '"']
  | '\\' => ['\\', '\\']
  | '\x08' => ['\\', 'b']
  | '\x0c' => ['\\', 'f']
  | '\n' => ['\\', 'n']
  | '\r' => ['\\', 'r']
  | '\t' => ['\\', 't']
  | c =>
    if c.toNat < 0x20 then ['\\', 'u', '0', '0', hexDigit (c.toNat / 16), hexDigit (c.toNat % 16)]
    else [c]

def quote (s : String) : String := "\"" ++ String.ofList (s.toList.flatMap escape) ++ "\""

/-- A new line with two blanks for each level. -/
def newLine (level : Nat) : String := "\n" ++ String.ofList (List.replicate (2 * level) ' ')

mutual

def write (level : Nat) : Json → String
  | .null => "null"
  | .bool true => "true"
  | .bool false => "false"
  | .number n => toString n
  | .string s => quote s
  | .array [] => "[]"
  | .array (item :: items) => "[" ++ writeItems (level + 1) (item :: items) ++ newLine level ++ "]"
  | .object [] => "\x7b\x7d"
  | .object (field :: fields) =>
    "\x7b" ++ writeFields (level + 1) (field :: fields) ++ newLine level ++ "\x7d"

def writeItems (level : Nat) : List Json → String
  | [] => ""
  | item :: items =>
    newLine level ++ write level item ++ (if items.isEmpty then "" else ",") ++ writeItems level items

def writeFields (level : Nat) : List (String × Json) → String
  | [] => ""
  | (name, value) :: fields =>
    newLine level ++ quote name ++ ": " ++ write level value ++
      (if fields.isEmpty then "" else ",") ++ writeFields level fields

end

/-- The text of a value over several lines. -/
def pretty (j : Json) : String := write 0 j

end Json

end ArrayShapes.Command
