import ArrayShapes.Shape.Normal

/-!
Type expressions of doc comments.

    multi   := single ('|' single)*
    single  := base '[]'*
    base    := '?' single
             | name '<' multi (',' multi)* '>'
             | 'array' '{' (key ':' multi ',')* '}'
             | name
             | quoted string

The first alternative that fits is taken. White space and line comments may stand between tokens.
Reading never fails loudly: a malformed expression has no shape, and what is not read is left over.
-/

namespace ArrayShapes.Doc

/-- The shape that was read, if any, and the text left over. A failed attempt may take text. -/
abbrev Reading := Option Shape × List Char

namespace Expression

open Text

/-! ### Tokens -/

/-- Drops white space and the comments that run from `//` to the end of their line. A comment needs
its line end to be one. -/
def skipTrivia (cs : List Char) : List Char :=
  match _h : dropWhite cs with
  | '/' :: '/' :: rest =>
    if rest.contains '\n' then skipTrivia ((rest.dropWhile (· != '\n')).drop 1) else '/' :: '/' :: rest
  | rest => rest
termination_by cs.length
decreasing_by
  have h₁ := (List.dropWhile_suffix (l := cs) isWhite).length_le
  have h₂ := (List.dropWhile_suffix (l := rest) (· != '\n')).length_le
  rw [dropWhite] at _h
  rw [_h] at h₁
  simp at h₁ h₂ ⊢
  omega

/-- What follows a character and the white space around it. -/
def punctuation? (c : Char) (cs : List Char) : Option (List Char) :=
  match dropWhite cs with
  | d :: rest => if d == c then some (dropWhite rest) else none
  | [] => none

def isNameStart (c : Char) : Bool := isAsciiLetter c || c == '_' || c == '\\'

def isNameChar (c : Char) : Bool := isAsciiAlphanumeric c || c == '_' || c == '\\'

/-- The rest of a name that has begun. A dash belongs to it when a letter follows. -/
def nameTail : List Char → List Char × List Char
  | [] => ([], [])
  | c :: cs =>
    if isNameChar c || (c == '-' && cs.head?.any isAsciiLetter) then
      let (name, rest) := nameTail cs
      (c :: name, rest)
    else ([], c :: cs)

def name? : List Char → Option (String × List Char)
  | [] => none
  | c :: cs =>
    if isNameStart c then
      let (name, rest) := nameTail cs
      some (String.ofList (c :: name), rest)
    else none

/-- The content of a quoted string and what follows it; the opening quote has been read. A backslash
escapes the next character. -/
def quotedTail? (quote : Char) : List Char → Option (List Char × List Char)
  | [] => none
  | '\\' :: [] => none
  | '\\' :: c :: cs => (quotedTail? quote cs).map fun (content, rest) => (c :: content, rest)
  | c :: cs =>
    if c == quote then some ([], cs)
    else (quotedTail? quote cs).map fun (content, rest) => (c :: content, rest)

def isQuote (c : Char) : Bool := c == '\'' || c == '"'

def isKeyChar (c : Char) : Bool := isAsciiAlphanumeric c || c == '_'

/-- A word or a quoted string. -/
def keyText? (cs : List Char) : Option (List Char × List Char) :=
  match cs with
  | [] => none
  | c :: rest =>
    if isQuote c then quotedTail? c rest
    else if isKeyChar c then some (cs.takeWhile isKeyChar, cs.dropWhile isKeyChar)
    else none

/-- The key of a record entry with the colon after it. A question mark may stand between them. -/
def key? (cs : List Char) : Option (String × List Char) := do
  let (key, rest) ← keyText? (skipTrivia cs)
  let rest := match dropWhite rest with
    | '?' :: rest => rest
    | rest => rest
  return (String.ofList key, ← punctuation? ':' rest)

/-- Text up to the brace that closes a record, and what follows the brace. `depth` counts the inner
braces that are open; braces in quoted strings do not count. -/
def skipClosed (depth : Nat) (quote : Option Char) (escaped : Bool) :
    List Char → List Char × List Char
  | [] => ([], [])
  | c :: cs =>
    let go (depth : Nat) (quote : Option Char) (escaped : Bool) : List Char × List Char :=
      let (skipped, rest) := skipClosed depth quote escaped cs
      (c :: skipped, rest)
    match quote with
    | some q =>
      if escaped then go depth quote false
      else if c == '\\' then go depth quote true
      else go depth (if c == q then none else quote) false
    | none =>
      if c == '}' then
        match depth with
        | 0 => ([], cs)
        | depth + 1 => go depth none false
      else if c == '{' then go (depth + 1) none false
      else go depth (if isQuote c then some c else none) false

/-! ### Rules -/

/-- The rules that refer to themselves. -/
inductive Rule where
  | single
  | multi
deriving DecidableEq, Repr

abbrev Rules := Rule → List Char → Reading

/-- Expressions with commas between them. All of them have to be there. -/
def arguments (rules : Rules) (cs : List Char) : Option (List Shape) × List Char :=
  match rules .multi cs with
  | (none, rest) => (none, rest)
  | (some s, rest) =>
    match punctuation? ',' rest with
    | none => (some [s], rest)
    | some rest' =>
      if rest'.length < cs.length then
        let (ss, rest) := arguments rules rest'
        (ss.map (s :: ·), rest)
      else (none, rest')
termination_by cs.length

/-- Entries of a record with commas between them, up to the first that cannot be read. -/
def entries (rules : Rules) (cs : List Char) : List (Shape × Shape) × List Char :=
  match key? cs with
  | none => ([], cs)
  | some (key, rest) =>
    match rules .multi rest with
    | (none, rest) => ([], rest)
    | (some value, rest) =>
      match punctuation? ',' rest with
      | none => ([(.str key, value)], rest)
      | some rest' =>
        if rest'.length < cs.length then
          let (es, rest) := entries rules rest'
          ((.str key, value) :: es, rest)
        else ([(.str key, value)], rest')
termination_by cs.length

/-- A record after its opening brace. What cannot be read up to the closing brace is kept as it
stands. -/
def record (rules : Rules) (cs : List Char) : Shape × List Char :=
  let (es, rest) := entries rules cs
  let rest := (punctuation? ',' rest).getD rest
  match punctuation? '}' rest with
  | some rest => (Shape.ofEntries es none, rest)
  | none =>
    let (skipped, rest) := skipClosed 0 none false rest
    (Shape.ofEntries es (some (String.ofList skipped)), rest)

/-- What a name begins: a type with arguments, a record or the name alone. -/
def named (rules : Rules) (name : String) (cs : List Char) : Reading :=
  match punctuation? '<' cs with
  | some rest =>
    match arguments rules rest with
    | (none, rest) => (none, rest)
    | (some ss, rest) =>
      match punctuation? '>' rest with
      | some rest => (some (Shape.ofName name ss), rest)
      | none => (none, rest)
  | none =>
    match dropWhite cs with
    | '{' :: rest =>
      if name == "array" then
        let (s, rest) := record rules (dropWhite rest)
        (some s, rest)
      else (some (.plain name), '{' :: rest)
    | rest => (some (.plain name), rest)

def base (rules : Rules) (cs : List Char) : Reading :=
  match cs with
  | [] => (none, [])
  | c :: rest =>
    if c == '?' then
      let (s, rest) := rules .single rest
      (s.map fun s => .union [s, .plain "null"], rest)
    else if isQuote c then
      match quotedTail? c rest with
      | some (content, rest) => (some (.str (String.ofList content)), dropWhite rest)
      | none => (none, [])
    else
      match name? cs with
      | some (name, rest) => named rules name rest
      | none => (none, cs)

/-- Each `[]` behind a shape makes a list of it. -/
def brackets (s : Shape) : List Char → Shape × List Char
  | '[' :: ']' :: cs => brackets (.list s) cs
  | cs => (s, cs)

/-- A shape with the brackets behind it, if there are any. -/
def suffix (s : Shape) (cs : List Char) : Shape × List Char :=
  match dropWhite cs with
  | '[' :: ']' :: rest =>
    let (s, rest) := brackets (.list s) rest
    (s, dropWhite rest)
  | _ => (s, cs)

def single (rules : Rules) (cs : List Char) : Reading :=
  let start := skipTrivia cs
  match base rules start with
  | (none, rest) => (none, rest)
  | (some s, rest) =>
    if rest.length < start.length then
      let (s, rest) := suffix s rest
      (some s, rest)
    else (none, rest)

/-- What follows the first alternative: more of them, each after a bar. A bar without one is
dropped. -/
def others (rules : Rules) (cs : List Char) : List Shape × List Char :=
  match punctuation? '|' cs with
  | none => ([], cs)
  | some rest =>
    match single rules rest with
    | (none, rest) => ([], rest)
    | (some s, rest) =>
      if rest.length < cs.length then
        let (ss, rest) := others rules rest
        (s :: ss, rest)
      else ([s], rest)
termination_by cs.length

def multi (rules : Rules) (cs : List Char) : Reading :=
  match single rules cs with
  | (none, rest) => (none, rest)
  | (some s, rest) =>
    let (ss, rest) := others rules rest
    (some (.oneOf (s :: ss)), rest)

/-- The rules, referring to themselves at most `fuel` deep. -/
def run : Nat → Rules
  | 0, _, cs => (none, cs)
  | fuel + 1, .single, cs => single (run fuel) cs
  | fuel + 1, .multi, cs => multi (run fuel) cs

end Expression

/-- Reads the type expression a text starts with. A rule refers to itself only after it has taken a
character, so the length of the text is fuel enough. -/
def readExpression (cs : List Char) : Reading := Expression.run (cs.length + 1) .multi cs

/-- The shape a text starts with, and the text after it. -/
def expression? (text : String) : Option (Shape × String) :=
  match readExpression text.toList with
  | (some s, rest) => some (s, String.ofList rest)
  | (none, _) => none

end ArrayShapes.Doc
