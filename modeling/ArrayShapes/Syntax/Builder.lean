import ArrayShapes.Syntax.Arena
import ArrayShapes.Text.Character

/-!
Building a tree from tokens. The tree grows bottom-up on a stack of finished nodes: a *mark*
remembers the height of the stack, and finishing a phrase wraps everything above its mark. A left
operand is wrapped after the fact by finishing at the mark taken before it.

Blank text waits in front of the token it precedes. It is placed when that token is taken or when a
mark is taken, so that blank text in front of a phrase lands outside it, next to it.
-/

namespace ArrayShapes.Syntax

/-- A token the grammar sees, with the blank text in front of it that is not placed yet. `word` is
the token in lower case when it is a name: keywords are names. -/
structure Lexeme where
  blank : List Token
  token : Token
  word : Option String
deriving Inhabited

namespace Lexeme

def make (blank : List Token) (t : Token) : Lexeme where
  blank := blank
  token := t
  word := if t.kind = .name then some (Text.lower t.text) else none

/-- Groups tokens into lexemes; `held` is the blank text read so far, last first. What is left over
is the blank text at the end. -/
def group (held : List Token) (done : List Lexeme) : List Token → List Lexeme × List Token
  | [] => (done.reverse, held.reverse)
  | t :: ts =>
    if t.isTrivia then group (t :: held) done ts
    else group [] (make held.reverse t :: done) ts

end Lexeme

/-- How deep expressions and statements may nest. -/
def maxDepth : Nat := 1000

/-- A tree under construction. -/
structure Builder where
  /-- Tokens not taken yet. -/
  ahead : List Lexeme
  /-- How many they are. -/
  left : Nat
  /-- Blank text after the last token, until it is placed. -/
  trailing : List Token
  /-- Length of the source in bytes. -/
  sourceEnd : Nat
  /-- Finished nodes that belong to no phrase yet. -/
  pending : Array Tree
  /-- All nodes that have been made. -/
  arena : Arena
  depth : Nat
  diagnostics : Array Diagnostic
  /-- Where the last problem was reported. -/
  lastReport : Option Nat

namespace Builder

def ofTokens (tokens : List Token) (sourceEnd : Nat) : Builder :=
  let (ahead, trailing) := Lexeme.group [] [] tokens
  { ahead, left := ahead.length, trailing, sourceEnd, pending := #[], arena := .empty, depth := 0,
    diagnostics := #[], lastReport := none }

/-! ### Looking ahead -/

def atEnd (b : Builder) : Bool := b.ahead.isEmpty

def kind? (b : Builder) : Option TokenKind := b.ahead.head?.map (·.token.kind)

def nthKind? (b : Builder) (n : Nat) : Option TokenKind := (b.ahead[n]?).map (·.token.kind)

def isAt (b : Builder) (k : TokenKind) : Bool := b.kind? == some k

def isAtAny (b : Builder) (ks : List TokenKind) : Bool := b.kind?.any ks.contains

def nthIs (b : Builder) (n : Nat) (k : TokenKind) : Bool := b.nthKind? n == some k

def word? (b : Builder) : Option String := b.ahead.head?.bind (·.word)

def isKeyword (b : Builder) (w : String) : Bool := b.word? == some w

def isAnyKeyword (b : Builder) (ws : List String) : Bool := b.word?.any ws.contains

def nthIsKeyword (b : Builder) (n : Nat) (w : String) : Bool :=
  (b.ahead[n]?).bind (·.word) == some w

/-- Where the next token starts, or the end of the source. -/
def pos (b : Builder) : Nat := b.ahead.head?.elim b.sourceEnd (·.token.pos)

/-! ### Placing nodes -/

/-- How many nodes have been made; the number of the next one. -/
def made (b : Builder) : Nat := b.arena.size

def place (b : Builder) (t : Token) : Builder :=
  { b with pending := b.pending.push (.token b.made t), arena := b.arena.addToken t }

def placeAll (b : Builder) (ts : List Token) : Builder := ts.foldl place b

/-- Places the blank text in front of the next token, or at the end of the source. -/
def flush (b : Builder) : Builder :=
  match b.ahead with
  | [] => { b.placeAll b.trailing with trailing := [] }
  | l :: rest =>
    match l.blank with
    | [] => b
    | blank => { b.placeAll blank with ahead := { l with blank := [] } :: rest }

/-- Takes the next token. -/
def advance (b : Builder) : Builder :=
  match b.ahead with
  | [] => b
  | l :: rest => { (b.placeAll l.blank).place l.token with ahead := rest, left := b.left - 1 }

/-- Wraps the nodes above a mark into a phrase. A phrase with nothing in it stands where the next
token starts. -/
def finish (b : Builder) (kind : PhraseKind) (mark : Nat) : Builder :=
  let children := (b.pending.extract mark b.pending.size).toList
  let start := (children.head?.map Tree.pos).getD b.pos
  let stop := (children.getLast?.map Tree.stop).getD b.pos
  { b with
    pending := (b.pending.shrink mark).push (.phrase b.made kind start stop children)
    arena := b.arena.addPhrase (children.map Tree.id) }

/-- Reports a problem with the next token, or with the end of the source. The second problem in a
row at one place is not reported. -/
def report (b : Builder) (p : Problem) : Builder :=
  let start := b.pos
  if b.lastReport = some start then b
  else
    let length := b.ahead.head?.elim 0 (·.token.size)
    { b with diagnostics := b.diagnostics.push ⟨start, length, p⟩, lastReport := some start }

end Builder

/-- A step of the grammar: it takes tokens and leaves nodes. A step that would not end has no result,
and neither has one from a builder that it is not made for. -/
abbrev Parser := StateT Builder Option

namespace Parser

def advance : Parser Unit := modify Builder.advance

def report (p : Problem) : Parser Unit := modify (·.report p)

/-- A mark in front of the next token. -/
def mark : Parser Nat := modifyGet fun b => let b := b.flush; (b.pending.size, b)

/-- A mark in front of the blank text before the next token. -/
def markOutside : Parser Nat := return (← get).pending.size

/-- A change of builders of which `ok` holds. There is no result from others. -/
def modifyIf (ok : Builder → Bool) (f : Builder → Builder) : Parser Unit :=
  fun b => if ok b then some ((), f b) else none

/-- Wraps the nodes above a mark, which is not above the stack. -/
def finish (kind : PhraseKind) (mark : Nat) : Parser Unit :=
  modifyIf (mark ≤ ·.pending.size) (·.finish kind mark)

/-- One level down, where there is room. -/
def descend : Parser Unit :=
  modifyIf (·.depth < maxDepth) fun b => { b with depth := b.depth + 1 }

/-- One level up, where there is one above. -/
def ascend : Parser Unit :=
  modifyIf (0 < ·.depth) fun b => { b with depth := b.depth - 1 }

/-- What `body` takes, as one phrase. -/
@[always_inline, inline]
def phrase (kind : PhraseKind) (body : Parser Unit) : Parser Unit := do
  let start ← mark
  body
  finish kind start

/-- Like `phrase`, with the blank text in front taken in. -/
@[always_inline, inline]
def listPhrase (kind : PhraseKind) (body : Parser Unit) : Parser Unit := do
  let start ← markOutside
  body
  finish kind start

/-- Takes the next token if it is of this kind; tells whether it was. -/
def accept (k : TokenKind) : Parser Bool := do
  if (← get).isAt k then
    advance
    return true
  else
    return false

def acceptKeyword (w : String) : Parser Bool := do
  if (← get).isKeyword w then
    advance
    return true
  else
    return false

def skipOptional (k : TokenKind) : Parser Unit := do
  let _ ← accept k

def skipOptionalKeyword (w : String) : Parser Unit := do
  let _ ← acceptKeyword w

/-- Takes a token of this kind or reports that `text` should stand here. -/
def expect? (k : TokenKind) (text : String) : Parser Bool := do
  if ← accept k then
    return true
  else
    report (.expected text)
    return false

def expect (k : TokenKind) (text : String) : Parser Unit := do
  let _ ← expect? k text

def expectKeyword (w : String) : Parser Unit := do
  if !(← acceptKeyword w) then report (.expected w)

/-- The end of a statement: a semicolon, or nothing before a closing tag and at the end. -/
def endStatement : Parser Unit := do
  if !(← accept .semicolon) then
    let b ← get
    if !b.atEnd && !b.isAt .closeTag then report (.expected ";")

/-- Takes the next token as an error, with a problem to report. -/
def skipToken (p : Problem) : Parser Unit := do
  report p
  phrase .error advance

/-- Runs `body` one level deeper, or takes one token as an error where the nesting is too deep. -/
@[always_inline, inline]
def nested (construct : Construct) (body : Parser Unit) : Parser Unit := do
  if (← get).depth ≥ maxDepth then
    report .nestingTooDeep
    skipToken (.missing construct)
  else
    descend
    body
    ascend

/-- Runs `step` from `b` for as long as it asks to go on. To go on without having taken a token
would be to go on for ever. -/
@[specialize]
def repeatFrom (step : Parser Bool) (b : Builder) : Option Builder :=
  match step b with
  | none => none
  | some (false, b') => some b'
  | some (true, b') => if b'.left < b.left then repeatFrom step b' else none
termination_by b.left

/-- Repeats a step that tells whether to go on. -/
@[always_inline, inline]
def loop (step : Parser Bool) : Parser Unit := fun b => (repeatFrom step b).map ((), ·)

/-- Repeats `body` while the text ahead satisfies `go`. -/
@[always_inline, inline]
def loopWhile (go : Builder → Bool) (body : Parser Unit) : Parser Unit :=
  loop do
    if go (← get) then
      body
      return true
    else
      return false

/-- Whether `body` took a token. -/
@[always_inline, inline]
def progress (body : Parser Unit) : Parser Bool := do
  let before := (← get).left
  body
  return (← get).left != before

end Parser

end ArrayShapes.Syntax
