import ArrayShapes.Syntax.Builder

/-!
The rules of the grammar that refer to each other. Everything else in the grammar is an ordinary
definition that takes the rules as an argument.
-/

namespace ArrayShapes.Syntax

inductive Rule where
  | statement
  | expression
  | assignment
  /-- Operators that bind at least as tightly as `least`. -/
  | binary (least : Nat)
  | unary
  | simpleVariable
  | typeDeclaration
deriving DecidableEq, Repr

/-- What each rule does. -/
abbrev Rules := Rule → Parser Unit

namespace Grammar

open ArrayShapes.Syntax.Parser

/-- Tokens that end an expression. -/
def isExpressionEnd (b : Builder) : Bool :=
  b.atEnd || b.isAtAny [.semicolon, .closeParen, .closeBracket, .closeBrace, .comma, .closeTag,
    .fatArrow, .colon]

def isVariableStart (b : Builder) : Bool := b.isAtAny [.variableName, .dollar]

def qualifiedName : Parser Unit := phrase .qualifiedName advance

/-- Names with commas between them. -/
def nameList : Parser Unit :=
  loop do
    if (← get).isAt .name then
      qualifiedName
      accept .comma
    else
      return false

/-- Takes tokens as they are through the brace that closes the next one. -/
def balancedBraces : Parser Unit := do
  go ((← get).left + 1) 0
where
  go : Nat → Nat → Parser Unit
    | 0, _ => failure
    | n + 1, depth => do
      match (← get).kind? with
      | none => pure ()
      | some .openBrace =>
        advance
        go n (depth + 1)
      | some .closeBrace =>
        advance
        if depth > 1 then go n (depth - 1)
      | some _ =>
        advance
        go n depth

end Grammar

end ArrayShapes.Syntax
