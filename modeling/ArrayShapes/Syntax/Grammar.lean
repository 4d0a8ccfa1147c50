import ArrayShapes.Syntax.Grammar.Statement

/-!
The grammar as a whole: the rules refer to each other as deep as their fuel lasts, and a source is a
list of statements.
-/

namespace ArrayShapes.Syntax.Grammar

open ArrayShapes.Syntax.Parser

/-- One rule, in terms of all of them. -/
def body (rules : Rules) : Rule → Parser Unit
  | .statement => statement rules
  | .expression => expression rules
  | .assignment => assignment rules
  | .binary least => binary rules least
  | .unary => unary rules
  | .simpleVariable => simpleVariable rules
  | .typeDeclaration => typeDeclaration rules

/-- The rules, referring to each other at most `fuel` deep. -/
def run : Nat → Rules
  | 0, _ => failure
  | fuel + 1, rule => body (run fuel) rule

/-- Fewer than sixteen rules are entered from one token to the next. -/
def fuelFor (tokens : Nat) : Nat := 16 * (tokens + 1)

/-- A whole source. Blank text at its end belongs to it. -/
def script : Parser Unit := do
  let start ← mark
  statementList (run (fuelFor (← get).left)) fun _ => false
  modify Builder.flush
  finish .script start

end ArrayShapes.Syntax.Grammar
