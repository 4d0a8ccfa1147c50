/-!
Problems found in a source text. Reading never stops at one: the problem is recorded with the
text it concerns, and reading goes on.
-/

namespace ArrayShapes

/-- What the grammar looked for and did not find. -/
inductive Construct where
  | expression | statement | member | identifier | variable | className
deriving DecidableEq, Repr

def Construct.title : Construct → String
  | .expression => "Expression"
  | .statement => "Statement"
  | .member => "Member declaration"
  | .identifier => "Identifier"
  | .variable => "Variable"
  | .className => "Class name"

inductive Problem where
  | unexpectedCharacter
  | unterminatedString
  | unterminatedHeredoc
  | nestingTooDeep
  /-- A piece of text that has to stand here does not. -/
  | expected (text : String)
  | missing (construct : Construct)
deriving DecidableEq, Repr

def Problem.message : Problem → String
  | .unexpectedCharacter => "Unexpected character."
  | .unterminatedString => "Unterminated string literal."
  | .unterminatedHeredoc => "Unterminated heredoc."
  | .nestingTooDeep => "Maximum nesting depth exceeded."
  | .expected text => "'" ++ text ++ "' expected."
  | .missing construct => construct.title ++ " expected."

/-- A problem with the `length` bytes of text that start at byte `start`. -/
structure Diagnostic where
  start : Nat
  length : Nat
  problem : Problem
deriving DecidableEq, Repr

def Diagnostic.message (d : Diagnostic) : String := d.problem.message

end ArrayShapes
