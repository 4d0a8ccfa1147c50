import ArrayShapes.Syntax.Grammar.Declaration

/-!
Expressions. Binary operators are read by binding power; the left operand of a binary, postfix or
assignment phrase is wrapped after it has been read.
-/

namespace ArrayShapes.Syntax.Grammar

open ArrayShapes.Syntax.Parser

/-! ### Operators -/

/-- Keywords in front of an operand that bind more loosely than any binary operator. -/
def looseKeywords : List String :=
  ["yield", "print", "throw", "include", "include_once", "require", "require_once"]

structure Operator where
  power : Nat
  kind : PhraseKind
  rightAssociative : Bool := false
deriving Repr

def operatorOf? : TokenKind → Option Operator
  | .questionQuestion => some { power := 1, kind := .coalesceExpression, rightAssociative := true }
  | .barBar => some ⟨2, .logicalExpression, false⟩
  | .ampersandAmpersand => some ⟨3, .logicalExpression, false⟩
  | .bar => some ⟨4, .bitwiseExpression, false⟩
  | .caret => some ⟨5, .bitwiseExpression, false⟩
  | .ampersand => some ⟨6, .bitwiseExpression, false⟩
  | .equalsEquals | .exclamationEquals | .equalsEqualsEquals | .exclamationEqualsEquals
  | .spaceship => some ⟨7, .equalityExpression, false⟩
  | .lessThan | .greaterThan | .lessThanEquals | .greaterThanEquals =>
    some ⟨8, .relationalExpression, false⟩
  | .dot => some ⟨9, .additiveExpression, false⟩
  | .lessThanLessThan | .greaterThanGreaterThan => some ⟨10, .shiftExpression, false⟩
  | .plus | .minus => some ⟨11, .additiveExpression, false⟩
  | .asterisk | .slash | .percent => some ⟨12, .multiplicativeExpression, false⟩
  | _ => none

/-- The binary operator ahead; `instanceof` is one too. -/
def operatorAhead? (b : Builder) : Option Operator :=
  if b.isKeyword "instanceof" then some ⟨13, .instanceOfExpression, false⟩
  else b.kind?.bind operatorOf?

/-! ### From loose to tight -/

/-- A whole expression, with the operators written as words. -/
def expression (rules : Rules) : Parser Unit :=
  nested .expression do
    let start ← mark
    rules .assignment
    loopWhile (·.isAnyKeyword ["and", "or", "xor"]) do
      advance
      rules .assignment
      finish .logicalExpression start

def ternary (rules : Rules) : Parser Unit := do
  let start ← mark
  rules (.binary 0)
  loopWhile (·.isAt .question) do
    advance
    if !(← get).isAt .colon then rules .assignment
    expect .colon ":"
    rules .assignment
    finish .ternaryExpression start

/-- A keyword and its operand; `yield` may stand alone. -/
def looseKeyword (rules : Rules) : Parser Unit :=
  phrase .unaryOpExpression do
    let isYield := (← get).isKeyword "yield"
    advance
    if isYield then skipOptionalKeyword "from"
    if !(isYield && isExpressionEnd (← get)) then rules .assignment

def assignment (rules : Rules) : Parser Unit := do
  let start ← mark
  if (← get).isAnyKeyword looseKeywords then looseKeyword rules
  else
    ternary rules
    match (← get).kind? with
    | some .equals =>
      advance
      skipOptional .ampersand
      rules .assignment
      finish .simpleAssignmentExpression start
    | some .compoundAssignment =>
      advance
      rules .assignment
      finish .compoundAssignmentExpression start
    | _ => pure ()

def binary (rules : Rules) (least : Nat) : Parser Unit := do
  let start ← mark
  rules .unary
  loop do
    match operatorAhead? (← get) with
    | some op =>
      if op.power < least then return false
      else
        advance
        rules (.binary (if op.rightAssociative then op.power else op.power + 1))
        finish op.kind start
        return true
    | none => return false

/-! ### Postfix phrases -/

def simpleVariable (rules : Rules) : Parser Unit :=
  phrase .simpleVariable do
    if ← accept .dollar then
      if ← accept .openBrace then
        rules .expression
        expect .closeBrace "\x7d"
      else if isVariableStart (← get) then rules .simpleVariable
      else report (.missing .variable)
    else expect .variableName "$variable"

def bracedExpression (rules : Rules) : Parser Unit := do
  advance
  rules .expression
  expect .closeBrace "\x7d"

def memberName (rules : Rules) : Parser Unit :=
  phrase .memberName do
    let b ← get
    if b.isAt .name then advance
    else if isVariableStart b then rules .simpleVariable
    else if b.isAt .openBrace then bracedExpression rules
    else report (.missing .identifier)

def argument (rules : Rules) : Parser Unit := do
  let start ← mark
  let b ← get
  if b.isAt .ellipsis then
    advance
    rules .expression
    finish .variadicUnpacking start
  else if b.isAt .name && b.nthIs 1 .colon then
    advance
    advance
    rules .expression
    finish .namedArgument start
  else rules .expression

/-- Arguments with commas between them; a lone `...` makes a callable. -/
def arguments (rules : Rules) : Parser Unit :=
  phrase .argumentExpressionList <| loop do
    let b ← get
    if b.atEnd || b.isAt .closeParen then return false
    else if b.isAt .ellipsis && b.nthIs 1 .closeParen then
      advance
      return false
    else if ← progress (argument rules) then accept .comma
    else return false

def argumentList (rules : Rules) : Parser Unit := do
  expect .openParen "("
  arguments rules
  expect .closeParen ")"

/-- Brackets and what stands between them, around the operand at `start`. -/
def subscript (rules : Rules) (start : Nat) : Parser Unit := do
  advance
  if !(← get).isAt .closeBracket then rules .expression
  expect .closeBracket "]"
  finish .subscriptExpression start

/-- An arrow and what follows it, around the operand at `start`. -/
def memberAccess (rules : Rules) (start : Nat) : Parser Unit := do
  advance
  memberName rules
  if (← get).isAt .openParen then
    argumentList rules
    finish .methodCallExpression start
  else finish .propertyAccessExpression start

/-- `::` and what follows it, around the operand at `start`. -/
def scopedAccess (rules : Rules) (start : Nat) : Parser Unit := do
  advance
  let ofVariable := isVariableStart (← get)
  phrase .scopedMemberName do
    if ofVariable then rules .simpleVariable
    else if (← get).isAt .openBrace then bracedExpression rules
    else expect .name "identifier"
  if (← get).isAt .openParen then
    argumentList rules
    finish .scopedCallExpression start
  else if ofVariable then finish .scopedPropertyAccessExpression start
  else finish .classConstantAccessExpression start

/-- One subscript, member access, call or increment around the operand at `start`; tells whether
there was one. -/
def postfixStep (rules : Rules) (start : Nat) : Parser Bool := do
  match (← get).kind? with
  | some .openBracket =>
    subscript rules start
    return true
  | some .arrow | some .nullsafeArrow =>
    memberAccess rules start
    return true
  | some .colonColon =>
    scopedAccess rules start
    return true
  | some .openParen =>
    argumentList rules
    finish .functionCallExpression start
    return true
  | some .plusPlus | some .minusMinus =>
    advance
    finish .postfixIncrementExpression start
    return true
  | _ => return false

/-! ### Primary expressions -/

/-- A key and a value, a value, a value by reference, or a spread. -/
def arrayElement (rules : Rules) : Parser Unit :=
  phrase .arrayElement do
    let start ← mark
    if (← get).isAtAny [.ellipsis, .ampersand] then
      advance
      rules .expression
      finish .arrayValue start
    else
      rules .expression
      if (← get).isAt .fatArrow then
        finish .arrayKey start
        advance
        phrase .arrayValue do
          skipOptional .ampersand
          rules .expression
      else finish .arrayValue start

/-- Elements up to the closing bracket; a comma alone is an empty slot. -/
def arrayElements (rules : Rules) (close : TokenKind) : Parser Unit :=
  phrase .arrayInitialiserList <| loop do
    let b ← get
    if b.atEnd || b.isAt close then return false
    else if ← accept .comma then return true
    else if ← progress (arrayElement rules) then accept .comma
    else return false

/-- An array in brackets, or in parentheses after `array` or `list`. -/
def arrayCreation (rules : Rules) : Parser Unit :=
  phrase .arrayCreationExpression do
    if ← accept .openBracket then
      arrayElements rules .closeBracket
      expect .closeBracket "]"
    else
      advance
      expect .openParen "("
      arrayElements rules .closeParen
      expect .closeParen ")"

/-- Variables a closure takes from around it. -/
def useClause (rules : Rules) : Parser Unit := do
  if (← get).isKeyword "use" then
    phrase .anonymousFunctionUseClause do
      advance
      expect .openParen "("
      loop do
        let b ← get
        if b.atEnd || b.isAt .closeParen then return false
        else
          let start ← mark
          skipOptional .ampersand
          if ← expect? .variableName "$variable" then
            finish .anonymousFunctionUseVariable start
            accept .comma
          else return false
      expect .closeParen ")"
  returnType rules

def anonymousFunction (rules : Rules) : Parser Unit :=
  phrase .anonymousFunctionCreationExpression do
    skipOptionalKeyword "static"
    phrase .anonymousFunctionHeader do
      advance
      skipOptional .ampersand
      parameterList rules
      useClause rules
    functionBody rules

def arrowFunction (rules : Rules) : Parser Unit :=
  phrase .arrowFunction do
    skipOptionalKeyword "static"
    phrase .arrowFunctionHeader do
      advance
      skipOptional .ampersand
      parameterList rules
      returnType rules
    expect .fatArrow "=>"
    phrase .arrowFunctionBody (rules .assignment)

def anonymousClass (rules : Rules) : Parser Unit :=
  phrase .anonymousClassDeclaration do
    advance
    if (← get).isAt .openParen then argumentList rules
    classHeritage
    classBody rules

def classDesignator (rules : Rules) : Parser Unit :=
  phrase .classTypeDesignator do
    let b ← get
    if b.isAt .name then qualifiedName
    else if isVariableStart b then rules .simpleVariable
    else if b.isAt .openParen then
      advance
      rules .expression
      expect .closeParen ")"
    else report (.missing .className)

def objectCreation (rules : Rules) : Parser Unit :=
  phrase .objectCreationExpression do
    advance
    if (← get).isKeyword "class" then anonymousClass rules
    else
      classDesignator rules
      if (← get).isAt .openParen then argumentList rules

/-- Conditions of a match arm with commas between them. -/
def matchConditions (rules : Rules) : Parser Unit :=
  loop do
    rules .expression
    if ← accept .comma then return !(← get).isAt .fatArrow else return false

def matchArm (rules : Rules) : Parser Unit :=
  phrase .matchArm do
    if !(← acceptKeyword "default") then matchConditions rules
    expect .fatArrow "=>"
    rules .expression

def matchExpression (rules : Rules) : Parser Unit :=
  phrase .matchExpression do
    advance
    expect .openParen "("
    rules .expression
    expect .closeParen ")"
    if ← expect? .openBrace "\x7b" then
      loop do
        let b ← get
        if b.atEnd || b.isAt .closeBrace then return false
        else if ← progress (matchArm rules) then accept .comma
        else return false
      expect .closeBrace "\x7d"

def parenthesized (rules : Rules) : Parser Unit :=
  phrase .parenthesizedExpression do
    advance
    rules .expression
    expect .closeParen ")"

def shellCommand : Parser Unit :=
  phrase .shellCommandExpression do
    advance
    loopWhile (fun b => !b.atEnd && !b.isAt .backtick) advance
    expect .backtick "\x60"

/-- A name by itself is a constant, unless it is called or scoped into. -/
def constantName : Parser Unit := do
  let start ← mark
  qualifiedName
  if !(← get).isAtAny [.openParen, .colonColon] then finish .constantAccessExpression start

def nameExpression (rules : Rules) : Parser Unit := do
  let b ← get
  let opensParen := b.nthIs 1 .openParen
  if b.isAnyKeyword ["array", "list"] && opensParen then arrayCreation rules
  else if b.isKeyword "function" || (b.isKeyword "static" && b.nthIsKeyword 1 "function") then
    anonymousFunction rules
  else if (b.isKeyword "fn" && (opensParen || b.nthIs 1 .ampersand)) ||
      (b.isKeyword "static" && b.nthIsKeyword 1 "fn") then
    arrowFunction rules
  else if b.isKeyword "new" then objectCreation rules
  else if b.isKeyword "match" && opensParen then matchExpression rules
  else constantName

/-- Where no expression starts an empty error phrase is left, and no token is taken. -/
def primary (rules : Rules) : Parser Unit := do
  match (← get).kind? with
  | some .variableName | some .dollar => rules .simpleVariable
  | some .integerLiteral | some .floatingLiteral | some .stringLiteral | some .heredoc => advance
  | some .openBracket => arrayCreation rules
  | some .openParen => parenthesized rules
  | some .backtick => shellCommand
  | some .name => nameExpression rules
  | _ =>
    report (.missing .expression)
    phrase .error (pure ())

def postfixExpression (rules : Rules) : Parser Unit := do
  let start ← mark
  primary rules
  loop (postfixStep rules start)

def unary (rules : Rules) : Parser Unit :=
  nested .expression do
    let start ← mark
    let b ← get
    if b.isAtAny [.exclamation, .tilde, .minus, .plus, .at, .plusPlus, .minusMinus, .ampersand] then
      advance
      rules .unary
      finish .unaryOpExpression start
    else if b.isAt .castOperator then
      advance
      rules .unary
      finish .castExpression start
    else if b.isKeyword "clone" then
      advance
      rules .unary
      finish .unaryOpExpression start
    else if b.isAnyKeyword looseKeywords then rules .assignment
    else
      postfixExpression rules
      if ← accept .asteriskAsterisk then
        rules .unary
        finish .exponentiationExpression start

end ArrayShapes.Syntax.Grammar
