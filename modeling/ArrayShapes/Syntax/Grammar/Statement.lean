import ArrayShapes.Syntax.Grammar.Expression

/-!
Statements. The keyword a statement starts with tells its kind; anything else is an expression.
-/

namespace ArrayShapes.Syntax.Grammar

open ArrayShapes.Syntax.Parser

/-! ### Parts of statements -/

/-- Expressions with commas between them, up to a token of kind `close` or a closing tag. -/
def expressionsUntil (rules : Rules) (close : TokenKind) : Parser Unit :=
  loop do
    let b ← get
    if b.atEnd || b.isAt close || b.isAt .closeTag then return false
    else
      rules .expression
      accept .comma

def condition (rules : Rules) : Parser Unit := do
  expect .openParen "("
  rules .expression
  expect .closeParen ")"

/-- A statement, or statements between a colon and a keyword. -/
def loopBody (rules : Rules) (endKeyword : String) : Parser Unit := do
  if ← accept .colon then
    statementList rules (·.isKeyword endKeyword)
    expectKeyword endKeyword
    endStatement
  else rules .statement

/-! ### Simple statements -/

def inlineText : Parser Unit :=
  phrase .inlineText (loopWhile (·.isAtAny [.inlineHtml, .openTag, .closeTag]) advance)

def nullStatement : Parser Unit := phrase .nullStatement advance

/-- What cannot start an expression is left for the enclosing list to recover from. -/
def expressionStatement (rules : Rules) : Parser Unit := do
  if !isExpressionEnd (← get) then
    phrase .expressionStatement do
      rules .expression
      endStatement

/-- A keyword with an optional operand. -/
def jump (rules : Rules) (kind : PhraseKind) : Parser Unit :=
  phrase kind do
    advance
    if !isExpressionEnd (← get) then rules .expression
    endStatement

/-- A keyword or tag followed by expressions. -/
def operands (rules : Rules) (kind : PhraseKind) : Parser Unit :=
  phrase kind do
    advance
    expressionsUntil rules .semicolon
    endStatement

def throwStatement (rules : Rules) : Parser Unit :=
  phrase .throwStatement do
    advance
    rules .expression
    endStatement

def gotoStatement : Parser Unit :=
  phrase .gotoStatement do
    advance
    advance
    endStatement

def label : Parser Unit :=
  phrase .namedLabelStatement do
    advance
    advance

/-! ### Control flow -/

/-- `elseif` and `else` clauses between colons. -/
def alternativeClauses (rules : Rules) (ends : List String) : Parser Unit :=
  loop do
    let b ← get
    if b.isKeyword "elseif" then
      phrase .elseIfClause do
        advance
        condition rules
        expect .colon ":"
        statementList rules (·.isAnyKeyword ends)
      return true
    else if b.isKeyword "else" then
      phrase .elseClause do
        advance
        expect .colon ":"
        statementList rules (·.isKeyword "endif")
      return true
    else return false

def ifStatement (rules : Rules) : Parser Unit :=
  phrase .ifStatement do
    advance
    condition rules
    if ← accept .colon then
      let ends := ["elseif", "else", "endif"]
      statementList rules (·.isAnyKeyword ends)
      alternativeClauses rules ends
      expectKeyword "endif"
      endStatement
    else
      rules .statement
      loopWhile (·.isKeyword "elseif") do
        phrase .elseIfClause do
          advance
          condition rules
          rules .statement
      if (← get).isKeyword "else" then
        phrase .elseClause do
          advance
          rules .statement

def whileStatement (rules : Rules) : Parser Unit :=
  phrase .whileStatement do
    advance
    condition rules
    loopBody rules "endwhile"

def doStatement (rules : Rules) : Parser Unit :=
  phrase .doStatement do
    advance
    rules .statement
    expectKeyword "while"
    condition rules
    endStatement

def forStatement (rules : Rules) : Parser Unit :=
  phrase .forStatement do
    advance
    expect .openParen "("
    expressionsUntil rules .semicolon
    expect .semicolon ";"
    expressionsUntil rules .semicolon
    expect .semicolon ";"
    expressionsUntil rules .closeParen
    expect .closeParen ")"
    loopBody rules "endfor"

/-- The variable that takes the values of a `foreach`, with one for the keys in front of it. -/
def foreachBinding (rules : Rules) : Parser Unit := do
  let start ← mark
  skipOptional .ampersand
  rules .expression
  if (← get).isAt .fatArrow then
    finish .foreachKey start
    advance
    phrase .foreachValue do
      skipOptional .ampersand
      rules .expression
  else finish .foreachValue start

def foreachStatement (rules : Rules) : Parser Unit :=
  phrase .foreachStatement do
    advance
    expect .openParen "("
    phrase .foreachCollection (rules .expression)
    expectKeyword "as"
    foreachBinding rules
    expect .closeParen ")"
    loopBody rules "endforeach"

/-- One `case` or `default` of a `switch` that goes on to where `isEnd` holds. -/
def switchCase (rules : Rules) (isEnd : Builder → Bool) : Parser Unit :=
  phrase .caseStatement do
    let isCase := (← get).isKeyword "case"
    advance
    if isCase then rules .expression
    if !(← accept .colon) then
      if !(← accept .semicolon) then report (.expected ":")
    statementList rules fun b => b.isAnyKeyword ["case", "default"] || isEnd b

def switchCases (rules : Rules) (isEnd : Builder → Bool) : Parser Unit :=
  loopWhile (fun b => !b.atEnd && !isEnd b) do
    if (← get).isAnyKeyword ["case", "default"] then switchCase rules isEnd
    else skipToken (.expected "case")

def switchStatement (rules : Rules) : Parser Unit :=
  phrase .switchStatement do
    advance
    condition rules
    if ← accept .colon then
      switchCases rules (·.isKeyword "endswitch")
      expectKeyword "endswitch"
      endStatement
    else
      expect .openBrace "\x7b"
      switchCases rules (·.isAt .closeBrace)
      expect .closeBrace "\x7d"

def catchClause (rules : Rules) : Parser Unit :=
  phrase .catchClause do
    advance
    expect .openParen "("
    rules .typeDeclaration
    skipOptional .variableName
    expect .closeParen ")"
    compoundStatement rules

def tryStatement (rules : Rules) : Parser Unit :=
  phrase .tryStatement do
    advance
    compoundStatement rules
    loopWhile (·.isKeyword "catch") (catchClause rules)
    if (← get).isKeyword "finally" then
      phrase .finallyClause do
        advance
        compoundStatement rules

def declareStatement (rules : Rules) : Parser Unit :=
  phrase .declareStatement do
    advance
    expect .openParen "("
    expressionsUntil rules .closeParen
    expect .closeParen ")"
    if (← get).isAt .colon then loopBody rules "enddeclare"
    else if !(← accept .semicolon) then rules .statement

/-! ### Variables, namespaces and constants -/

/-- Static variables of a function. -/
def staticVariables (rules : Rules) : Parser Unit :=
  phrase .functionStaticDeclaration do
    advance
    loop do
      let start ← mark
      if ← expect? .variableName "$variable" then
        if ← accept .equals then rules .expression
        finish .staticVariableDeclaration start
        accept .comma
      else return false
    endStatement

def namespaceDefinition (rules : Rules) : Parser Unit :=
  phrase .namespaceDefinition do
    advance
    if (← get).isAt .name then qualifiedName
    if (← get).isAt .openBrace then compoundStatement rules else endStatement

/-- The tokens of an import, up to its end: a semicolon or a closing tag outside of braces. -/
def importTokens : Parser Unit := do
  go ((← get).left + 1) 0
where
  go : Nat → Nat → Parser Unit
    | 0, _ => failure
    | n + 1, depth => do
      match (← get).kind?, depth with
      | none, _ | some .semicolon, 0 | some .closeTag, 0 | some .closeBrace, 0 => pure ()
      | some .openBrace, depth =>
        advance
        go n (depth + 1)
      | some .closeBrace, depth + 1 =>
        advance
        go n depth
      | some _, depth =>
        advance
        go n depth

def useDeclaration : Parser Unit :=
  phrase .namespaceUseDeclaration do
    advance
    importTokens
    endStatement

def constDeclaration (rules : Rules) : Parser Unit :=
  phrase .constDeclaration do
    advance
    constElements rules .constElement
    endStatement

/-! ### By first token -/

/-- A statement that starts with a name which is no keyword here. -/
def labelOrExpression (rules : Rules) : Parser Unit := do
  if (← get).nthIs 1 .colon then label else expressionStatement rules

def keywordStatement (rules : Rules) : Parser Unit := do
  let b ← get
  let named := b.nthIs 1 .name
  match b.word?.getD "" with
  | "function" =>
    if named || (b.nthIs 1 .ampersand && b.nthIs 2 .name) then functionDeclaration rules
    else labelOrExpression rules
  | "abstract" | "final" | "readonly" =>
    if [1, 2, 3].any fun n => b.nthIsKeyword n "class" then classDeclaration rules .classDeclaration
    else labelOrExpression rules
  | "class" =>
    if named then classDeclaration rules .classDeclaration else labelOrExpression rules
  | "interface" =>
    if named then classDeclaration rules .interfaceDeclaration else labelOrExpression rules
  | "trait" =>
    if named then classDeclaration rules .traitDeclaration else labelOrExpression rules
  | "enum" =>
    if named && (b.nthIs 2 .openBrace || b.nthIs 2 .colon || b.nthIsKeyword 2 "implements") then
      classDeclaration rules .enumDeclaration
    else labelOrExpression rules
  | "namespace" =>
    if named || b.nthIs 1 .openBrace then namespaceDefinition rules else labelOrExpression rules
  | "use" => useDeclaration
  | "const" => constDeclaration rules
  | "if" => ifStatement rules
  | "while" => whileStatement rules
  | "do" => doStatement rules
  | "for" => forStatement rules
  | "foreach" => foreachStatement rules
  | "switch" => switchStatement rules
  | "break" => jump rules .breakStatement
  | "continue" => jump rules .continueStatement
  | "return" => jump rules .returnStatement
  | "echo" => operands rules .echoStatement
  | "global" => operands rules .globalDeclaration
  | "static" =>
    if b.nthIs 1 .variableName then staticVariables rules else labelOrExpression rules
  | "try" => tryStatement rules
  | "throw" => throwStatement rules
  | "declare" => if b.nthIs 1 .openParen then declareStatement rules else labelOrExpression rules
  | "goto" => if named then gotoStatement else labelOrExpression rules
  | "default" | "case" | "else" => expressionStatement rules
  | _ => labelOrExpression rules

def statement (rules : Rules) : Parser Unit :=
  nested .statement do
    match (← get).kind? with
    | none => pure ()
    | some .inlineHtml | some .openTag | some .closeTag => inlineText
    | some .openTagWithEcho => operands rules .echoStatement
    | some .openBrace => compoundStatement rules
    | some .semicolon => nullStatement
    | some .name => keywordStatement rules
    | some _ => expressionStatement rules

end ArrayShapes.Syntax.Grammar
