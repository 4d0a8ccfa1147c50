import ArrayShapes.Syntax.Grammar.Rule

/-!
Blocks of statements, functions and classes.
-/

namespace ArrayShapes.Syntax.Grammar

open ArrayShapes.Syntax.Parser

/-! ### Blocks -/

/-- Statements up to where `isEnd` holds. A token that no statement takes is an error by itself. -/
@[inline]
def statementList (rules : Rules) (isEnd : Builder → Bool) : Parser Unit :=
  listPhrase .statementList <|
    loopWhile (fun b => !b.atEnd && !isEnd b) do
      if !(← progress (rules .statement)) then skipToken (.missing .statement)

/-- Statements in braces, as a phrase of the given kind. -/
def block (rules : Rules) (kind : PhraseKind) : Parser Unit :=
  phrase kind do
    if ← expect? .openBrace "\x7b" then
      statementList rules (·.isAt .closeBrace)
      expect .closeBrace "\x7d"

def compoundStatement (rules : Rules) : Parser Unit := block rules .compoundStatement

def functionBody (rules : Rules) : Parser Unit := block rules .functionDeclarationBody

/-! ### Functions -/

/-- One member of a type: a name, or a group in parentheses. Tells whether there was one. -/
def typeMember (rules : Rules) : Parser Bool := do
  if ← accept .openParen then
    rules .typeDeclaration
    expect .closeParen ")"
    return true
  else if (← get).isAt .name then
    qualifiedName
    return true
  else
    return false

/-- Whether another member follows: a `&` may also belong to the parameter behind the type. -/
def joinsType (b : Builder) : Bool :=
  b.isAt .bar || (b.isAt .ampersand &&
    !(b.nthIs 1 .variableName || b.nthIs 1 .ellipsis || b.nthIs 1 .ampersand))

/-- A type in front of a name: one member or several joined by `|` or `&`, each with an optional
`?`. Where there is no type nothing is left. -/
def typeDeclaration (rules : Rules) : Parser Unit := do
  let start ← mark
  let found ← progress <| loop do
    skipOptional .question
    let member ← typeMember rules
    if member && joinsType (← get) then
      advance
      return true
    else
      return false
  if found then finish .typeDeclaration start

def returnType (rules : Rules) : Parser Unit := do
  if (← get).isAt .colon then
    phrase .returnType do
      advance
      rules .typeDeclaration

/-- Modifiers, type, `&`, `...`, name and default of one parameter. -/
def parameter (rules : Rules) : Parser Unit :=
  phrase .parameterDeclaration do
    loopWhile (·.isAnyKeyword ["public", "protected", "private", "readonly"]) advance
    if !(← get).isAtAny [.variableName, .ampersand, .ellipsis] then rules .typeDeclaration
    skipOptional .ampersand
    skipOptional .ellipsis
    if !(← accept .variableName) then report (.missing .variable)
    if ← accept .equals then rules .expression

def parameterList (rules : Rules) : Parser Unit := do
  expect .openParen "("
  phrase .parameterDeclarationList <| loop do
    let b ← get
    if !b.atEnd && !b.isAt .closeParen then
      if ← progress (parameter rules) then accept .comma else return false
    else
      return false
  expect .closeParen ")"

/-- The keyword, a `&` and the name of a function, with its parameters and its return type. -/
def namedHeader (rules : Rules) (kind : PhraseKind) : Parser Unit :=
  phrase kind do
    advance
    skipOptional .ampersand
    expect .name "identifier"
    parameterList rules
    returnType rules

def functionDeclaration (rules : Rules) : Parser Unit :=
  phrase .functionDeclaration do
    namedHeader rules .functionDeclarationHeader
    functionBody rules

/-- `NAME = value` with commas between. -/
def constElements (rules : Rules) (kind : PhraseKind) : Parser Unit :=
  loop do
    let start ← mark
    if ← expect? .name "identifier" then
      expect .equals "="
      rules .expression
      finish kind start
      accept .comma
    else
      return false

/-! ### Classes -/

def memberModifiers : List String :=
  ["public", "protected", "private", "static", "abstract", "final", "var", "readonly"]

def heritageClause (keyword : String) (kind : PhraseKind) : Parser Unit := do
  if (← get).isKeyword keyword then
    phrase kind do
      advance
      nameList

def classHeritage : Parser Unit := do
  heritageClause "extends" .classBaseClause
  heritageClause "implements" .classInterfaceClause

def method (rules : Rules) : Parser Unit := do
  namedHeader rules .methodDeclarationHeader
  phrase .methodDeclarationBody do
    if (← get).isAt .openBrace then compoundStatement rules else endStatement

/-- Properties with an optional type in front and optional hooks behind. -/
def properties (rules : Rules) : Parser Unit := do
  if !(← get).isAt .variableName then rules .typeDeclaration
  loop do
    let start ← mark
    if ← expect? .variableName "$variable" then
      if ← accept .equals then rules .expression
      if (← get).isAt .openBrace then balancedBraces
      finish .propertyElement start
      accept .comma
    else
      return false
  if !(← get).isAt .closeBrace then endStatement

def traitUse : Parser Unit :=
  phrase .traitUseClause do
    advance
    nameList
    if (← get).isAt .openBrace then balancedBraces else endStatement

def enumCase (rules : Rules) : Parser Unit :=
  phrase .enumCaseDeclaration do
    advance
    expect .name "identifier"
    if ← accept .equals then rules .expression
    endStatement

/-- A constant, with an optional type in front of its name. -/
def classConst (rules : Rules) : Parser Unit := do
  advance
  let b ← get
  if b.nthIs 1 .name || b.isAt .question then rules .typeDeclaration
  constElements rules .classConstElement
  endStatement

/-- One member of a class. Where no member starts, modifiers apart, nothing is taken. -/
def classMember (rules : Rules) : Parser Unit := do
  let start ← mark
  let b ← get
  if b.isKeyword "use" then traitUse
  else if b.isKeyword "case" then enumCase rules
  else
    let modified ← progress (loopWhile (·.isAnyKeyword memberModifiers) advance)
    if modified then finish .memberModifierList start
    let b ← get
    if b.isKeyword "function" then
      method rules
      finish .methodDeclaration start
    else if b.isKeyword "const" then
      classConst rules
      finish .classConstDeclaration start
    else if modified || b.isAtAny [.variableName, .question] then
      properties rules
      finish .propertyDeclaration start

def classBody (rules : Rules) : Parser Unit :=
  phrase .classDeclarationBody do
    if ← expect? .openBrace "\x7b" then
      listPhrase .classMemberDeclarationList <|
        loopWhile (fun b => !b.atEnd && !b.isAt .closeBrace) do
          if !(← progress (classMember rules)) then skipToken (.missing .member)
      expect .closeBrace "\x7d"

/-- A class, interface, trait or enum, as its kind says. -/
def classDeclaration (rules : Rules) (kind : PhraseKind) : Parser Unit :=
  phrase kind do
    phrase .classDeclarationHeader do
      loopWhile (·.isAnyKeyword ["abstract", "final", "readonly"]) advance
      advance
      expect .name "identifier"
      if kind = .enumDeclaration then
        if ← accept .colon then rules .typeDeclaration
      classHeritage
    classBody rules

end ArrayShapes.Syntax.Grammar
