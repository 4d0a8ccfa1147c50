/-!
Kinds of the phrases of a syntax tree.
-/

namespace ArrayShapes.Syntax

inductive PhraseKind where
  | script | statementList | error | inlineText | namespaceDefinition | namespaceUseDeclaration
  | constDeclaration | constElement | functionDeclaration | functionDeclarationHeader
  | functionDeclarationBody | parameterDeclarationList | parameterDeclaration | typeDeclaration
  | returnType | classDeclaration | interfaceDeclaration | traitDeclaration | enumDeclaration
  | classDeclarationHeader | classBaseClause | classInterfaceClause | classDeclarationBody
  | classMemberDeclarationList | memberModifierList | methodDeclaration | methodDeclarationHeader
  | methodDeclarationBody | propertyDeclaration | propertyElement | classConstDeclaration
  | classConstElement | traitUseClause | enumCaseDeclaration | compoundStatement | nullStatement
  | expressionStatement | returnStatement | echoStatement | ifStatement | elseIfClause
  | elseClause | whileStatement | doStatement | forStatement | foreachStatement
  | foreachCollection | foreachKey | foreachValue | switchStatement | caseStatement
  | breakStatement | continueStatement | tryStatement | catchClause | finallyClause
  | throwStatement | globalDeclaration | functionStaticDeclaration | staticVariableDeclaration
  | declareStatement | namedLabelStatement | gotoStatement | simpleVariable | qualifiedName
  | constantAccessExpression | simpleAssignmentExpression | compoundAssignmentExpression
  | subscriptExpression | arrayCreationExpression | arrayInitialiserList | arrayElement
  | arrayKey | arrayValue | functionCallExpression | methodCallExpression | scopedCallExpression
  | memberName | scopedMemberName | propertyAccessExpression | scopedPropertyAccessExpression
  | classConstantAccessExpression | argumentExpressionList | namedArgument | variadicUnpacking
  | objectCreationExpression | classTypeDesignator | anonymousClassDeclaration
  | anonymousFunctionCreationExpression | anonymousFunctionHeader | anonymousFunctionUseClause
  | anonymousFunctionUseVariable | arrowFunction | arrowFunctionHeader | arrowFunctionBody
  | matchExpression | matchArm | parenthesizedExpression | equalityExpression
  | relationalExpression | shiftExpression | additiveExpression | multiplicativeExpression
  | exponentiationExpression | bitwiseExpression | logicalExpression | coalesceExpression
  | ternaryExpression | instanceOfExpression | unaryOpExpression | castExpression
  | postfixIncrementExpression | shellCommandExpression
deriving DecidableEq, Repr, Inhabited

namespace PhraseKind

/-- The kind as it is written in listings of a tree. -/
def label : PhraseKind → String
  | .script => "Script"
  | .statementList => "StatementList"
  | .error => "Error"
  | .inlineText => "InlineText"
  | .namespaceDefinition => "NamespaceDefinition"
  | .namespaceUseDeclaration => "NamespaceUseDeclaration"
  | .constDeclaration => "ConstDeclaration"
  | .constElement => "ConstElement"
  | .functionDeclaration => "FunctionDeclaration"
  | .functionDeclarationHeader => "FunctionDeclarationHeader"
  | .functionDeclarationBody => "FunctionDeclarationBody"
  | .parameterDeclarationList => "ParameterDeclarationList"
  | .parameterDeclaration => "ParameterDeclaration"
  | .typeDeclaration => "TypeDeclaration"
  | .returnType => "ReturnType"
  | .classDeclaration => "ClassDeclaration"
  | .interfaceDeclaration => "InterfaceDeclaration"
  | .traitDeclaration => "TraitDeclaration"
  | .enumDeclaration => "EnumDeclaration"
  | .classDeclarationHeader => "ClassDeclarationHeader"
  | .classBaseClause => "ClassBaseClause"
  | .classInterfaceClause => "ClassInterfaceClause"
  | .classDeclarationBody => "ClassDeclarationBody"
  | .classMemberDeclarationList => "ClassMemberDeclarationList"
  | .memberModifierList => "MemberModifierList"
  | .methodDeclaration => "MethodDeclaration"
  | .methodDeclarationHeader => "MethodDeclarationHeader"
  | .methodDeclarationBody => "MethodDeclarationBody"
  | .propertyDeclaration => "PropertyDeclaration"
  | .propertyElement => "PropertyElement"
  | .classConstDeclaration => "ClassConstDeclaration"
  | .classConstElement => "ClassConstElement"
  | .traitUseClause => "TraitUseClause"
  | .enumCaseDeclaration => "EnumCaseDeclaration"
  | .compoundStatement => "CompoundStatement"
  | .nullStatement => "NullStatement"
  | .expressionStatement => "ExpressionStatement"
  | .returnStatement => "ReturnStatement"
  | .echoStatement => "EchoStatement"
  | .ifStatement => "IfStatement"
  | .elseIfClause => "ElseIfClause"
  | .elseClause => "ElseClause"
  | .whileStatement => "WhileStatement"
  | .doStatement => "DoStatement"
  | .forStatement => "ForStatement"
  | .foreachStatement => "ForeachStatement"
  | .foreachCollection => "ForeachCollection"
  | .foreachKey => "ForeachKey"
  | .foreachValue => "ForeachValue"
  | .switchStatement => "SwitchStatement"
  | .caseStatement => "CaseStatement"
  | .breakStatement => "BreakStatement"
  | .continueStatement => "ContinueStatement"
  | .tryStatement => "TryStatement"
  | .catchClause => "CatchClause"
  | .finallyClause => "FinallyClause"
  | .throwStatement => "ThrowStatement"
  | .globalDeclaration => "GlobalDeclaration"
  | .functionStaticDeclaration => "FunctionStaticDeclaration"
  | .staticVariableDeclaration => "StaticVariableDeclaration"
  | .declareStatement => "DeclareStatement"
  | .namedLabelStatement => "NamedLabelStatement"
  | .gotoStatement => "GotoStatement"
  | .simpleVariable => "SimpleVariable"
  | .qualifiedName => "QualifiedName"
  | .constantAccessExpression => "ConstantAccessExpression"
  | .simpleAssignmentExpression => "SimpleAssignmentExpression"
  | .compoundAssignmentExpression => "CompoundAssignmentExpression"
  | .subscriptExpression => "SubscriptExpression"
  | .arrayCreationExpression => "ArrayCreationExpression"
  | .arrayInitialiserList => "ArrayInitialiserList"
  | .arrayElement => "ArrayElement"
  | .arrayKey => "ArrayKey"
  | .arrayValue => "ArrayValue"
  | .functionCallExpression => "FunctionCallExpression"
  | .methodCallExpression => "MethodCallExpression"
  | .scopedCallExpression => "ScopedCallExpression"
  | .memberName => "MemberName"
  | .scopedMemberName => "ScopedMemberName"
  | .propertyAccessExpression => "PropertyAccessExpression"
  | .scopedPropertyAccessExpression => "ScopedPropertyAccessExpression"
  | .classConstantAccessExpression => "ClassConstantAccessExpression"
  | .argumentExpressionList => "ArgumentExpressionList"
  | .namedArgument => "NamedArgument"
  | .variadicUnpacking => "VariadicUnpacking"
  | .objectCreationExpression => "ObjectCreationExpression"
  | .classTypeDesignator => "ClassTypeDesignator"
  | .anonymousClassDeclaration => "AnonymousClassDeclaration"
  | .anonymousFunctionCreationExpression => "AnonymousFunctionCreationExpression"
  | .anonymousFunctionHeader => "AnonymousFunctionHeader"
  | .anonymousFunctionUseClause => "AnonymousFunctionUseClause"
  | .anonymousFunctionUseVariable => "AnonymousFunctionUseVariable"
  | .arrowFunction => "ArrowFunction"
  | .arrowFunctionHeader => "ArrowFunctionHeader"
  | .arrowFunctionBody => "ArrowFunctionBody"
  | .matchExpression => "MatchExpression"
  | .matchArm => "MatchArm"
  | .parenthesizedExpression => "ParenthesizedExpression"
  | .equalityExpression => "EqualityExpression"
  | .relationalExpression => "RelationalExpression"
  | .shiftExpression => "ShiftExpression"
  | .additiveExpression => "AdditiveExpression"
  | .multiplicativeExpression => "MultiplicativeExpression"
  | .exponentiationExpression => "ExponentiationExpression"
  | .bitwiseExpression => "BitwiseExpression"
  | .logicalExpression => "LogicalExpression"
  | .coalesceExpression => "CoalesceExpression"
  | .ternaryExpression => "TernaryExpression"
  | .instanceOfExpression => "InstanceOfExpression"
  | .unaryOpExpression => "UnaryOpExpression"
  | .castExpression => "CastExpression"
  | .postfixIncrementExpression => "PostfixIncrementExpression"
  | .shellCommandExpression => "ShellCommandExpression"

def all : List PhraseKind := [
  .script, .statementList, .error, .inlineText, .namespaceDefinition, .namespaceUseDeclaration,
  .constDeclaration, .constElement, .functionDeclaration, .functionDeclarationHeader,
  .functionDeclarationBody, .parameterDeclarationList, .parameterDeclaration, .typeDeclaration,
  .returnType, .classDeclaration, .interfaceDeclaration, .traitDeclaration, .enumDeclaration,
  .classDeclarationHeader, .classBaseClause, .classInterfaceClause, .classDeclarationBody,
  .classMemberDeclarationList, .memberModifierList, .methodDeclaration, .methodDeclarationHeader,
  .methodDeclarationBody, .propertyDeclaration, .propertyElement, .classConstDeclaration,
  .classConstElement, .traitUseClause, .enumCaseDeclaration, .compoundStatement, .nullStatement,
  .expressionStatement, .returnStatement, .echoStatement, .ifStatement, .elseIfClause,
  .elseClause, .whileStatement, .doStatement, .forStatement, .foreachStatement,
  .foreachCollection, .foreachKey, .foreachValue, .switchStatement, .caseStatement,
  .breakStatement, .continueStatement, .tryStatement, .catchClause, .finallyClause,
  .throwStatement, .globalDeclaration, .functionStaticDeclaration, .staticVariableDeclaration,
  .declareStatement, .namedLabelStatement, .gotoStatement, .simpleVariable, .qualifiedName,
  .constantAccessExpression, .simpleAssignmentExpression, .compoundAssignmentExpression,
  .subscriptExpression, .arrayCreationExpression, .arrayInitialiserList, .arrayElement,
  .arrayKey, .arrayValue, .functionCallExpression, .methodCallExpression, .scopedCallExpression,
  .memberName, .scopedMemberName, .propertyAccessExpression, .scopedPropertyAccessExpression,
  .classConstantAccessExpression, .argumentExpressionList, .namedArgument, .variadicUnpacking,
  .objectCreationExpression, .classTypeDesignator, .anonymousClassDeclaration,
  .anonymousFunctionCreationExpression, .anonymousFunctionHeader, .anonymousFunctionUseClause,
  .anonymousFunctionUseVariable, .arrowFunction, .arrowFunctionHeader, .arrowFunctionBody,
  .matchExpression, .matchArm, .parenthesizedExpression, .equalityExpression,
  .relationalExpression, .shiftExpression, .additiveExpression, .multiplicativeExpression,
  .exponentiationExpression, .bitwiseExpression, .logicalExpression, .coalesceExpression,
  .ternaryExpression, .instanceOfExpression, .unaryOpExpression, .castExpression,
  .postfixIncrementExpression, .shellCommandExpression]

def ofLabel? (s : String) : Option PhraseKind := all.find? (·.label == s)

/-- Functions of every form; each opens a scope for variables. -/
def isFunctionLike : PhraseKind → Bool
  | .functionDeclaration | .methodDeclaration | .anonymousFunctionCreationExpression
  | .arrowFunction => true
  | _ => false

/-- Classes of every form. -/
def isClassLike : PhraseKind → Bool
  | .classDeclaration | .interfaceDeclaration | .traitDeclaration | .enumDeclaration
  | .anonymousClassDeclaration => true
  | _ => false

end PhraseKind

end ArrayShapes.Syntax
