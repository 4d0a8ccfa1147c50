import ArrayShapes.Syntax.Node

/-!
Scopes of variables. A variable belongs to the innermost function, method or closure around it, or
to the whole script. It is declared by a parameter of that name or else where it first occurs.
-/

namespace ArrayShapes.Project

open Syntax

/-- Whether a node is a scope of its own. -/
def isScope (n : Node) : Bool := n.phraseKind?.any PhraseKind.isFunctionLike

def isClassLike (n : Node) : Bool := n.phraseKind?.any PhraseKind.isClassLike

/-- The scope of the variables at a node. -/
def scopeOf (n : Node) : Node := (n.ancestor? isScope).getD n.document.root

/-- The parameters of a function. -/
def parameters (function : Node) : List Node :=
  let list := do
    let header ← function.childOf? [.functionDeclarationHeader, .methodDeclarationHeader,
      .anonymousFunctionHeader, .arrowFunctionHeader]
    header.childOf? [.parameterDeclarationList]
  match list with
  | some list => list.children.filter (·.isPhrase .parameterDeclaration)
  | none => []

/-- The variable names of a scope in source order. Inner scopes have variables of their own, and the
names in the body of a class are those of its properties. -/
def variablesIn (scope : Node) : List Node :=
  Node.walk (fun n => !isScope n && !isClassLike n) (·.isToken .variableName) scope.children

/-- The first of some name tokens that reads `name`. -/
def named? (name : String) (tokens : List Node) : Option Node := tokens.find? (·.text == name)

/-- The token that declares a variable in a scope. -/
def variableDeclaration? (scope : Node) (name : String) : Option Node :=
  (named? name ((parameters scope).filterMap (·.childToken? .variableName))).or
    (named? name (variablesIn scope))

end ArrayShapes.Project
