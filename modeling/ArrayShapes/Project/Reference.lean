import ArrayShapes.Project.Symbol

/-!
What calls, variables and class names refer to.
-/

namespace ArrayShapes.Project

open Syntax

/-- A reference by name. The names of functions, classes and methods are in lower case and without
a namespace; those of variables are as they are written. -/
inductive Reference where
  | function (name : String)
  | cls (name : String)
  /-- Without a class, the method of any class is meant. -/
  | method (cls : Option String) (name : String)
  | variable (name : String) (scope : NodeKey)
deriving DecidableEq, Repr

namespace Reference

def ofFunction (name : String) : Reference := .function (baseName name)

def ofClass (name : String) : Reference := .cls (baseName name)

def ofMethod (cls : Option String) (name : String) : Reference :=
  .method (cls.map baseName) (Text.lower name)

end Reference

/-- The class a name stands for, where `self`, `static` and `parent` go by the class around it. -/
def classNamed? (name : Node) : Option String :=
  match Text.lower name.text with
  | "self" | "static" => enclosingClassName? name
  | "parent" => enclosingParentName? name
  | _ => some (baseName name.text)

def variableReference (token : Node) : Reference := .variable token.text (scopeOf token).key

/-- The name token of a member that is named outright. -/
def memberName? (access : Node) (kind : PhraseKind) : Option Node := do
  let name ← (← access.childOf? [kind]).nth? 0
  if name.isToken .name then some name else none

/-- The first child, where it is a name. -/
def headName? (n : Node) : Option Node := do
  let head ← n.nth? 0
  if head.isPhrase .qualifiedName then some head else none

/-- What a node refers to, when it is a variable, a call or the name of a class. -/
def referenceOf? (n : Node) : Option Reference :=
  match n.kind with
  | .token .variableName => some (variableReference n)
  | .phrase .simpleVariable => (n.childToken? .variableName).map variableReference
  | .phrase .functionCallExpression => (headName? n).map fun callee => .ofFunction callee.text
  | .phrase .methodCallExpression =>
    (memberName? n .memberName).map fun name => .ofMethod none name.text
  | .phrase .scopedCallExpression =>
    (memberName? n .scopedMemberName).map fun name =>
      .method ((headName? n).bind classNamed?) (Text.lower name.text)
  | .phrase .qualifiedName => do
    let parent ← n.parent?
    if parent.isPhraseIn [.classTypeDesignator, .classBaseClause, .classInterfaceClause,
        .typeDeclaration] then
      return .cls (← classNamed? n)
    else none
  | _ => none

end ArrayShapes.Project
