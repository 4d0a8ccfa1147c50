import ArrayShapes.Project.Scope

/-!
Searches confined to one function body. Named functions, closures and classes inside it are scopes
of their own and are passed over; the body of an arrow function belongs to the scope around it.
-/

namespace ArrayShapes.Inference

open Syntax Project

/-- Bodies that end a search. -/
def isInnerBody (n : Node) : Bool :=
  n.isPhraseIn [.functionDeclarationBody, .classMemberDeclarationList]

/-- Nodes below `root` of which `p` holds, in pre-order; the search goes neither into them nor into
inner bodies. -/
@[inline]
def findInBody (p : Node → Bool) (root : Node) : List Node :=
  Node.walk (fun n => !isInnerBody n && !p n) (fun n => !isInnerBody n && p n) root.children

/-- The return statements of a body. -/
def returnsOf (body : Node) : List Node := findInBody (·.isPhrase .returnStatement) body

/-- The expression that a return statement returns. -/
def returned? (statement : Node) : Option Node :=
  (statement.significant.drop 1).find? (!·.isToken .semicolon)

/-- The body that is searched for a variable: that of the innermost function or method around it, or
the whole script. -/
def searchedBody (n : Node) : Node :=
  (n.ancestor? (·.isPhraseIn [.functionDeclarationBody, .methodDeclarationBody])).getD n.document.root

/-- The name tokens of all other uses of a variable, in source order. -/
def otherUses (v : Node) : List Node :=
  match v.childToken? .variableName with
  | none => []
  | some name =>
    let text := name.text
    let isUse (n : Node) : Bool :=
      n.isPhrase .simpleVariable && (n.childToken? .variableName).any (·.text == text)
    ((findInBody isUse (searchedBody v)).filter (!·.same v)).filterMap
      (·.childToken? .variableName)

end ArrayShapes.Inference
