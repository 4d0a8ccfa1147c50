import ArrayShapes.Doc.Alias
import ArrayShapes.Doc.Signature
import ArrayShapes.Project.Store

/-!
Doc comments of declarations, and the aliases that hold at a place of a document.
-/

namespace ArrayShapes.Inference

open Syntax Project

/-! ### Doc comments -/

/-- The doc comment right in front of a node, with only blank text and other comments between. -/
def precedingComment? (n : Node) : Option Node := do
  let previous ← n.preceding.find? fun m => !m.isToken .whitespace && !m.isToken .comment
  if previous.isToken .documentComment then some previous else none

/-- The doc comment in front of one of these ancestors of a closure. The search ends at the statement
that holds the closure, and at a function or class around it. -/
def commentAbove? : List Node → Option Node
  | [] => none
  | n :: above =>
    if isScope n || isClassLike n then none
    else match precedingComment? n with
      | some comment => some comment
      | none =>
        if n.parent?.any (·.isPhrase .statementList) then none else commentAbove? above

/-- The doc comment of a declaration. A closure without one has that of its statement. -/
def commentOf? (declaration : Node) : Option Node :=
  match precedingComment? declaration with
  | some comment => some comment
  | none =>
    if declaration.isPhraseIn [.anonymousFunctionCreationExpression, .arrowFunction] then
      commentAbove? declaration.ancestors
    else none

/-- What the doc comment of a function says. -/
def signatureOf? (function : Node) : Option Doc.Signature :=
  (commentOf? function).map fun comment => .ofComment comment.text

/-- The statements that run when a function is called. Abstract methods and arrow functions have
none. -/
def bodyOf? (function : Node) : Option Node :=
  match function.phraseKind? with
  | some .functionDeclaration | some .anonymousFunctionCreationExpression =>
    function.childOf? [.functionDeclarationBody]
  | some .methodDeclaration => do
    (← function.childOf? [.methodDeclarationBody]).childOf? [.compoundStatement]
  | _ => none

/-! ### Aliases -/

/-- Aliases with what they stand for, the latest first. -/
abbrev AliasScope := List (String × Shape)

namespace AliasScope

def find? (scope : AliasScope) (name : String) : Option Shape := scope.lookup name

/-- A shape with every alias replaced. -/
def expand (scope : AliasScope) (s : Shape) : Shape := Doc.expand scope.find? s

/-- The aliases of a doc comment alone. -/
def ofComment (raw : String) : AliasScope :=
  ((Doc.aliases raw).map fun a => (a.name, a.shape)).reverse

end AliasScope

/-- What an imported alias stands for: its definition in the doc comment of the class, expanded by
the other aliases of that comment. -/
def imported? (store : Store) (i : Doc.Import) : Option Shape :=
  (store.classes i.fromClass).findSome? fun cls => do
    let raw := (← commentOf? cls).text
    let target ← (Doc.aliases raw).find? (·.name == i.name)
    return (AliasScope.ofComment raw).expand target.shape

/-- Adds the aliases that a doc comment defines, then those that it imports. -/
def addComment (store : Store) (scope : AliasScope) (raw : String) : AliasScope :=
  let imports := (Doc.imports raw).filterMap fun i => (imported? store i).map fun s => (i.localName, s)
  imports.reverse ++ (AliasScope.ofComment raw ++ scope)

/-- The aliases that hold at a node: those of all doc comments that start before it. -/
def aliasesAt (store : Store) (n : Node) : AliasScope :=
  (n.document.comments.takeWhile (·.pos < n.pos)).foldl (fun scope t => addComment store scope t.text) []

end ArrayShapes.Inference
