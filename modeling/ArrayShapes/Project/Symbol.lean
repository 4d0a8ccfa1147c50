import ArrayShapes.Project.Scope

/-!
What a document declares: functions, classes and methods. Names are compared without the namespace in
front of them and without regard to the case of letters.
-/

namespace ArrayShapes.Project

open Syntax

/-- The last segment of a name, in lower case. -/
def baseName (name : String) : String :=
  Text.lower (String.ofList (name.toList.reverse.takeWhile (· != '\\')).reverse)

/-- The token that names a function, a method or a class. -/
def declaredName? (declaration : Node) : Option Node := do
  let header ← declaration.childOf?
    [.functionDeclarationHeader, .methodDeclarationHeader, .classDeclarationHeader]
  let names := header.children.filter (·.isToken .name)
  if header.isPhrase .classDeclarationHeader then
    let isKeyword (n : Node) : Bool :=
      ["class", "interface", "trait", "enum"].contains (Text.lower n.text)
    (names.dropWhile (!isKeyword ·))[1]?
  else names[1]?

/-- The innermost class around a node. -/
def enclosingClass? (n : Node) : Option Node := n.ancestor? isClassLike

def enclosingClassName? (n : Node) : Option String :=
  ((enclosingClass? n).bind declaredName?).map fun name => baseName name.text

/-- The name of the class that the innermost class around a node extends. -/
def enclosingParentName? (n : Node) : Option String := do
  let cls ← enclosingClass? n
  let base ← ((cls.childOf? [.classDeclarationHeader]).getD cls).childOf? [.classBaseClause]
  return baseName (← base.childOf? [.qualifiedName]).text

inductive SymbolKind where
  | function
  | cls
  | method
deriving DecidableEq, Repr

structure Symbol where
  kind : SymbolKind
  /-- The name as it is written. -/
  name : String
  /-- The name it is found by. -/
  key : String
  /-- The class a method belongs to; the empty name for one without a name. -/
  container : Option String
  declaration : Node

/-- What kind of symbol a node declares. -/
def symbolKind? (n : Node) : Option SymbolKind :=
  match n.phraseKind? with
  | some .functionDeclaration => some .function
  | some .classDeclaration | some .interfaceDeclaration | some .traitDeclaration
  | some .enumDeclaration => some .cls
  | some .methodDeclaration => some .method
  | _ => none

def symbolOf? (n : Node) : Option Symbol := do
  let kind ← symbolKind? n
  let name := (← declaredName? n).text
  let container := if kind = .method then some ((enclosingClassName? n).getD "") else none
  return { kind, name, key := baseName name, container, declaration := n }

/-- The symbols a document declares, in pre-order. -/
def symbolsOf (d : Document) : List Symbol := d.root.descendants.filterMap symbolOf?

/-- Symbols of one kind that are found by a name. -/
def found (kind : SymbolKind) (key : String) (symbols : List Symbol) : List Symbol :=
  symbols.filter fun s => s.kind = kind && s.key == key

/-- Symbols with those of one name brought together, names in the order in which they first
occur. -/
def grouped : List Symbol → List Symbol
  | [] => []
  | s :: ss => s :: ss.filter (·.key == s.key) ++ grouped (ss.filter (·.key != s.key))
termination_by ss => ss.length
decreasing_by
  have := List.length_filter_le (·.key != s.key) ss
  simp; omega

/-- All symbols: functions, then classes, then methods, each grouped by name. -/
def inOrder (symbols : List Symbol) : List Symbol :=
  [.function, .cls, .method].flatMap fun kind => grouped (symbols.filter (·.kind = kind))

end ArrayShapes.Project
