import ArrayShapes.Inference.Comment
import ArrayShapes.Inference.Search
import ArrayShapes.Literal
import ArrayShapes.Shape.Key

/-!
Shapes of expressions, found backwards: from an expression to all the places its value may come
from. Each form of expression has a strategy of its own; a strategy has nothing to say about other
forms, and what they all say is put together. No shapes at all means that nothing is known.

A strategy does not go to other nodes itself. It is an inquiry, which asks for their shapes; who
resolves the inquiry decides how they are found, and keeps the guard.
-/

namespace ArrayShapes.Inference

open Syntax Project

/-- A way to an answer, on which the shapes of other nodes are asked for. -/
inductive Inquiry (α : Type) where
  | answer (a : α)
  | ask (n : Node) (next : List Shape → Inquiry α)

namespace Inquiry

def bind {α β : Type} (q : Inquiry α) (f : α → Inquiry β) : Inquiry β :=
  match q with
  | .answer a => f a
  | .ask n next => .ask n fun shapes => (next shapes).bind f

instance : Monad Inquiry where
  pure := .answer
  bind := .bind

/-- Asks for the shapes of one node. -/
def shapesOf (n : Node) : Inquiry (List Shape) := .ask n .answer

/-- Asks for the shapes of all of some nodes, one after the other. -/
def shapesOfAll : List Node → Inquiry (List Shape)
  | [] => return []
  | n :: ns => return (← shapesOf n) ++ (← shapesOfAll ns)

end Inquiry

open Inquiry (shapesOf shapesOfAll)

/-- Work under a guard on the nodes being resolved. -/
abbrev Guarded := StateM (Guard NodeKey)

/-- Finds the shapes of a node. -/
abbrev Resolver := Node → Guarded (List Shape)

/-- Follows an inquiry to its answer, with `resolve` for what it asks. -/
def Inquiry.run {α : Type} (resolve : Resolver) : Inquiry α → Guarded α
  | .answer a => pure a
  | .ask n next => do (next (← resolve n)).run resolve

/-! ### Literals -/

/-- The shape of a string or integer token. -/
def literal? (n : Node) : Option Shape :=
  match n.tokenKind? with
  | some .stringLiteral => (Literal.unquote? n.text).map .str
  | some .integerLiteral => (Literal.integer? n.text).map .int
  | _ => none

/-! ### Array literals -/

/-- The elements of an array literal. -/
def elementsOf (array : Node) : List Node :=
  match array.childOf? [.arrayInitialiserList] with
  | some list => list.children.filter (·.isPhrase .arrayElement)
  | none => []

/-- The key of an element; what is no literal may be anything. -/
def elementKey (key : Node) : Shape :=
  match (key.nth? 0).bind literal? with
  | some s => s.recordKey
  | none => .any

/-- The expression of an element's value, behind an ampersand. -/
def elementValue? (value : Node) : Option Node := value.significant.find? (!·.isToken .ampersand)

/-- The operand of an element that spreads another array. -/
def spreadOperand? (value : Node) : Option Node :=
  match value.significant with
  | first :: operand :: _ => if first.isToken .ellipsis then some operand else none
  | _ => none

/-- What the elements of an array literal give: entries with keys, and values without. -/
structure Elements where
  entries : List (Shape × Shape)
  positional : List Shape

namespace Elements

def addSpread (es : Elements) (shapes : List Shape) : Elements :=
  { es with
    entries := es.entries ++ shapes.flatMap fun s => match s with
      | .record entries _ => entries
      | _ => [] }

def add (es : Elements) (key : Option Shape) (value : Shape) : Elements :=
  match key with
  | some key => { es with entries := es.entries ++ [(key, value)] }
  | none => { es with positional := es.positional ++ [value] }

/-- Entries make a record, positional values a tuple, and both together both. -/
def shapes (es : Elements) : List Shape :=
  (if es.entries.isEmpty then [] else [Shape.ofEntries es.entries none]) ++
    (if es.positional.isEmpty then [] else [.tuple es.positional])

end Elements

/-- Adds one element of an array literal. -/
def addElement (es : Elements) (element : Node) : Inquiry Elements := do
  let value := element.childOf? [.arrayValue]
  match value.bind spreadOperand? with
  | some operand => return es.addSpread (← shapesOf operand)
  | none =>
    let shape ← match value.bind elementValue? with
      | some expr => Shape.oneOf <$> shapesOf expr
      | none => pure .any
    return es.add ((element.childOf? [.arrayKey]).map elementKey) shape

def addElements (es : Elements) : List Node → Inquiry Elements
  | [] => return es
  | element :: rest => do addElements (← addElement es element) rest

def arrayShapes (expr : Node) : Inquiry (List Shape) := do
  if expr.isPhrase .arrayCreationExpression then
    match elementsOf expr with
    | [] => return [.record [] none]
    | elements => return (← addElements ⟨[], []⟩ elements).shapes
  else return []

/-! ### Calls -/

/-- What the doc comment of a function says it returns. -/
def documentedResults (store : Store) (function : Node) : List Shape :=
  match (signatureOf? function).bind (·.result) with
  | some s => ((aliasesAt store function).expand s).alternatives
  | none => []

/-- What the return statements of a function return. -/
def returnedShapes (function : Node) : Inquiry (List Shape) :=
  match bodyOf? function with
  | some body => shapesOfAll ((returnsOf body).filterMap returned?)
  | none => return []

def calledShapes (store : Store) : List Node → Inquiry (List Shape)
  | [] => return []
  | function :: rest => do
    let returned ← returnedShapes function
    return documentedResults store function ++ returned ++ (← calledShapes store rest)

def callShapes (store : Store) (expr : Node) : Inquiry (List Shape) :=
  if expr.isPhraseIn [.functionCallExpression, .methodCallExpression, .scopedCallExpression] then
    match referenceOf? expr with
    | some reference => calledShapes store (store.declarations reference)
    | none => return []
  else return []

/-! ### Parameters -/

/-- The function that a parameter belongs to. -/
def functionOf? (parameter : Node) : Option Node := do
  let list ← parameter.parent?
  let function ← (← list.parent?).parent?
  if list.isPhrase .parameterDeclarationList && isScope function then some function else none

/-- What the doc comment of its function says about a parameter. -/
def parameterShapes (store : Store) (n : Node) : List Shape :=
  if n.isPhrase .parameterDeclaration then
    match n.childToken? .variableName, functionOf? n with
    | some name, some function =>
      match ((signatureOf? function).map (·.parameter name.text)).getD [] with
      | [] => []
      | declared =>
        let scope := aliasesAt store function
        declared.flatMap fun s => (scope.expand s).alternatives
    | _, _ => []
  else []

/-! ### Subscripts -/

/-- The key between the brackets, if there is one. -/
def subscriptKey? (subscript : Node) : Option Node := do
  let key ← (subscript.significant.dropWhile (!·.isToken .openBracket))[1]?
  if key.isToken .closeBracket then none else some key

def subscriptShapes (expr : Node) : Inquiry (List Shape) := do
  if expr.isPhrase .subscriptExpression then
    match expr.nth? 0 with
    | some target =>
      let key := ((subscriptKey? expr).bind literal?).getD .any
      return (← shapesOf target).flatMap (·.get key)
    | none => return []
  else return []

/-! ### Variables -/

/-- A step from an array to an element of it: to a new one, or to the one under a key. -/
inductive Step where
  | append
  | key (shape : Shape)

/-- The array that a step leads out of, when it leads to `inner`. -/
def Step.wrap (step : Step) (inner : Shape) : Shape :=
  match step with
  | .append => .list inner
  | .key k => .map k inner

def stepOf (subscript : Node) : Step :=
  match subscriptKey? subscript with
  | none => .append
  | some key => .key ((literal? key).getD .any)

/-- The target that subscripts build on the node `t` at `place`, with the steps to it, innermost
first. Nothing when the node is a key and not the array. -/
def targetFrom? (d : Document) (t : Tree) : Place → Option (Node × List Step)
  | .root => some (⟨d, t, .root⟩, [])
  | .inside parent place before after =>
    let above : Node := ⟨d, parent, place⟩
    if above.isPhrase .subscriptExpression then
      if (above.nth? 0).any (·.tree.id = t.id) then
        (targetFrom? d parent place).map fun (target, steps) => (target, stepOf above :: steps)
      else none
    else some (⟨d, t, .inside parent place before after⟩, [])

/-- The value assigned to a target. -/
def assignedValue? (target : Node) : Option Node := do
  let assignment ← target.parent?
  if assignment.isPhrase .simpleAssignmentExpression && (assignment.nth? 0).any (·.same target) then
    (assignment.significant.drop 1).find? fun n => !n.isToken .equals && !n.isToken .ampersand
  else none

/-- What is assigned to a variable or to an element of it, as a shape of the variable. -/
def assignedShapes (v : Node) : Inquiry (List Shape) := do
  match targetFrom? v.document v.tree v.place with
  | some (target, steps) =>
    match assignedValue? target with
    | some value => return (← shapesOf value).map fun s => steps.foldr Step.wrap s
    | none => return []
  | none => return []

/-- The collection of the `foreach` that gives a variable its values or its keys, as `binding`
says. -/
def foreachCollection? (v : Node) (binding : PhraseKind) : Option Node := do
  let bound ← v.parent?
  if bound.isPhrase binding then
    let statement ← bound.parent?
    if statement.isPhrase .foreachStatement then
      (← statement.childOf? [.foreachCollection]).nth? 0
    else none
  else none

def foreachShapes (v : Node) (binding : PhraseKind) (part : Shape → List Shape) :
    Inquiry (List Shape) := do
  match foreachCollection? v binding with
  | some collection => return (← shapesOf collection).flatMap part
  | none => return []

/-- What one occurrence of its name says about a variable. -/
def occurrenceShapes (store : Store) (name : Node) : Inquiry (List Shape) := do
  match name.parent? with
  | none => return []
  | some parent =>
    if parent.isPhrase .simpleVariable then
      let assigned ← assignedShapes parent
      let values ← foreachShapes parent .foreachValue (·.get .any)
      let keys ← foreachShapes parent .foreachKey (·.keys)
      return assigned ++ values ++ keys
    else return parameterShapes store parent

/-- The occurrences of a variable: its declaration, then all other uses. -/
def occurrences (store : Store) (v : Node) : List Node :=
  let declared := ((referenceOf? v).map store.declarations).getD []
  declared ++ (otherUses v).filter fun n => !declared.any (·.same n)

def occurrencesShapes (store : Store) : List Node → Inquiry (List Shape)
  | [] => return []
  | name :: rest =>
    return (← occurrenceShapes store name) ++ (← occurrencesShapes store rest)

def variableShapes (store : Store) (expr : Node) : Inquiry (List Shape) :=
  if expr.isPhrase .simpleVariable then occurrencesShapes store (occurrences store expr)
  else return []

/-! ### All together -/

/-- What the strategies say about a node, one after the other. -/
def strategies (store : Store) (expr : Node) : Inquiry (List Shape) := do
  let arrays ← arrayShapes expr
  let calls ← callShapes store expr
  let named ← variableShapes store expr
  let subscripts ← subscriptShapes expr
  return arrays ++ calls ++ named ++ subscripts ++ (literal? expr).toList

/-- Resolution that goes at most `fuel` deep. A node that is being resolved already, or that the
guard refuses for its limits, gives nothing. -/
def resolveWith (store : Store) : (fuel : Nat) → Resolver
  | 0, _ => return []
  | fuel + 1, expr => do
    match ← modifyGet (·.enter expr.key) with
    | .entered =>
      let shapes ← (strategies store expr).run (resolveWith store fuel)
      modify (·.leave expr.key)
      return shapes
    | _ => return []

/-- All shapes that an expression may have. The guard stops at its depth, so more fuel than that
would never be used. -/
def resolve (store : Store) (expr : Node) : Guarded (List Shape) := do
  resolveWith store ((← get).limits.depth + 1) expr

end ArrayShapes.Inference
