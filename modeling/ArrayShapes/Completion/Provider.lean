import ArrayShapes.Completion.Expected
import ArrayShapes.Completion.Item

/-!
Proposals at a caret. A provider looks at the token under the caret and has something to say when
the token stands in the context it is meant for.
-/

namespace ArrayShapes.Completion

open Syntax Project Inference

structure Request where
  /-- The token the caret is in or right after. -/
  token : Node
  offset : Nat
  /-- How many indices are proposed for a list. -/
  indices : Nat

/-! ### Keys of a subscripted array -/

def isNumeric (label : String) : Bool := !label.isEmpty && label.toList.all Text.isAsciiDigit

/-- The array that a key is asked of. -/
def subscripted? (token : Node) : Option Node := do
  let subscript ← token.parent?
  if subscript.isPhrase .subscriptExpression then
    let target ← subscript.nth? 0
    if target.same token then none else some target
  else none

/-- Inside quotes a key is proposed as it is, and after a bracket with quotes. -/
def subscriptItems (store : Store) (r : Request) : Guarded (List Item) := do
  let isQuoted := r.token.isToken .stringLiteral
  if isQuoted || r.token.isToken .openBracket then
    match subscripted? r.token with
    | some target =>
      let candidates := (← resolve store target).flatMap (·.candidates r.indices)
      return keyItems candidates fun label =>
        if isQuoted || isNumeric label then label else "'" ++ label ++ "'"
    | none => return []
  else return []

/-! ### Keys of an array literal -/

/-- The array literal that has the token as the key or the value of an element. -/
def literalOf? (token : Node) : Option Node :=
  match token.above with
  | part :: element :: list :: array :: _ =>
    if part.isPhraseIn [.arrayKey, .arrayValue] && element.isPhrase .arrayElement &&
        list.isPhrase .arrayInitialiserList && array.isPhrase .arrayCreationExpression then
      some array
    else none
  | _ => none

def literalItems (store : Store) (r : Request) : List Item :=
  if r.token.isToken .stringLiteral then
    match literalOf? r.token with
    | some array =>
      keyItems ((expectedShapes store array).flatMap (·.candidates r.indices)) fun label => label
    | none => []
  else []

/-! ### Strings that are compared with -/

/-- The operands that a string is compared with. -/
def comparedWith (token : Node) : List Node :=
  match token.parent? with
  | some comparison =>
    if comparison.isPhrase .equalityExpression && (comparison.childToken? .spaceship).isNone then
      comparison.significant.filter fun n => !n.same token && n.phraseKind?.isSome
    else []
  | none => []

def valueItems (store : Store) (r : Request) : Guarded (List Item) := do
  if r.token.isToken .stringLiteral then
    let shapes ← (Inquiry.shapesOfAll (comparedWith r.token)).run (resolve store)
    let values := (shapes.flatMap Shape.alternatives).filterMap Shape.str?
    return ranked .value ((firstOfEach id values).map fun value => (value, defaultDetail))
  else return []

/-! ### Tags of a doc comment -/

def customTags : List String := ["psalm-type", "psalm-import-type"]

/-- The text of the token up to the caret. -/
def textBefore? (r : Request) : Option String :=
  if r.token.pos ≤ r.offset then Text.slice? r.token.text 0 (r.offset - r.token.pos) else none

def tagItems (r : Request) : List Item :=
  if r.token.isToken .documentComment && (textBefore? r).any (·.toList.getLast? == some '@') then
    ranked .keyword (customTags.map fun tag => (tag, defaultDetail))
  else []

/-! ### All together -/

/-- What all providers propose, one after the other, under one guard. -/
def items (store : Store) (r : Request) : Guarded (List Item) := do
  let keys ← subscriptItems store r
  let values ← valueItems store r
  return keys ++ literalItems store r ++ values ++ tagItems r

/-- The proposals at an offset of a document. -/
def complete (store : Store) (uri : String) (offset indices : Nat) : List Item :=
  match store.locate? uri offset with
  | some token => ((items store { token, offset, indices }).run (.ofLimits .expression)).1
  | none => []

end ArrayShapes.Completion
