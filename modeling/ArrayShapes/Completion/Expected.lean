import ArrayShapes.Inference.Resolve

/-!
The shapes that an array literal should have where it is written: those that the doc comment of the
called function gives for the parameter, or those under its key in the literal around it.
-/

namespace ArrayShapes.Completion

open Syntax Project Inference

/-- The constructor that a `new` expression calls. -/
def constructorReference? (creation : Node) : Option Reference := do
  let name ← (← creation.childOf? [.classTypeDesignator]).nth? 0
  match ← referenceOf? name with
  | .cls cls => some (.ofMethod (some cls) "__construct")
  | _ => none

/-- The declarations of what is called with some arguments. -/
def calleesOf (store : Store) (arguments : Node) : List Node :=
  let reference := do
    let call ← arguments.parent?
    if call.isPhraseIn [.functionCallExpression, .methodCallExpression, .scopedCallExpression] then
      referenceOf? call
    else if call.isPhrase .objectCreationExpression then constructorReference? call
    else none
  (reference.map store.declarations).getD []

/-- What is documented for the parameter that stands where `array` does among the arguments. -/
def argumentShapes (store : Store) (array arguments : Node) : List Shape :=
  match (arguments.significant.filter (!·.isToken .comma)).findIdx? (·.same array) with
  | some i =>
    ((calleesOf store arguments).filterMap fun f => (parameters f)[i]?).flatMap (parameterShapes store)
  | none => []

/-- What is documented for the parameter that a named argument names. -/
def namedArgumentShapes (store : Store) (argument : Node) : List Shape :=
  match argument.nth? 0, argument.parent? with
  | some name, some arguments =>
    if name.isToken .name then
      let isMeant (p : Node) : Bool :=
        (p.childToken? .variableName).any (·.text == "$" ++ name.text)
      (((calleesOf store arguments).flatMap parameters).filter isMeant).flatMap (parameterShapes store)
    else []
  | _, _ => []

/-- The shapes expected of `array`, which stands below the nodes `above`. -/
def expectedBelow (store : Store) (array : Node) : (above : List Node) → List Shape
  | [] => []
  | parent :: above =>
    match parent.phraseKind? with
    | some .argumentExpressionList => argumentShapes store array parent
    | some .namedArgument => namedArgumentShapes store parent
    | some .arrayValue =>
      match above with
      | element :: _ :: outer :: above =>
        if element.isPhrase .arrayElement && outer.isPhrase .arrayCreationExpression then
          let key := ((element.childOf? [.arrayKey]).map elementKey).getD .any
          (expectedBelow store outer above).flatMap (·.get key)
        else []
      | _ => []
    | _ => []

def expectedShapes (store : Store) (array : Node) : List Shape := expectedBelow store array array.above

end ArrayShapes.Completion
