import ArrayShapes.Completion.Provider

/-!
Questions asked of a project at a caret.
-/

namespace ArrayShapes.Query

open Syntax Project Inference

/-- Line and column of a caret, both counted from one. -/
structure Caret where
  line : Nat
  column : Nat
deriving DecidableEq, Repr

/-- Why a question has no answer. -/
inductive Fault where
  | notIndexed (file : String)
  | pastEnd (line : Nat) (uri : String)
  | noOffset (caret : Caret)
deriving DecidableEq, Repr

def Fault.message : Fault → String
  | .notIndexed file => file ++ " is not indexed (too large or unreadable)"
  | .pastEnd line uri => "line " ++ toString line ++ " is past the end of " ++ uri
  | .noOffset caret => "no offset for " ++ toString caret.line ++ ":" ++ toString caret.column

def caretOffset (d : Document) (caret : Caret) : Except Fault Nat :=
  let position : Text.Position := ⟨caret.line - 1, caret.column - 1⟩
  if position.line ≥ d.lines.lineCount then .error (.pastEnd caret.line d.uri)
  else match d.lines.offsetAt? position with
    | some offset => .ok offset
    | none => .error (.noOffset caret)

/-- The document of a file that was asked for by the name `file`. -/
def indexed (store : Store) (file uri : String) : Except Fault Document :=
  match store.document? uri with
  | some d => .ok d
  | none => .error (.notIndexed file)

/-- Phrases that a question about shapes does not go beyond. -/
def isBoundary (n : Node) : Bool :=
  n.isPhraseIn [.expressionStatement, .returnStatement, .echoStatement, .compoundStatement,
    .statementList]

/-- The shapes of the first node that has any. -/
def firstShapes (store : Store) : List Node → Guarded (List Shape)
  | [] => return []
  | n :: ns => do
    match ← resolve store n with
    | [] => firstShapes store ns
    | shapes => return shapes

/-- The shapes of the innermost node around the caret that has any, within its statement. -/
def shapesAt (store : Store) (file uri : String) (caret : Caret) : Except Fault (List Shape) := do
  let d ← indexed store file uri
  let offset ← caretOffset d caret
  match d.tokenAt? offset with
  | some token =>
    let nodes := (token :: token.ancestors).takeWhile (!isBoundary ·)
    return ((firstShapes store nodes).run (.ofLimits .expression)).1
  | none => return []

/-- The proposals at the caret. -/
def completionsAt (store : Store) (file uri : String) (caret : Caret) (indices : Nat) :
    Except Fault (List Completion.Item) := do
  let d ← indexed store file uri
  return Completion.complete store uri (← caretOffset d caret) indices

end ArrayShapes.Query
