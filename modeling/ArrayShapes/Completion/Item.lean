import ArrayShapes.Shape.Key

/-!
What is proposed at a caret, in the order in which it should be listed.
-/

namespace ArrayShapes.Completion

inductive ItemKind where
  /-- A key of an array. -/
  | field
  /-- A string that an expression may be. -/
  | value
  /-- A tag of a doc comment. -/
  | keyword
deriving DecidableEq, Repr

def ItemKind.label : ItemKind → String
  | .field => "field"
  | .value => "value"
  | .keyword => "keyword"

structure Item where
  label : String
  kind : ItemKind
  detail : String
  /-- A text that sorts the way the items are listed. -/
  sortText : String
deriving DecidableEq, Repr

/-- The detail of an item about whose value nothing is known. -/
def defaultDetail : String := "phz"

/-- How many places a rank is written with. -/
def sortWidth : Nat := 7

/-- A rank with zeros in front of it. -/
def sortText (rank : Nat) : String :=
  let digits := toString rank
  String.ofList (List.replicate (sortWidth - digits.length) '0') ++ digits

/-- The first item of each label, in order. -/
def firstOfEach {α : Type} (label : α → String) : List α → List α
  | [] => []
  | x :: xs => x :: firstOfEach label (xs.filter (label · != label x))
termination_by xs => xs.length
decreasing_by
  have := List.length_filter_le (label · != label x) xs
  simp; omega

/-- Items for labels with their details, ranked in order. -/
def ranked (kind : ItemKind) (labels : List (String × String)) : List Item :=
  labels.zipIdx.map fun ((label, detail), rank) => { label, kind, detail, sortText := sortText rank }

/-- Keys as items, each once. -/
def keyItems (candidates : List Shape.Candidate) (write : String → String) : List Item :=
  ranked .field ((firstOfEach (·.label) candidates).map fun c => (write c.label, c.detail))

end ArrayShapes.Completion
