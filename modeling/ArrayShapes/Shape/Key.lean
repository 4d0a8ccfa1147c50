import ArrayShapes.Shape.Normal
import ArrayShapes.Shape.Render

/-!
Arrays and their keys: what stands under a key, which keys there are, and which of them are worth
proposing.
-/

namespace ArrayShapes.Shape

/-- Whether a value of shape `used` may stand where `expected` is asked for. Neither is a union, and
neither the contents of arrays nor the arguments of names are compared. -/
def agrees (expected used : Shape) : Bool :=
  match expected, used with
  | .any, _ | _, .any => true
  | .str a, .str b => a == b
  | .int a, .int b => a == b
  | .list _, .tuple _ | .map .., .record .. => true
  | .named name _, .str _ => relativeName name == "string"
  | .named name _, .int _ => relativeName name == "int"
  | .named a _, .named b _ => relativeName a == relativeName b
  | .record .., .record .. | .tuple _, .tuple _ | .list _, .list _ | .map .., .map .. => true
  | .union _, .union _ => true
  | _, _ => false

/-- Whether some alternatives of the two agree. -/
def matchesSome (expected used : Shape) : Bool :=
  expected.alternatives.any fun e => used.alternatives.any fun u => e.agrees u

/-- The values under a key that is no union, in a shape that is no union. -/
def lookup (shape key : Shape) : List Shape :=
  match shape with
  | .record entries _ =>
    match key with
    | .str content => (entries.filter fun e => e.1.str? == some content).map (·.2)
    | _ => []
  | .tuple elements =>
    match key with
    | .int (.ofNat i) => elements[i]?.toList
    | .int (.negSucc _) => []
    | _ => elements
  | .list value => [value]
  | .map keys value => if keys.matchesSome key then [value] else []
  | _ => []

/-- The values that indexing `shape` with `key` may give. -/
def get (shape key : Shape) : List Shape :=
  shape.alternatives.flatMap fun s => key.alternatives.flatMap fun k => s.lookup k

/-- The keys that going through `shape` gives. -/
def keys (shape : Shape) : List Shape :=
  shape.alternatives.flatMap fun s =>
    match s with
    | .record entries _ => entries.map (·.1)
    | .tuple elements => (List.range elements.length).map fun i => .int (Int.ofNat i)
    | .list _ => [plain "int"]
    | .map key _ => key.alternatives
    | _ => []

/-- A key to propose, with the shape of the value under it. -/
structure Candidate where
  label : String
  detail : String
deriving DecidableEq, Repr

/-- Keys to propose for a shape that is no union: the strings among the keys of records and maps,
and the first `indices` indices of lists. -/
def candidatesOf (indices : Nat) (shape : Shape) : List Candidate :=
  match shape with
  | .record entries _ => entries.filterMap fun e => e.1.str?.map fun label => ⟨label, e.2.render⟩
  | .list value => (List.range indices).map fun i => ⟨toString i, value.render⟩
  | .map key value => (key.alternatives.filterMap str?).map fun label => ⟨label, value.render⟩
  | _ => []

/-- Keys to propose for a shape. -/
def candidates (shape : Shape) (indices : Nat) : List Candidate :=
  shape.alternatives.flatMap (candidatesOf indices)

/-- A key to propose with its place among all keys to propose. -/
structure RankedCandidate extends Candidate where
  rank : Nat
deriving DecidableEq, Repr

/-- Keys to propose for a shape, numbered in the order in which they are proposed. -/
def rankedCandidates (shape : Shape) (indices : Nat) : List RankedCandidate :=
  (shape.candidates indices).zipIdx.map fun (candidate, rank) => { candidate with rank }

end ArrayShapes.Shape
