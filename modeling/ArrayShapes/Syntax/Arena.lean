import ArrayShapes.Syntax.Tree

/-!
What is kept of the nodes by their numbers. A node gets the next number when it is made: a token when
it is placed, and a phrase when it is finished, after all of its children. That is when the children
are linked to it.
-/

namespace ArrayShapes.Syntax

/-- Where a node hangs: the number of its parent, once it has one, and its place among the children
of the parent. -/
structure Link where
  parent : Option Nat
  index : Nat
deriving DecidableEq, Repr

/-- A node that has no parent yet. -/
def Link.loose : Link := ⟨none, 0⟩

/-- A token and the number of its node. -/
structure Leaf where
  id : Nat
  token : Token

structure Arena where
  /-- The links of all nodes, by number. -/
  links : Array Link
  /-- The tokens, in the order in which they have been made. -/
  tokens : Array Leaf

namespace Arena

def empty : Arena := ⟨#[], #[]⟩

/-- How many nodes there are; the number of the next one. -/
def size (a : Arena) : Nat := a.links.size

def addToken (a : Arena) (t : Token) : Arena :=
  ⟨a.links.push .loose, a.tokens.push ⟨a.size, t⟩⟩

/-- Links nodes to a parent, as its children from place `index` on. -/
def linkTo (parent : Nat) (links : Array Link) : (children : List Nat) → (index : Nat) → Array Link
  | [], _ => links
  | id :: ids, index => linkTo parent (links.setIfInBounds id ⟨some parent, index⟩) ids (index + 1)

/-- Adds a phrase over nodes that there are already. -/
def addPhrase (a : Arena) (children : List Nat) : Arena :=
  { a with links := (linkTo a.size a.links children 0).push .loose }

/-- The places on the way down to a node, followed by `below`. A parent is made after its children, so
the way up from the node goes to greater numbers. -/
def way? (a : Arena) (id : Nat) (below : List Nat) : Option (List Nat) :=
  match _h : a.links[id]? with
  | none => none
  | some ⟨none, _⟩ => some below
  | some ⟨some parent, index⟩ => if id < parent then a.way? parent (index :: below) else none
termination_by a.size - id
decreasing_by
  have := (Array.getElem?_eq_some_iff.1 _h).1
  simp only [size]
  omega

/-- How many of the tokens end before byte `offset`, if those that do come first. It is found by
bisection between `lo` and `hi`. -/
def endedBefore (a : Arena) (offset lo hi : Nat) : Nat :=
  if lo < hi then
    let mid := (lo + hi) / 2
    if a.tokens[mid]?.any (·.token.stop < offset) then a.endedBefore offset (mid + 1) hi
    else a.endedBefore offset lo mid
  else lo
termination_by hi - lo

/-- The token that a caret sits in or right after; at the very start, the first token. -/
def tokenAt? (a : Arena) (offset : Nat) : Option Leaf :=
  if offset = 0 then a.tokens[0]?
  else (a.tokens[a.endedBefore offset 0 a.tokens.size]?).filter fun l =>
    l.token.pos < offset && offset ≤ l.token.stop

end Arena

end ArrayShapes.Syntax
