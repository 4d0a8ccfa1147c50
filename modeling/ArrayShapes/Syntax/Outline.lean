import ArrayShapes.Syntax.Tree

/-!
Trees at a glance: every node with its depth, and how many nodes there are of each kind.
-/

namespace ArrayShapes.Syntax

namespace Tree

/-- Nodes of a forest in pre-order, each with its depth, put after `done`. -/
def outlineFrom (forest : List (Nat × Tree)) (done : Array (Nat × Tree)) : Array (Nat × Tree) :=
  match forest with
  | [] => done
  | (depth, t) :: rest =>
    outlineFrom (t.children.map (fun c => (depth + 1, c)) ++ rest) (done.push (depth, t))
termination_by sizeList (forest.map Prod.snd)
decreasing_by
  have := sizeList_children_lt t
  simp [sizeList_append, sizeList, Function.comp_def]
  omega

/-- All nodes in pre-order, each with its depth; the root has depth 0. -/
def outline (t : Tree) : Array (Nat × Tree) := outlineFrom [(0, t)] #[]

/-- How a node is written: its kind and its span. -/
def label (t : Tree) : String := s!"{t.kind.label}@{t.pos}..{t.stop}"

end Tree

/-- Counts over a tree. -/
structure Census where
  tokens : Nat
  depth : Nat
  kinds : List (NodeKind × Nat)
deriving Repr

def NodeKind.all : List NodeKind :=
  TokenKind.all.map .token ++ PhraseKind.all.map .phrase

/-- Counts of all kinds that occur, the number of tokens and the greatest depth. -/
def Tree.census (t : Tree) : Census :=
  let nodes := t.outline
  let count (k : NodeKind) : Nat := nodes.foldl (fun n p => if p.2.kind = k then n + 1 else n) 0
  { tokens := nodes.foldl (fun n p => if p.2.tokenKind?.isSome then n + 1 else n) 0
    depth := nodes.foldl (fun d p => max d p.1) 0
    kinds := (NodeKind.all.map fun k => (k, count k)).filter (·.2 > 0) }

end ArrayShapes.Syntax
