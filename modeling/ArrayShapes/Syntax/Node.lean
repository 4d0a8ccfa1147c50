import ArrayShapes.Syntax.Document

/-!
Nodes of a document and the ways from one to another. A node knows its tree and the way back to the
root, so that parents and siblings can be reached from it.
-/

namespace ArrayShapes.Syntax

/-- Where a tree stands: at the root, or inside a parent between the siblings before it (nearest
first) and after it. -/
inductive Place where
  | root
  | inside (parent : Tree) (place : Place) (before after : List Tree)

structure Node where
  document : Document
  tree : Tree
  place : Place

/-- Tells the nodes of several documents apart: the document's number and the node's. -/
structure NodeKey where
  document : Nat
  node : Nat
deriving DecidableEq, Repr

/-- How far up and how far along a walk goes. -/
def maxWalk : Nat := 10000

def Document.root (d : Document) : Node := ⟨d, d.tree, .root⟩

namespace Node

def key (n : Node) : NodeKey := ⟨n.document.number, n.tree.id⟩

/-- Whether both are the same node of the same document. -/
def same (a b : Node) : Bool := a.key = b.key

def kind (n : Node) : NodeKind := n.tree.kind

def tokenKind? (n : Node) : Option TokenKind := n.tree.tokenKind?

def phraseKind? (n : Node) : Option PhraseKind := n.tree.phraseKind?

def isToken (n : Node) (k : TokenKind) : Bool := n.tokenKind? == some k

def isPhrase (n : Node) (k : PhraseKind) : Bool := n.phraseKind? == some k

def isPhraseIn (n : Node) (ks : List PhraseKind) : Bool := n.phraseKind?.any ks.contains

def isTrivia (n : Node) : Bool := n.tree.isTrivia

def pos (n : Node) : Nat := n.tree.pos

def stop (n : Node) : Nat := n.tree.stop

/-- The source text the node covers. -/
def text (n : Node) : String := Text.slice n.document.text n.pos n.stop

def label (n : Node) : String := n.tree.label

/-! ### Up -/

def parent? (n : Node) : Option Node :=
  match n.place with
  | .root => none
  | .inside parent place _ _ => some ⟨n.document, parent, place⟩

/-- Parent, grandparent and so on. -/
def ancestorsFrom (d : Document) : Place → List Node
  | .root => []
  | .inside parent place _ _ => ⟨d, parent, place⟩ :: ancestorsFrom d place

/-- All nodes above, nearest first. -/
def above (n : Node) : List Node := ancestorsFrom n.document n.place

/-- The nodes above that a walk reaches. -/
def ancestors (n : Node) : List Node := n.above.take maxWalk

/-- The nearest of at most `most` nodes above a place of which `p` holds. -/
@[specialize]
def findAbove (d : Document) (p : Node → Bool) : (most : Nat) → Place → Option Node
  | 0, _ => none
  | _ + 1, .root => none
  | most + 1, .inside parent place _ _ =>
    if p ⟨d, parent, place⟩ then some ⟨d, parent, place⟩ else findAbove d p most place

/-- The nearest ancestor of which `p` holds. -/
@[inline]
def ancestor? (p : Node → Bool) (n : Node) : Option Node := findAbove n.document p maxWalk n.place

theorem findAbove_eq (d : Document) (p : Node → Bool) (most : Nat) (place : Place) :
    findAbove d p most place = ((ancestorsFrom d place).take most).find? p := by
  induction most generalizing place with
  | zero => simp [findAbove]
  | succ most ih =>
    cases place with
    | root => simp [findAbove, ancestorsFrom]
    | inside parent place before after =>
      simp only [findAbove, ancestorsFrom, List.take_succ_cons, List.find?_cons, ih]
      split <;> simp_all

theorem ancestor?_eq (p : Node → Bool) (n : Node) : n.ancestor? p = n.ancestors.find? p :=
  findAbove_eq ..

/-! ### Along -/

/-- Nodes for `trees`, which stand below `parent` after `before`. -/
def siblingsAfter (d : Document) (parent : Tree) (place : Place) :
    (before : List Tree) → (trees : List Tree) → List Node
  | _, [] => []
  | before, t :: ts =>
    ⟨d, t, .inside parent place before ts⟩ :: siblingsAfter d parent place (t :: before) ts

/-- Nodes for `trees`, nearest first, which stand below `parent` in front of `after`. -/
def siblingsBefore (d : Document) (parent : Tree) (place : Place) :
    (trees : List Tree) → (after : List Tree) → List Node
  | [], _ => []
  | t :: ts, after =>
    ⟨d, t, .inside parent place ts after⟩ :: siblingsBefore d parent place ts (t :: after)

/-- Siblings after the node, nearest first. -/
def following (n : Node) : List Node :=
  match n.place with
  | .root => []
  | .inside parent place before after =>
    siblingsAfter n.document parent place (n.tree :: before) after

/-- Siblings before the node, nearest first. -/
def preceding (n : Node) : List Node :=
  match n.place with
  | .root => []
  | .inside parent place before after =>
    siblingsBefore n.document parent place before (n.tree :: after)

def next? (n : Node) : Option Node := n.following.head?

def previous? (n : Node) : Option Node := n.preceding.head?

/-! ### Down -/

/-- All children in source order. -/
def children (n : Node) : List Node :=
  siblingsAfter n.document n.tree n.place [] n.tree.children

/-- Children without blank text and comments. -/
def significant (n : Node) : List Node := n.children.filter (!·.isTrivia)

def nth? (n : Node) (i : Nat) : Option Node := n.significant[i]?

def childOf? (n : Node) (ks : List PhraseKind) : Option Node := n.children.find? (·.isPhraseIn ks)

def childToken? (n : Node) (k : TokenKind) : Option Node := n.children.find? (·.isToken k)

theorem map_tree_siblingsAfter (d : Document) (parent : Tree) (place : Place)
    (before trees : List Tree) :
    (siblingsAfter d parent place before trees).map tree = trees := by
  induction trees generalizing before with
  | nil => rfl
  | cons t ts ih => simp [siblingsAfter, ih]

@[simp]
theorem map_tree_children (n : Node) : n.children.map tree = n.tree.children :=
  map_tree_siblingsAfter ..

theorem tree_mem_of_mem_children {c n : Node} (h : c ∈ n.children) : c.tree ∈ n.tree.children := by
  rw [← map_tree_children]
  exact List.mem_map_of_mem h

/-- The nodes of `forest` and those below them in pre-order, put after `done` where `keep` holds; the
walk goes below a node where `enter` holds. -/
@[specialize]
def walkFrom (enter keep : Node → Bool) (forest : List Node) (done : Array Node) : Array Node :=
  match forest with
  | [] => done
  | n :: rest =>
    walkFrom enter keep (if enter n then n.children ++ rest else rest)
      (if keep n then done.push n else done)
termination_by Tree.sizeList (forest.map tree)
decreasing_by
  have := Tree.sizeList_children_lt n.tree
  split <;> simp [Tree.sizeList_append, Tree.sizeList] <;> omega

/-- What `keep` holds of among the nodes of `forest` and those below them, in pre-order, going below
a node only where `enter` holds. -/
@[inline]
def walk (enter keep : Node → Bool) (forest : List Node) : List Node :=
  (walkFrom enter keep forest #[]).toList

/-- The node and everything below it in pre-order. -/
def descendants (n : Node) : List Node := walk (fun _ => true) (fun _ => true) [n]

/-- The node below `n` that is reached through children at these places. -/
def follow? (n : Node) : List Nat → Option Node
  | [] => some n
  | i :: is => (n.children[i]?).bind (·.follow? is)

end Node

namespace Document

/-- The node with a number. -/
def node? (d : Document) (id : Nat) : Option Node := (d.arena.way? id []).bind d.root.follow?

/-- The token a caret sits in or right after; at the very start, the first token. -/
def tokenAt? (d : Document) (offset : Nat) : Option Node :=
  (d.arena.tokenAt? offset).bind (d.node? ·.id)

end Document

end ArrayShapes.Syntax
