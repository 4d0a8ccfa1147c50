import ArrayShapes.Token
import ArrayShapes.Syntax.PhraseKind

/-!
Syntax trees. A tree holds every token of its source, blank text and comments included, so its
leaves in order are the source. Each node has a number of its own; a phrase is numbered after
everything below it.
-/

namespace ArrayShapes.Syntax

/-- What a node is: a token or a phrase. -/
inductive NodeKind where
  | token (kind : TokenKind)
  | phrase (kind : PhraseKind)
deriving DecidableEq, Repr

def NodeKind.label : NodeKind → String
  | .token k => k.label
  | .phrase k => k.label

inductive Tree where
  | token (id : Nat) (token : Token)
  | phrase (id : Nat) (kind : PhraseKind) (pos stop : Nat) (children : List Tree)
deriving Inhabited, Repr

namespace Tree

def id : Tree → Nat
  | .token id _ => id
  | .phrase id .. => id

def kind : Tree → NodeKind
  | .token _ t => .token t.kind
  | .phrase _ k .. => .phrase k

def tokenKind? : Tree → Option TokenKind
  | .token _ t => some t.kind
  | .phrase .. => none

def phraseKind? : Tree → Option PhraseKind
  | .token .. => none
  | .phrase _ k .. => some k

/-- Byte offset at which the node starts. -/
def pos : Tree → Nat
  | .token _ t => t.pos
  | .phrase _ _ pos _ _ => pos

/-- Byte offset just after the node. -/
def stop : Tree → Nat
  | .token _ t => t.stop
  | .phrase _ _ _ stop _ => stop

def children : Tree → List Tree
  | .token .. => []
  | .phrase _ _ _ _ cs => cs

def isTrivia (t : Tree) : Bool := t.tokenKind?.any TokenKind.isTrivia

mutual

/-- The tokens below a node, in source order. -/
def tokens : Tree → List Token
  | .token _ t => [t]
  | .phrase _ _ _ _ cs => tokensList cs

def tokensList : List Tree → List Token
  | [] => []
  | t :: ts => t.tokens ++ tokensList ts

end

mutual

/-- How many nodes a tree has. -/
def size : Tree → Nat
  | .token .. => 1
  | .phrase _ _ _ _ cs => 1 + sizeList cs

def sizeList : List Tree → Nat
  | [] => 0
  | t :: ts => t.size + sizeList ts

end

theorem sizeList_append (ts us : List Tree) : sizeList (ts ++ us) = sizeList ts + sizeList us := by
  induction ts with
  | nil => simp [sizeList]
  | cons t ts ih => simp [sizeList, ih, Nat.add_assoc]

theorem sizeList_children_lt (t : Tree) : sizeList t.children < t.size := by
  cases t with
  | token => simp [children, size, sizeList]
  | phrase => simp [children, size]

theorem size_lt_of_mem_children {c t : Tree} (h : c ∈ t.children) : c.size < t.size := by
  have hle : c.size ≤ sizeList t.children := by
    generalize t.children = ts at h
    induction ts with
    | nil => cases h
    | cons u us ih =>
      rcases List.mem_cons.1 h with rfl | h
      · simp [sizeList]
      · have := ih h
        simp [sizeList]
        omega
  have := sizeList_children_lt t
  omega

end Tree

end ArrayShapes.Syntax
