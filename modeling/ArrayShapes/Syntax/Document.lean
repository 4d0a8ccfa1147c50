import ArrayShapes.Syntax.Grammar
import ArrayShapes.Syntax.Outline
import ArrayShapes.Token.Scan
import ArrayShapes.Text.LineMap

/-!
A source text that has been read: its tree, its lines and the problems found in it. Reading never
fails.
-/

namespace ArrayShapes.Syntax

structure Document where
  /-- Place among the documents it is kept with. -/
  number : Nat
  uri : String
  text : String
  tree : Tree
  /-- The nodes of the tree by their numbers. -/
  arena : Arena
  /-- The doc comments, in order. -/
  comments : List Token
  lines : Text.LineMap
  /-- Problems of the text and of the grammar, in the order in which they start. -/
  diagnostics : List Diagnostic

/-- The builder that has made the tree of a token list. -/
def Builder.parse (tokens : List Token) (sourceEnd : Nat) : Option Builder :=
  (Grammar.script.run (Builder.ofTokens tokens sourceEnd)).map Prod.snd

/-- The one finished node. -/
def Builder.root (b : Builder) : Tree :=
  b.pending[0]?.getD (.phrase 0 .script 0 0 [])

/-- How many nodes the tree has. -/
def Document.nodes (d : Document) : Nat := d.arena.size

def Document.parse (number : Nat) (uri text : String) : Document :=
  let scanned := scan text
  let tokens := scanned.tokens.toList
  let built := (Builder.parse tokens text.utf8ByteSize).getD (Builder.ofTokens [] text.utf8ByteSize)
  { number, uri, text
    tree := built.root
    arena := built.arena
    comments := (built.arena.tokens.toList.map Leaf.token).filter (·.kind = .documentComment)
    lines := Text.LineMap.ofText text
    diagnostics :=
      (scanned.diagnostics.toList ++ built.diagnostics.toList).mergeSort fun a b => a.start ≤ b.start }

end ArrayShapes.Syntax
