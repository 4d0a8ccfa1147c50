import ArrayShapes.Project.Reference

/-!
The documents of a project and what they declare.
-/

namespace ArrayShapes.Project

open Syntax

/-- A document with the symbols it declares. -/
structure Entry where
  document : Document
  symbols : List Symbol

structure Store where
  entries : List Entry

namespace Entry

def make (number : Nat) (uri text : String) : Entry :=
  let document := Document.parse number uri text
  { document, symbols := symbolsOf document }

end Entry

namespace Store

def empty : Store := ⟨[]⟩

def size (s : Store) : Nat := s.entries.length

def documents (s : Store) : List Document := s.entries.map (·.document)

/-- Where the document with a uri stands. -/
def slot? (s : Store) (uri : String) : Option Nat :=
  s.entries.findIdx? fun e => e.document.uri == uri

/-- Adds a document. One with the same uri is replaced and keeps its place. -/
def add (s : Store) (uri text : String) : Store :=
  match s.slot? uri with
  | some i => ⟨s.entries.set i (.make i uri text)⟩
  | none => ⟨s.entries ++ [.make s.size uri text]⟩

def ofSources (sources : List (String × String)) : Store :=
  sources.foldl (fun s f => s.add f.1 f.2) empty

def entry? (s : Store) (uri : String) : Option Entry :=
  s.entries.find? fun e => e.document.uri == uri

def document? (s : Store) (uri : String) : Option Document := (s.entry? uri).map (·.document)

/-- The node with a key, if there is such a document and such a node in it. -/
def node? (s : Store) (key : NodeKey) : Option Node :=
  (s.documents[key.document]?).bind (·.node? key.node)

/-- The symbols of one kind found by a name, document by document. -/
def found (s : Store) (kind : SymbolKind) (key : String) : List Symbol :=
  s.entries.flatMap fun e => Project.found kind key e.symbols

/-- Methods of a name. Those of the class are meant if it declares any; otherwise it may have
inherited one, and those of all classes are meant. -/
def methods (s : Store) (cls : Option String) (name : String) : List Symbol :=
  let all := s.found .method name
  match cls with
  | none => all
  | some cls =>
    let own := all.filter (·.container == some cls)
    if own.isEmpty then all else own

/-- The declarations a reference may mean. -/
def declarations (s : Store) : Reference → List Node
  | .function name => (s.found .function name).map (·.declaration)
  | .cls name => (s.found .cls name).map (·.declaration)
  | .method cls name => (s.methods cls name).map (·.declaration)
  | .variable name scope => ((s.node? scope).bind (variableDeclaration? · name)).toList

/-- The classes of a name, in any namespace. -/
def classes (s : Store) (name : String) : List Node := s.declarations (.ofClass name)

/-- The token at an offset of a document. -/
def locate? (s : Store) (uri : String) (offset : Nat) : Option Node :=
  (s.document? uri).bind (·.tokenAt? offset)

end Store

end ArrayShapes.Project
