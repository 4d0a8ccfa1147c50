import ArrayShapes.Command.Arguments
import ArrayShapes.Command.Config
import ArrayShapes.Command.Disk
import ArrayShapes.Command.Glob
import ArrayShapes.Command.Json
import ArrayShapes.Command.LogFormat
import ArrayShapes.Command.Output
import ArrayShapes.Command.Path
import ArrayShapes.Command.Run
import ArrayShapes.Completion.Expected
import ArrayShapes.Completion.Item
import ArrayShapes.Completion.Provider
import ArrayShapes.Diagnostic
import ArrayShapes.Doc.Alias
import ArrayShapes.Doc.Expression
import ArrayShapes.Doc.Signature
import ArrayShapes.Doc.Tag
import ArrayShapes.Guard
import ArrayShapes.Inference.Comment
import ArrayShapes.Inference.Resolve
import ArrayShapes.Inference.Search
import ArrayShapes.Literal
import ArrayShapes.Main
import ArrayShapes.Project.Reference
import ArrayShapes.Project.Scope
import ArrayShapes.Project.Store
import ArrayShapes.Project.Symbol
import ArrayShapes.Proofs.Guard
import ArrayShapes.Proofs.Inference.Course
import ArrayShapes.Proofs.Inference.Limits
import ArrayShapes.Proofs.Syntax.Build
import ArrayShapes.Proofs.Syntax.Grammar
import ArrayShapes.Proofs.Syntax.Grammar.Declaration
import ArrayShapes.Proofs.Syntax.Grammar.Expression
import ArrayShapes.Proofs.Syntax.Grammar.Statement
import ArrayShapes.Proofs.Syntax.Judgment
import ArrayShapes.Proofs.Syntax.Lossless
import ArrayShapes.Proofs.Syntax.Walk
import ArrayShapes.Proofs.Text.Bytes
import ArrayShapes.Proofs.Token.Cut
import ArrayShapes.Proofs.Token.Tiling
import ArrayShapes.Query
import ArrayShapes.Shape
import ArrayShapes.Shape.Key
import ArrayShapes.Shape.Normal
import ArrayShapes.Shape.Render
import ArrayShapes.Syntax.Builder
import ArrayShapes.Syntax.Document
import ArrayShapes.Syntax.Grammar
import ArrayShapes.Syntax.Grammar.Declaration
import ArrayShapes.Syntax.Grammar.Expression
import ArrayShapes.Syntax.Grammar.Rule
import ArrayShapes.Syntax.Grammar.Statement
import ArrayShapes.Syntax.Node
import ArrayShapes.Syntax.Outline
import ArrayShapes.Syntax.PhraseKind
import ArrayShapes.Syntax.Tree
import ArrayShapes.Text.Character
import ArrayShapes.Text.LineMap
import ArrayShapes.Text.Numeral
import ArrayShapes.Text.Ranges
import ArrayShapes.Text.Slice
import ArrayShapes.Token
import ArrayShapes.Token.Scan
import ArrayShapes.Proofs.Syntax.Growth
import ArrayShapes.Proofs.Syntax.Scene
import ArrayShapes.Proofs.Syntax.Settles
import ArrayShapes.Proofs.Syntax.Scene.Declaration
import ArrayShapes.Proofs.Syntax.Scene.Expression
import ArrayShapes.Proofs.Syntax.Scene.Statement
import ArrayShapes.Proofs.Syntax.Scene.Script
import ArrayShapes.Proofs.Syntax.Operands
import ArrayShapes.Proofs.Syntax.Formatting
import ArrayShapes.Proofs.Syntax.Span
import ArrayShapes.Proofs.Syntax.Layout
import ArrayShapes.Proofs.Syntax.Arena
import ArrayShapes.Proofs.Syntax.Coverage
import ArrayShapes.Proofs.Doc.Readback
import ArrayShapes.Proofs.Project.History
import ArrayShapes.Proofs.Doc.Signature
import ArrayShapes.Proofs.Syntax.Contract
import ArrayShapes.Proofs.Syntax.Turns
import ArrayShapes.Proofs.Inference.Comment
import ArrayShapes.Proofs.Syntax.Nesting
import ArrayShapes.Proofs.Shape.Names
import ArrayShapes.Proofs.Doc.Unfolding
import ArrayShapes.Proofs.Doc.Expansion
import ArrayShapes.Proofs.Inference.Import
import ArrayShapes.Proofs.Completion.Listing
import ArrayShapes.Proofs.Completion.Context
import ArrayShapes.Proofs.Doc.Spelling
import ArrayShapes.Proofs.Doc.Reading
import ArrayShapes.Proofs.Doc.Advance
import ArrayShapes.Proofs.Doc.Recovery
import ArrayShapes.Proofs.Text.Lines
import ArrayShapes.Proofs.Syntax.Caret
import ArrayShapes.Proofs.Syntax.Reporting
import ArrayShapes.Proofs.Syntax.Hereditary.Statement
import ArrayShapes.Proofs.Syntax.Binding
import ArrayShapes.Proofs.Token.Kinds
import ArrayShapes.Proofs.Token.Strings
import ArrayShapes.Proofs.Inference.Assignment
import ArrayShapes.Proofs.Literal.Interpolation
import ArrayShapes.Proofs.Literal.Quoting
import ArrayShapes.Proofs.Syntax.Reach
import ArrayShapes.Proofs.Project.Scope
import ArrayShapes.Proofs.Token.Modes
import ArrayShapes.Proofs.Literal.Integers
import ArrayShapes.Proofs.Doc.Tags
import ArrayShapes.Proofs.Syntax.Variables
import ArrayShapes.Proofs.Inference.Search
import ArrayShapes.Proofs.Doc.Progress
import ArrayShapes.Proofs.Guard.History
import ArrayShapes.Proofs.Syntax.Discipline
import ArrayShapes.Proofs.Syntax.Links
import ArrayShapes.Proofs.Syntax.Lookup
