import ArrayShapes.Text.Character

/-!
How the log is written, chosen by a name.
-/

namespace ArrayShapes.Command

inductive LogFormat where
  /-- One line after the other. -/
  | text
  /-- Indented, with a level for each question asked in turn. -/
  | tree
  /-- One object a line. -/
  | json
deriving DecidableEq, Repr

namespace LogFormat

def label : LogFormat → String
  | .text => "Text"
  | .tree => "Tree"
  | .json => "Json"

/-- The format of a name, in any case and with blanks around it. Other names mean text. -/
def ofName (name : String) : LogFormat :=
  match Text.lower (Text.trim name) with
  | "tree" => .tree
  | "json" => .json
  | _ => .text

end LogFormat

end ArrayShapes.Command
