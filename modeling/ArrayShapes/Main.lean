import ArrayShapes.Command.Run

/-!
The program: reads the files that a command line may be about, runs the command and prints the
answer.
-/

namespace ArrayShapes.Command

/-- The files below a directory, and the file itself for a path that leads to one. -/
partial def filesBelow (path : String) : IO (List (List String × ByteArray)) := do
  let place := (← IO.currentDir) / path
  if ← place.isDir then
    let entries ← place.readDir
    let inner ← entries.toList.mapM fun entry => filesBelow entry.path.toString
    return inner.flatten
  else if ← place.pathExists then
    let names := (Path.components (← IO.FS.realPath place).toString).filter (!·.isEmpty)
    return [(names, ← IO.FS.readBinFile place)]
  else return []

/-- The files that a command run in a directory looks at: those of the project, the configuration
and the one that is asked about. -/
def diskFor (directory : String) (args : Arguments) : IO Disk := do
  let root := (args.project.map (Path.join directory)).getD directory
  let named := match args.action with
    | .files => []
    | .complete file _ | .types file _ => [Path.join directory file]
  let paths := root :: ((args.config.map (Path.join root)).toList ++ named)
  let files ← paths.mapM filesBelow
  return { files := files.flatten, directories := [(Path.components directory).filter (!·.isEmpty)] }

end ArrayShapes.Command

open ArrayShapes.Command in
/-- Asking for help or for the version is no error. Words that make no command are one of their own. -/
def main (words : List String) : IO UInt32 := do
  let directory := (← IO.currentDir).toString
  let answer ← match Arguments.read words with
    | .ok args => pure (perform (← diskFor directory args) directory args)
    | .error reason => pure (.error (.usage reason))
  match answer with
  | .ok text =>
    if !text.isEmpty then IO.println text
    return 0
  | .error failure =>
    IO.eprintln ("Error: " ++ failure.message)
    return match failure with
      | .usage .help | .usage .version => 0
      | .usage _ => 2
      | _ => 1
