import ArrayShapes.Command.Path

/-!
Files and directories as they are when a command starts.
-/

namespace ArrayShapes.Command

/-- Files with what they hold, and directories, by their names from the root. The directories
around a file or a directory exist without being listed. -/
structure Disk where
  files : List (List String × ByteArray)
  directories : List (List String)

namespace Disk

def isFile (d : Disk) (names : List String) : Bool := d.files.any fun (file, _) => file == names

def isDirectory (d : Disk) (names : List String) : Bool :=
  names.isEmpty || d.directories.any names.isPrefixOf ||
    d.files.any fun (file, _) => names.isPrefixOf file && file != names

/-- Follows names from a directory on. Every name but the last has to be a directory's, and so has
one with a dot, two dots or nothing behind it. -/
def follow? (d : Disk) (place : List String) : List String → Option (List String)
  | [] => some place
  | name :: names =>
    if !d.isDirectory place then none
    else if name == "" || name == "." then follow? d place names
    else if name == ".." then follow? d place.dropLast names
    else
      let next := place ++ [name]
      if d.isFile next || d.isDirectory next then follow? d next names else none

/-- Where an absolute path leads to. -/
def locate? (d : Disk) (path : String) : Option (List String) := d.follow? [] (Path.components path)

/-- The file that a path leads to. -/
def locateFile? (d : Disk) (path : String) : Option (List String) := (d.locate? path).filter d.isFile

def bytes? (d : Disk) (names : List String) : Option ByteArray := d.files.lookup names

/-- What a file holds, if it is text. -/
def text? (d : Disk) (names : List String) : Option String :=
  (d.bytes? names).bind String.fromUTF8?

/-- The files below a directory, by their names from there, directory by directory. -/
def below (d : Disk) (directory : List String) : List (List String) :=
  let names := d.files.filterMap fun (file, _) =>
    if directory.isPrefixOf file && file != directory then some (file.drop directory.length) else none
  names.mergeSort Path.precedes

end Disk

end ArrayShapes.Command
