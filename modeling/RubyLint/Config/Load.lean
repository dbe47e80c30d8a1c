import RubyLint.Config.Document

/-!
# Finding the configuration of a project

A configuration stands in a file of a fixed name, in the directory that is looked at or in the one
that holds the file that is looked at.  Without such a file the standard configuration holds.
-/

namespace RubyLint.Config

def fileName : String := "perfcop.toml"

/-- A file below the directory of a project. -/
structure ProjectFile where
  path : List String
  content : String

/-- The parts of a path, seen from the directory of the project. -/
def pathParts (path : String) : List String :=
  ((path.splitOn "/").filter fun part => part != "" && part != ".")

def shownPath (root : String) (path : List String) : String := String.intercalate "/" (root :: path)

def file? (files : List ProjectFile) (path : List String) : Option ProjectFile :=
  files.find? fun f => f.path == path

/-- Something stands at a path: a file, or a directory with a file somewhere below. -/
def isThere (files : List ProjectFile) (path : List String) : Bool :=
  path.isEmpty || files.any fun f => path.isPrefixOf f.path

/-- The configuration for a path of the project whose directory is shown as `root`. -/
def load (root : String) (files : List ProjectFile) (path : List String) :
    Except ConfigError Config :=
  if !isThere files path then .error (.missingPath (shownPath root path))
  else
    let directory := if (file? files path).isSome then path.dropLast else path
    let place := directory ++ [fileName]
    match file? files place with
    | none => .ok standard
    | some f =>
      if ConfigError.maxFileSize < f.content.utf8ByteSize then
        .error (.tooLarge f.content.utf8ByteSize (shownPath root place))
      else ofText f.content

end RubyLint.Config
