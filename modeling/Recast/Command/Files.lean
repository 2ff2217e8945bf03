import Recast.Command.Path

/-! # Access to files

The operations on files that the commands need, over any monad that can provide them.
-/
namespace Recast

inductive FileError where
  | notFound
  | alreadyExists
  | notDirectory
  | isDirectory
  | nameTooLong
  /-- The path has a null character. -/
  | badName
  /-- The file is not text in UTF-8. -/
  | notText
  | other (message : String)
  deriving DecidableEq, Repr

namespace FileError

def message : FileError → String
  | .notFound => "No such file or directory (os error 2)"
  | .alreadyExists => "File exists (os error 17)"
  | .notDirectory => "Not a directory (os error 20)"
  | .isDirectory => "Is a directory (os error 21)"
  | .nameTooLong => "File name too long (os error 36)"
  | .badName => "file name contained an unexpected NUL byte"
  | .notText => "stream did not contain valid UTF-8"
  | .other message => message

end FileError

structure Files (m : Type → Type) where
  isDir : String → m Bool
  isFile : String → m Bool
  /-- The names in a directory, in any order. -/
  list : String → m (Except FileError (List String))
  /-- The text of a file. -/
  read : String → m (Except FileError String)
  /-- Make a directory in one that exists. -/
  makeDir : String → m (Except FileError Unit)
  /-- Make a file, or replace what is in it. -/
  write : String → String → m (Except FileError Unit)

namespace Files

variable {m : Type → Type} [Monad m] (files : Files m)

/-- Make a directory; that it is there already is no failure. -/
def ensureDir (path : String) : m (Except FileError Unit) := do
  match ← files.makeDir path with
  | .ok () => return .ok ()
  | .error e => return if ← files.isDir path then .ok () else .error e

/-- Make a directory and those above it that are missing, the nearest one first in the list. -/
def ensureDirUnder (path : String) : List String → m (Except FileError Unit)
  | [] => files.ensureDir path
  | parent :: above => do
    match ← files.ensureDir path with
    | .error .notFound =>
      match ← ensureDirUnder parent above with
      | .ok () => files.ensureDir path
      | .error e => return .error e
    | result => return result

/-- Make a directory with all directories above it. -/
def ensureDirs (path : String) : m (Except FileError Unit) :=
  files.ensureDirUnder path (Path.above path)

end Files

end Recast
