import Recast.Command.Run

/-! # The program

Runs a command line on the files of the system.
-/
namespace Recast.Main

def fileError : IO.Error → FileError
  | .noFileOrDirectory .. => .notFound
  | .alreadyExists .. => .alreadyExists
  | .inappropriateType _ code _ => if code == 21 then .isDirectory else .notDirectory
  | e => .other (toString e)

def attempt {α : Type} (action : IO α) : IO (Except FileError α) := do
  match ← action.toBaseIO with
  | .ok a => return .ok a
  | .error e => return .error (fileError e)

def readText (path : String) : IO (Except FileError String) := do
  match ← attempt (IO.FS.readBinFile path) with
  | .ok bytes =>
    match String.fromUTF8? bytes with
    | some text => return .ok text
    | none => return .error .notText
  | .error e => return .error e

def isDir (path : String) : IO Bool := do
  match ← (IO.FS.realPath path).toBaseIO with
  | .ok real => real.isDir
  | .error _ => return false

def isThere (path : String) : IO Bool := do
  match ← (IO.FS.realPath path).toBaseIO with
  | .ok real => real.pathExists
  | .error _ => return false

def names (path : String) : IO (List String) := do
  return (← (← IO.FS.realPath path).readDir).toList.map fun entry => entry.fileName

def files : Files IO where
  isDir := isDir
  isFile path := do if ← isDir path then return false else isThere path
  list path := attempt (names path)
  read := readText
  makeDir path := attempt (IO.FS.createDir path)
  write path contents := attempt (IO.FS.writeFile path contents)

end Recast.Main

def main (args : List String) : IO UInt32 := do
  let env : Recast.Command.Environment :=
    { cwd := toString (← IO.currentDir)
      configHome := ← IO.getEnv "XDG_CONFIG_HOME"
      home := ← IO.getEnv "HOME" }
  let outcome ← Recast.Command.run Recast.Main.files env args
  IO.print outcome.stdout
  IO.eprint outcome.stderr
  return UInt32.ofNat outcome.exit
