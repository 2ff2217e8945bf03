import Recast.Command.Files
import Recast.Command.Help
import Recast.Output

/-! # Running a command line

A command reads settings and documents, writes files, and ends with an outcome. Nothing is written
before all documents have been read and all classes laid out.
-/
namespace Recast.Command

structure Environment where
  /-- The absolute path of the working directory. -/
  cwd : String
  /-- The directory for settings of all programs, if there is a special one. -/
  configHome : Option String := none
  home : Option String := none

structure Outcome where
  exit : Nat
  stdout : String := ""
  stderr : String := ""
  deriving DecidableEq, Repr

inductive CommandError where
  | unknownTarget (name : String)
  | unreadableSettings (path : String) (cause : FileError)
  | malformedSettings (path : String)
  | unreadableDirectory (path : String) (cause : FileError)
  | noReader (path : String)
  | unreadableDocument (path : String) (cause : FileError)
  | output (cause : OutputError)
  | noOutputDirectory (path : String) (cause : FileError)
  | unwritable (path : String) (cause : FileError)
  deriving DecidableEq, Repr

def causedBy (message cause : String) : String := message ++ ": " ++ cause

namespace CommandError

/-- What went wrong and why. The message of an error may name its cause, which is then said
twice. -/
def message : CommandError → String
  | .unknownTarget name =>
    "unknown target \x60" ++ name ++ "\x60 (available: " ++
      ", ".intercalate (Target.all.map Target.language) ++ ")"
  | .unreadableSettings path cause =>
    causedBy (causedBy ("failed to read " ++ path) cause.message) cause.message
  | .malformedSettings path => causedBy ("invalid config " ++ path) "TOML parse error"
  | .unreadableDirectory path cause => causedBy ("cannot read directory " ++ path) cause.message
  | .noReader path => "no reader for " ++ path
  | .unreadableDocument path cause => causedBy ("cannot read " ++ path) cause.message
  | .output (.stage (.read document cause)) =>
    causedBy (StageError.read document cause).message cause.message
  | .output cause => cause.message
  | .noOutputDirectory path cause =>
    causedBy ("cannot create output directory " ++ path) cause.message
  | .unwritable path cause => causedBy ("cannot write " ++ path) cause.message

end CommandError

def Environment.globalSettings? (env : Environment) : Option String :=
  (env.configHome <|> env.home.map (Path.join · ".config")).map
    (Path.joinAll · ["retarget", "config.toml"])

def Environment.projectSettings (env : Environment) : String :=
  Path.joinAll env.cwd [".retarget", "config.toml"]

def readerFor? (path : String) : Option Reader := (Path.extension? path).bind Reader.forExtension?

variable {m : Type → Type} [Monad m] (files : Files m)

/-- Go on with a result, or end with an error made of its cause. -/
def orFail {α : Type} (fail : FileError → CommandError) (result : m (Except FileError α)) :
    ExceptT CommandError m α := do
  match ← result with
  | .ok a => return a
  | .error e => throw (fail e)

def mergeFile (s : Settings) (path : String) : ExceptT CommandError m Settings := do
  let text ← orFail (.unreadableSettings path) (files.read path)
  match Settings.ofToml? text with
  | some t => return s.merge t
  | none => throw (.malformedSettings path)

def mergeFileIfAny (s : Settings) (path : String) : ExceptT CommandError m Settings := do
  if ← files.isFile path then mergeFile files s path else return s

/-- The settings of the user, the project and the command line; the later ones win. -/
def loadSettings (env : Environment) (extra : Option String) :
    ExceptT CommandError m Settings := do
  let s ← env.globalSettings?.toList.foldlM (mergeFileIfAny files) {}
  let s ← mergeFileIfAny files s env.projectSettings
  extra.toList.foldlM (mergeFile files) s

/-- The documents in a directory, sorted by name, or else the path itself. -/
def documentsAt (path : String) : ExceptT CommandError m (List String) := do
  if ← files.isDir path then
    let names ← orFail (.unreadableDirectory path) (files.list path)
    let sorted := SortedSet.toList (SortedSet.addAll SortedMap.empty names)
    (sorted.map (Path.join path)).filterM fun file => do
      if ← files.isFile file then return (readerFor? file).isSome else return false
  else return [path]

def loadDocument (path : String) : ExceptT CommandError m Source := do
  match readerFor? path with
  | none => throw (.noReader path)
  | some reader =>
    return .text path (← orFail (.unreadableDocument path) (files.read path)) reader

def writeFile (out : String) (file : OutputFile) : ExceptT CommandError m Unit :=
  let path := Path.join out file.path
  orFail (.unwritable path) (files.write path file.contents)

def translate (env : Environment) (options : TranslateOptions) :
    ExceptT CommandError m Unit := do
  match Target.find? Target.all options.target with
  | none => throw (.unknownTarget options.target)
  | some target =>
    let settings ← loadSettings files env options.config
    let paths ← options.documents.mapM (documentsAt files)
    let sources ← paths.flatten.mapM (loadDocument files)
    match (target.emit (sources.foldl Session.addSource (target.session settings))).1 with
    | .error e => throw (.output e)
    | .ok outputs =>
      orFail (.noOutputDirectory options.out) (files.ensureDirs options.out)
      outputs.forM (writeFile files options.out)

def targetList : String :=
  String.join (Target.all.map fun t => t.language ++ "\t." ++ t.extension ++ "\n")

def run (env : Environment) (args : List String) : m Outcome := do
  match read args with
  | none => return { exit := 2, stderr := Topic.text .program }
  | some (.help topic) => return { exit := 0, stdout := topic.text }
  | some .version => return { exit := 0, stdout := versionText }
  | some .targets => return { exit := 0, stdout := targetList }
  | some (.translate options) =>
    match ← (translate files env options).run with
    | .ok () => return { exit := 0 }
    | .error e => return { exit := 1, stderr := "error: " ++ e.message ++ "\n" }

end Recast.Command
