import Recast.Session
import Recast.Settings
import Recast.Target

/-! # Documents in, files out

A session for a target runs all stages and writes one file for each class of the program.
-/
namespace Recast

/-- A file to write, by its path inside the output directory. -/
structure OutputFile where
  path : String
  contents : String
  deriving DecidableEq, Repr

inductive OutputError where
  | stage (cause : StageError)
  | lower (cause : LowerError)
  deriving DecidableEq, Repr

namespace OutputError

def message : OutputError → String
  | .stage cause => cause.message
  | .lower cause => cause.message

end OutputError

namespace Target

def session (t : Target) (settings : Settings) : Session where
  program := { rules := settings.rules, typeTable := settings.typeTable t.primitives }
  known := settings.known t.known
  symbols := t.symbols ++ settings.symbols

/-- How types are spelled for the target under the given settings. -/
def typeTables (t : Target) (settings : Settings) : TypeTables :=
  ⟨settings.typeTable t.primitives, settings.known t.known, t.dialect.types⟩

def lowering (t : Target) (s : Session) : Lowering := ⟨s.program, t.dialect, s.known⟩

/-- The pages of classes from position `i` on. -/
def pages (t : Target) (l : Lowering) : ClassId → List Class → Except LowerError (List Page)
  | _, [] => return []
  | i, c :: cs => return (← t.page l i c) :: (← pages t l (i + 1) cs)

def file (t : Target) (c : Class) (page : Page) : OutputFile :=
  ⟨c.name ++ "." ++ t.extension, page.contents⟩

/-- Note in a class what its page mentions. -/
def noteReferences (c : Class) (page : Page) : Class :=
  page.referenced.foldl Class.addReference c

def emit (t : Target) (s : Session) : Except OutputError (List OutputFile) × Session :=
  match s.run Stage.standard with
  | (.error e, s) => (.error (.stage e), s)
  | (.ok (), s) =>
    let classes := s.program.classes
    match t.pages (t.lowering s) 0 classes with
    | .error e => (.error (.lower e), s)
    | .ok pages =>
      let noted := List.zipWith noteReferences classes pages
      (.ok (List.zipWith t.file classes pages),
        { s with program := { s.program with classes := noted } })

end Target

end Recast
