import Recast.Source.Region
import Recast.Program.Discovery
import Recast.Program.Naming
import Recast.Program.Ordering

/-! # Sessions and stages

A session holds a program in the making and the sources it is made from. Stages work on it one
after the other, each on the whole program, and a stage may need others to have finished before. A
list of stages is checked before any of them runs.
-/
namespace Recast

inductive Source where
  /-- A document that is read already; its regions stay as they are. -/
  | parsed (document : Document)
  /-- A text that is read when the documents are wanted. -/
  | text (name contents : String) (reader : Reader)

namespace Source

def name : Source → String
  | .parsed document => document.name
  | .text name _ _ => name

/-- The document of a source; one without a name of its own is named like its source. -/
def load (defines : Defines) : Source → Except ReadError Document
  | .parsed document => .ok document
  | .text name contents reader => do
    let document ← reader.read defines contents
    return if document.name == "" then { document with name } else document

end Source

inductive Stage where
  | reset | foldSymbols | discover | resolve | sort
  deriving DecidableEq, Repr

namespace Stage

instance : Worded Stage where
  all := [.reset, .foldSymbols, .discover, .resolve, .sort]
  word
    | .reset => "reset"
    | .foldSymbols => "fold-symbols"
    | .discover => "discover"
    | .resolve => "resolve"
    | .sort => "sort"

def name (s : Stage) : String := Worded.word s

def requires : Stage → List Stage
  | .reset | .foldSymbols => []
  | .discover => [.foldSymbols]
  | .resolve => [.discover]
  | .sort => [.resolve]

def standard : List Stage := [.reset, .foldSymbols, .discover, .resolve, .sort]

end Stage

inductive StageError where
  | noStages
  | missing (stage requires : Stage)
  | read (document : String) (cause : ReadError)
  | program (cause : ProgramError)
  deriving DecidableEq, Repr

namespace StageError

def message : StageError → String
  | .noStages => "pipeline has no stages"
  | .missing stage requires =>
    "stage \x60" ++ stage.name ++ "\x60 requires \x60" ++ requires.name ++
      "\x60 to run earlier in the pipeline"
  | .read document cause => "failed to read \x60" ++ document ++ "\x60: " ++ cause.message
  | .program cause => cause.message

end StageError

structure Session where
  program : Program := {}
  defines : Defines := {}
  /-- Symbols that the stage `foldSymbols` defines. -/
  symbols : List String := []
  known : KnownClasses := {}
  sources : List Source := []
  discovery : Option Discovery := none
  resolution : Option Program.Resolution := none
  /-- What else was noted since the last reset, by key. -/
  notes : SortedMap String Json := .empty
  /-- The stages that have finished, in order. -/
  completed : List Stage := []

namespace Session

instance : Inhabited Session := ⟨{}⟩

def addSource (s : Session) (source : Source) : Session :=
  { s with sources := s.sources ++ [source] }

/-- Add the classes of all documents, up to the first document that cannot be read or added. -/
def discoverAll (defines : Defines) :
    List Source → Program → Discovery → Except StageError Discovery × Program
  | [], p, d => (.ok d, p)
  | source :: sources, p, d =>
    match source.load defines with
    | .error cause => (.error (.read source.name cause), p)
    | .ok document =>
      match p.discover document with
      | .error cause => (.error (.program cause), p)
      | .ok q => discoverAll defines sources q (d.count (p.harvest document))

def step (s : Session) : Stage → Except StageError Unit × Session
  | .reset =>
    (.ok (), { s with
      program := s.program.reset, completed := [], discovery := none, resolution := none,
      notes := .empty })
  | .foldSymbols => (.ok (), { s with defines := s.defines.defineAll s.symbols })
  | .discover =>
    match discoverAll s.defines s.sources s.program {} with
    | (.ok d, p) => (.ok (), { s with program := p, discovery := some d })
    | (.error e, p) => (.error e, { s with program := p })
  | .resolve =>
    let (p, r) := s.program.resolve
    (.ok (), { s with program := p, resolution := some r })
  | .sort => (.ok (), { s with program := s.program.sort })

/-- Check that every stage comes after what it requires; `done` holds the stages finished before. -/
def validateFrom (done : List Stage) : List Stage → Except StageError Unit
  | [] => .ok ()
  | stage :: stages =>
    match stage.requires.find? fun r => !done.contains r with
    | some r => .error (.missing stage r)
    | none => validateFrom (done ++ [stage]) stages

/-- Check a list of stages. What the session has finished counts, unless the list starts with a
reset. -/
def validate (s : Session) : List Stage → Except StageError Unit
  | [] => .error .noStages
  | .reset :: stages => validateFrom [] (.reset :: stages)
  | stages => validateFrom s.completed stages

def steps (s : Session) : List Stage → Except StageError Unit × Session
  | [] => (.ok (), s)
  | stage :: stages =>
    match s.step stage with
    | (.ok (), t) => steps { t with completed := t.completed ++ [stage] } stages
    | (.error e, t) => (.error e, t)

/-- Run a list of stages if it is valid. What was done before a failure stays done. -/
def run (s : Session) (stages : List Stage) : Except StageError Unit × Session :=
  match s.validate stages with
  | .error e => (.error e, s)
  | .ok () => s.steps stages

end Session

end Recast
