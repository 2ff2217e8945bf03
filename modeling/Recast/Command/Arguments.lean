/-! # Command lines

A command line names a command with its options. It is read from left to right: the first mistake
counts, and a request for help or for the version takes effect where it stands.
-/
namespace Recast.Command

inductive Topic where
  | program
  | translate
  | targets
  | help
  deriving DecidableEq, Repr

structure TranslateOptions where
  documents : List String
  target : String
  out : String
  config : Option String
  deriving DecidableEq, Repr

/-- What a command line asks for. -/
inductive Request where
  | translate (options : TranslateOptions)
  | targets
  | help (topic : Topic)
  | version
  deriving DecidableEq, Repr

inductive Stop where
  | mistake
  | request (r : Request)
  deriving DecidableEq, Repr

abbrev Reading := Except Stop

inductive Flag where
  | verbose
  | help
  | version
  | target
  | out
  | config
  deriving DecidableEq, Repr

namespace Flag

def longName : Flag → String
  | .verbose => "verbose"
  | .help => "help"
  | .version => "version"
  | .target => "target"
  | .out => "out"
  | .config => "config"

def letter? : Flag → Option Char
  | .verbose => some 'v'
  | .help => some 'h'
  | .version => some 'V'
  | .target => some 't'
  | .out => some 'o'
  | .config => none

def takesValue : Flag → Bool
  | .verbose | .help | .version => false
  | .target | .out | .config => true

/-- The value is a path, which cannot be empty. -/
def isPath : Flag → Bool
  | .out | .config => true
  | _ => false

end Flag

namespace Topic

/-- The flags that a command takes; those of the program stand before the command. -/
def flags : Topic → List Flag
  | .program => [.verbose, .help, .version]
  | .translate => [.target, .verbose, .out, .config, .help]
  | .targets => [.verbose, .help]
  | .help => []

def byName (t : Topic) (name : String) : Reading Flag :=
  match t.flags.find? fun f => f.longName == name with
  | some f => .ok f
  | none => .error .mistake

def byLetter (t : Topic) (c : Char) : Reading Flag :=
  match t.flags.find? fun f => f.letter? == some c with
  | some f => .ok f
  | none => .error .mistake

end Topic

/-- The flags and documents read so far. A flag stands at most once. -/
structure Given where
  flags : List (Flag × String) := []
  documents : List String := []
  /-- The flag that the next argument is the value of. -/
  pending : Option Flag := none

namespace Given

def get? (g : Given) (f : Flag) : Option String := g.flags.lookup f

def set (g : Given) (f : Flag) (value : String) : Reading Given :=
  if (g.get? f).isSome || (f.isPath && value == "") then .error .mistake
  else .ok { g with flags := g.flags ++ [(f, value)], pending := none }

/-- Take a flag that has no value. -/
def mark (g : Given) (t : Topic) (f : Flag) : Reading Given :=
  match f with
  | .help => .error (.request (.help t))
  | .version => .error (.request .version)
  | f => g.set f ""

def addDocument (g : Given) (path : String) : Reading Given :=
  if path == "" then .error .mistake
  else .ok { g with documents := g.documents ++ [path] }

/-- Take the letters behind one dash. Behind the letter of a flag with a value stands the value,
which may start with an equals sign. -/
def letters (t : Topic) (g : Given) : List Char → Reading Given
  | [] => .ok g
  | c :: cs => do
    let f ← t.byLetter c
    if f.takesValue then
      match cs with
      | [] => return { g with pending := some f }
      | '=' :: value => g.set f (String.ofList value)
      | value => g.set f (String.ofList value)
    else letters t (← g.mark t f) cs

/-- Take what stands behind two dashes: a name, or a name and a value. -/
def long (t : Topic) (g : Given) (cs : List Char) : Reading Given := do
  let f ← t.byName (String.ofList (cs.takeWhile (· != '=')))
  match cs.dropWhile (· != '=') with
  | [] => if f.takesValue then return { g with pending := some f } else g.mark t f
  | _ :: value => if f.takesValue then g.set f (String.ofList value) else .error .mistake

end Given

/-- What an argument looks like. -/
inductive ArgumentForm where
  | plain
  | letters (cs : List Char)
  | long (cs : List Char)
  /-- Two dashes: only plain arguments follow. -/
  | escape
  deriving DecidableEq, Repr

def ArgumentForm.ofText (text : String) : ArgumentForm :=
  match text.toList with
  | ['-'] => .plain
  | ['-', '-'] => .escape
  | '-' :: '-' :: cs => .long cs
  | '-' :: cs => .letters cs
  | _ => .plain

namespace Given

def takeFlag (t : Topic) (g : Given) : ArgumentForm → Reading Given
  | .letters cs => g.letters t cs
  | .long cs => g.long t cs
  | _ => .error .mistake

def take (t : Topic) (g : Given) : List String → Reading Given
  | [] => if g.pending.isSome then .error .mistake else .ok g
  | text :: rest =>
    match g.pending, ArgumentForm.ofText text with
    | some f, .plain => do take t (← g.set f text) rest
    | some _, _ => .error .mistake
    | none, .plain => do take t (← g.addDocument text) rest
    | none, .escape => rest.foldlM addDocument g
    | none, argument => do take t (← g.takeFlag t argument) rest

end Given

def readTranslate (args : List String) : Reading Request := do
  let g ← ({} : Given).take .translate args
  match g.get? .out with
  | none => .error .mistake
  | some out =>
    if g.documents.isEmpty then .error .mistake
    else .ok (.translate ⟨g.documents, (g.get? .target).getD "typescript", out, g.get? .config⟩)

def readTargets (args : List String) : Reading Request := do
  let g ← ({} : Given).take .targets args
  if g.documents.isEmpty then .ok .targets else .error .mistake

def readHelp : List String → Reading Request
  | [] => .ok (.help .program)
  | ["translate"] => .ok (.help .translate)
  | ["targets"] => .ok (.help .targets)
  | ["help"] => .ok (.help .help)
  | _ => .error .mistake

/-- Take the flags of the program up to the command, and then the command. -/
def readFrom (g : Given) : List String → Reading Request
  | [] => .error .mistake
  | "translate" :: rest => readTranslate rest
  | "targets" :: rest => readTargets rest
  | "help" :: rest => readHelp rest
  | text :: rest => do readFrom (← g.takeFlag .program (.ofText text)) rest

/-- What a command line asks for; none if there is a mistake in it. -/
def read (args : List String) : Option Request :=
  match readFrom {} args with
  | .ok r => some r
  | .error (.request r) => some r
  | .error .mistake => none

end Recast.Command
