import Recast.Rules
import Recast.Type.Descriptor

/-! # Spelling types for a target

A target has a table of primitive names, a list of classes that its libraries provide, and forms
for composite types. Together they give every descriptor a spelling, and the imports that the
library classes in it need.
-/
namespace Recast

open Json (Decoder Record)

abbrev TypeTable := SortedMap String String

structure KnownClass where
  name : String
  target : String
  /-- The import that using the class needs. -/
  importLine : Option String := none
  /-- How many generic arguments the entry is for; zero stands for any number. -/
  arity : Nat := 0
  deriving DecidableEq, Repr

namespace KnownClass

def toJson (k : KnownClass) : Json :=
  .object [("name", .string k.name), ("target", .string k.target),
    ("import", .ofOption .string k.importLine), ("arity", .natural k.arity)]

def ofJson? (j : Json) : Option KnownClass := do
  let r ← Record.ofJson? ["name", "target", "import", "arity"] j
  return ⟨← r.required "name" .string, ← r.required "target" .string,
    ← r.optional "import" .string, ← r.orElse "arity" .natural 0⟩

end KnownClass

/-- Known classes, at most one for each name and arity. -/
structure KnownClasses where
  entries : List KnownClass := []

namespace KnownClasses

instance : Inhabited KnownClasses := ⟨{}⟩

def size (k : KnownClasses) : Nat := k.entries.length

/-- Add a class; it takes the place of one with the same name and arity. -/
def register (k : KnownClasses) (c : KnownClass) : KnownClasses :=
  ⟨k.entries.filter (fun d => !(d.name == c.name && d.arity == c.arity)) ++ [c]⟩

def registerAll (k : KnownClasses) (cs : List KnownClass) : KnownClasses := cs.foldl register k

def ofList (cs : List KnownClass) : KnownClasses := registerAll {} cs

/-- The entry for exactly this arity, or else the entry for any. -/
def get? (k : KnownClasses) (name : String) (arity : Nat) : Option KnownClass :=
  (k.entries.find? fun c => c.name == name && c.arity == arity && 0 < arity) <|>
    k.entries.find? fun c => c.name == name && c.arity == 0

end KnownClasses

abbrev ImportSet := SortedSet String

/-- How a target writes composite types. -/
structure TypeForms where
  array : String → String
  list : String → String
  dictionary : String → String → String
  tuple : List String → String
  callback : List String → Option String → String
  generic : String → List String → String
  nullable : String → String
  /-- A type nothing is known about. -/
  unknown : String

/-- The text of a type with the imports it needs, in the order they come up. -/
structure Spelling where
  text : String
  imports : List String := []
  deriving DecidableEq, Repr

structure TypeTables where
  primitives : TypeTable
  known : KnownClasses
  forms : TypeForms

namespace TypeTables

def texts (spellings : List Spelling) : List String := spellings.map Spelling.text

def importsOf (spellings : List Spelling) : List String := spellings.flatMap Spelling.imports

/-- An argument of a container that may be missing. -/
def argument (t : TypeTables) (args : List Spelling) (i : Nat) : Spelling :=
  args[i]?.getD ⟨t.forms.unknown, []⟩

/-- The spelling of a name that is neither a container nor a callback. -/
def spellName (t : TypeTables) (name : String) (args : List Spelling) : Spelling :=
  match (if args.isEmpty then t.primitives.get? name else none) with
  | some target => ⟨target, []⟩
  | none =>
    if name == "" then ⟨t.forms.unknown, []⟩
    else
      let known := t.known.get? name args.length
      let target := (known.map KnownClass.target).getD name
      { text := if args.isEmpty then target else t.forms.generic target (texts args)
        imports := importsOf args ++ (known.bind KnownClass.importLine).toList }

/-- The spelling of a node from the spellings of its arguments. Containers and callbacks go by
kind, all else by name. -/
def spellNode (t : TypeTables) (kind : TypeDesc.Kind) (name : String)
    (args generics : List Spelling) : Spelling :=
  match kind with
  | .array =>
    let element := t.argument generics 0
    ⟨t.forms.array element.text, element.imports⟩
  | .list =>
    let element := t.argument generics 0
    ⟨t.forms.list element.text, element.imports⟩
  | .dictionary =>
    let key := t.argument generics 0
    let value := t.argument generics 1
    ⟨t.forms.dictionary key.text value.text, key.imports ++ value.imports⟩
  | .tuple => ⟨t.forms.tuple (texts generics), importsOf generics⟩
  | .callback =>
    let returns := generics.head?
    { text := t.forms.callback (texts args) (returns.map Spelling.text)
      imports := importsOf args ++ importsOf returns.toList }
  | _ => t.spellName name generics

mutual

def spell (t : TypeTables) : TypeDesc → Spelling
  | ⟨kind, name, args, generics, nullable⟩ =>
    let bare := t.spellNode kind name (spells t args) (spells t generics)
    if nullable then { bare with text := t.forms.nullable bare.text } else bare

def spells (t : TypeTables) : List TypeDesc → List Spelling
  | [] => []
  | d :: ds => spell t d :: spells t ds

end

end TypeTables

end Recast
