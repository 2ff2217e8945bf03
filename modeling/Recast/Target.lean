import Recast.TypeScript.Page

/-! # Targets

What a program can be written in: the tables and the dialect that lowering uses, and the layout of
a page.
-/
namespace Recast

structure Target where
  language : String
  /-- The extension of the files, without the dot. -/
  extension : String
  primitives : TypeTable := .empty
  /-- Symbols that are defined when documents are read for the target. -/
  symbols : List String := []
  known : KnownClasses := {}
  dialect : Dialect
  page : Lowering → ClassId → Class → Except LowerError Page

namespace Target

def typescript : Target where
  language := "typescript"
  extension := "ts"
  primitives := .ofList
    [("sbyte", "number"), ("byte", "number"), ("short", "number"), ("ushort", "number"),
      ("int", "number"), ("uint", "number"), ("long", "number"), ("ulong", "number"),
      ("float", "number"), ("double", "number"), ("decimal", "number"), ("bool", "boolean"),
      ("char", "string"), ("string", "string"), ("String", "string"), ("object", "any"),
      ("Object", "any"), ("dynamic", "any"), ("void", "void")]
  symbols := ["TYPESCRIPT"]
  known := .ofList
    [{ name := "Exception", target := "Error" }, { name := "DateTime", target := "Date" },
      { name := "Math", target := "Math" }, { name := "Task", target := "Promise", arity := 1 }]
  dialect := TypeScript.dialect
  page := TypeScript.page

/-- Add a target; it takes the place of one for the same language. -/
def register : List Target → Target → List Target
  | [], t => [t]
  | s :: ss, t => if s.language == t.language then t :: ss else s :: register ss t

/-- The targets there are from the start. -/
def all : List Target := [typescript]

def find? (targets : List Target) (language : String) : Option Target :=
  targets.find? fun t => t.language == language

end Target

end Recast
