import Recast.Json.Reader
import Recast.Source.Oracle
import Recast.Source.Member

/-! # Documents

One source file: its name, its members and its oracle.
-/
namespace Recast

structure Document where
  /-- A path or a logical name, for messages only. -/
  name : String
  members : List Member := []
  oracle : Oracle := {}

namespace Document

def toJson (d : Document) : Json :=
  .object [("name", .string d.name), ("members", .array (Member.toJsons d.members)),
    ("annotations", d.oracle.toJson)]

def ofJson? (j : Json) : Option Document := do
  let r ← Json.Record.ofJson? ["name", "members", "annotations"] j
  return ⟨← r.required "name" .string, ← r.list "members" Member.ofJson?,
    ← r.orElse "annotations" Oracle.ofJson? {}⟩

/-- The parts of a document's text that are wanted. -/
def outline : Json.Outline :=
  .record [("name", .whole), ("members", .whole), ("annotations", Oracle.outline)]

/-- The document that a JSON text is. -/
def ofText? (text : String) : Option Document := (Json.read outline text).bind ofJson?

end Document

end Recast
