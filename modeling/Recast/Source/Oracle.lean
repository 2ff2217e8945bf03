import Recast.Sorted
import Recast.Json.Reader
import Recast.Source.TreeDecode

/-! # The oracle of a document

What the names and expressions of one document mean, precomputed: the type of a node and the symbol
a name stands for. The answers are trusted. The node id zero never has an answer.
-/
namespace Recast

open Json (Decoder Record)

/-- What a name resolves to. -/
structure Symbol where
  kind : SymbolKind
  name : String
  /-- The declaring type of a member. -/
  containingType : Option String := none
  isStatic : Bool := false
  /-- Parameter count of the chosen method or constructor. -/
  parameterCount : Option UInt64 := none
  deriving DecidableEq, Repr

namespace Symbol

def toJson (s : Symbol) : Json :=
  .object [("kind", .ofWord s.kind), ("name", .string s.name),
    ("containing_type", .ofString? s.containingType), ("is_static", .bool s.isStatic),
    ("parameter_count", .ofOption (fun n => .natural n.toNat) s.parameterCount)]

def memberNames : List String :=
  ["kind", "name", "containing_type", "is_static", "parameter_count"]

def ofJson? (j : Json) : Option Symbol := do
  let r ← Record.ofJson? memberNames j
  return {
    kind := ← r.required "kind" .word
    name := ← r.required "name" .string
    containingType := ← r.optional "containing_type" .string
    isStatic := ← r.orElse "is_static" .bool false
    parameterCount := ← r.optional "parameter_count" .uint64 }

end Symbol

/-- Types and symbols by node id. -/
structure Oracle where
  types : SortedMap NodeId SourceType := .empty
  symbols : SortedMap NodeId Symbol := .empty

namespace Oracle

instance : Inhabited Oracle := ⟨{}⟩

def isEmpty (o : Oracle) : Bool := o.types.isEmpty && o.symbols.isEmpty

def typeOf? (o : Oracle) (id : NodeId) : Option SourceType :=
  if id == 0 then none else o.types.get? id

def symbolOf? (o : Oracle) (id : NodeId) : Option Symbol :=
  if id == 0 then none else o.symbols.get? id

/-- A node id written in decimal without leading zeros. -/
def idOfKey? (key : String) : Option NodeId :=
  let ds := key.toList
  let n := ds.foldl (fun n c => n * 10 + (c.toNat - '0'.toNat)) 0
  if ds.isEmpty || !ds.all (fun c => '0' ≤ c && c ≤ '9') then none
  else if ds.head? == some '0' && ds.length != 1 then none
  else if n < UInt32.size then some (UInt32.ofNat n)
  else none

def keyOfId (id : NodeId) : String := toString id.toNat

def tableToJson {α : Type} (item : α → Json) (table : SortedMap NodeId α) : Json :=
  .object (table.toList.map fun (id, a) => (keyOfId id, item a))

/-- A table by node id; of a repeated id the last entry counts. -/
def tableOfJson? {α : Type} (item : Decoder α) (j : Json) : Option (SortedMap NodeId α) :=
  (Decoder.entries idOfKey? item j).map SortedMap.ofList

def toJson (o : Oracle) : Json :=
  .object [("types", tableToJson SourceType.toJson o.types),
    ("symbols", tableToJson Symbol.toJson o.symbols)]

def ofJson? (j : Json) : Option Oracle := do
  let r ← Record.ofJson? ["types", "symbols"] j
  return ⟨← r.orElse "types" (tableOfJson? SourceType.ofJson?) .empty,
    ← r.orElse "symbols" (tableOfJson? Symbol.ofJson?) .empty⟩

/-- The parts of an oracle's text that are wanted. -/
def outline : Json.Outline :=
  .record [("types", .table .whole),
    ("symbols", .table (.record (Symbol.memberNames.map (·, .whole))))]

end Oracle

end Recast
