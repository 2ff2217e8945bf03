import Recast.Json.Basic

/-! # TOML: tables

A table may be opened by a header, by the header of a table inside it, or by a dotted key. It may be
opened by a header once, and a table with a header is not extended by dotted keys. The last table of
a list of tables is the one that later headers go into.
-/
namespace Recast.Toml

mutual

inductive Item where
  | value (json : Json)
  | table (table : Table)
  | tables (tables : List Table)

structure Table where
  entries : List (String × Item)
  /-- There is no header for it. -/
  implicit : Bool
  /-- A dotted key has made it. -/
  dotted : Bool

end

namespace Table

def root : Table := ⟨[], false, false⟩

/-- Change what stands under a key; a new key goes to the end. -/
def alterEntries (key : String) (f : Option Item → Option Item) :
    List (String × Item) → Option (List (String × Item))
  | [] => (f none).map fun item => [(key, item)]
  | (k, item) :: rest =>
    if k == key then (f (some item)).map fun item => (k, item) :: rest
    else (alterEntries key f rest).map fun rest => (k, item) :: rest

def alter (t : Table) (key : String) (f : Option Item → Option Item) : Option Table :=
  (alterEntries key f t.entries).map fun entries => { t with entries }

/-- Change the table at a path, opening the tables on the way. -/
def descend (dotted : Bool) (f : Table → Option Table) : List String → Table → Option Table
  | [], t => f t
  | k :: ks, t => t.alter k fun
    | none => (descend dotted f ks ⟨[], true, dotted⟩).map .table
    | some (.value _) => none
    | some (.tables ts) => do
      let last ← ts.getLast?
      let last ← descend dotted f ks last
      return .tables (ts.dropLast ++ [last])
    | some (.table u) =>
      if dotted && !u.implicit then none else (descend dotted f ks u).map .table

/-- Set a key that may be dotted. -/
def set (path : List String) (value : Json) (t : Table) : Option Table :=
  match path.getLast? with
  | none => none
  | some key =>
    let above := path.dropLast
    descend true (fun u =>
      if u.dotted == above.isEmpty then none
      else u.alter key fun
        | none => some (.value value)
        | some _ => none) above t

/-- Open a table by its header. -/
def openTable (path : List String) (t : Table) : Option Table :=
  match path.getLast? with
  | none => none
  | some key =>
    descend false (fun u => u.alter key fun
      | none => some (.table ⟨[], false, false⟩)
      | some (.table v) =>
        if v.implicit && !v.dotted then some (.table { v with implicit := false }) else none
      | some _ => none) path.dropLast t

/-- Append a table to the list of tables with the header. -/
def appendTable (path : List String) (t : Table) : Option Table :=
  match path.getLast? with
  | none => none
  | some key =>
    descend false (fun u => u.alter key fun
      | none => some (.tables [⟨[], false, false⟩])
      | some (.tables ts) => some (.tables (ts ++ [⟨[], false, false⟩]))
      | some _ => none) path.dropLast t

/-- Set a key in the table that the last header has opened. -/
def setUnder (header path : List String) (value : Json) (t : Table) : Option Table :=
  descend false (set path value) header t

end Table

mutual

def Item.toJson : Item → Json
  | .value json => json
  | .table t => t.toJson
  | .tables ts => .array (tablesToJson ts)

def Table.toJson : Table → Json
  | ⟨entries, _, _⟩ => .object (entriesToJson entries)

def tablesToJson : List Table → List Json
  | [] => []
  | t :: ts => t.toJson :: tablesToJson ts

def entriesToJson : List (String × Item) → List (String × Json)
  | [] => []
  | (key, item) :: rest => (key, item.toJson) :: entriesToJson rest

end

end Recast.Toml
