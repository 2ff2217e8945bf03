import Recast.Json.Basic

/-! # Decoding JSON values

A decoder gives the value that a piece of JSON stands for, or none. Records are objects whose known
members occur at most once, or arrays of the members in their order; unknown members are ignored.
A tagged value is a record with one more member, `kind`, that names its form.
-/
namespace Recast

/-- A type of words: finitely many values, each written as a word of its own. -/
class Worded (α : Type) where
  all : List α
  word : α → String
  find_word : ∀ a, all.find? (fun b => word b == word a) = some a := by
    intro a; cases a <;> decide

namespace Worded

def ofWord? {α : Type} [Worded α] (s : String) : Option α :=
  (all : List α).find? (fun a => word a == s)

theorem ofWord?_word {α : Type} [Worded α] (a : α) : ofWord? (word a) = some a := find_word a

end Worded

namespace Json

abbrev Decoder (α : Type) := Json → Option α

namespace Decoder

def string : Decoder String
  | .string s => some s
  | _ => none

def bool : Decoder Bool
  | .bool b => some b
  | _ => none

/-- A natural number below `2 ^ 64`. -/
def natural : Decoder Nat
  | .natural n => some n
  | _ => none

def uint32 : Decoder UInt32
  | .natural n => if n < UInt32.size then some (UInt32.ofNat n) else none
  | _ => none

def uint64 : Decoder UInt64
  | .natural n => if n < UInt64.size then some (UInt64.ofNat n) else none
  | _ => none

def list {α : Type} (item : Decoder α) : Decoder (List α)
  | .array items => items.mapM item
  | _ => none

/-- `null` stands for nothing. -/
def optional {α : Type} (item : Decoder α) : Decoder (Option α)
  | .null => some none
  | j => (item j).map some

/-- A word, plain or as the only key of an object with the value `null`. -/
def word {α : Type} [Worded α] : Decoder α
  | .string s => Worded.ofWord? s
  | .object [(s, .null)] => Worded.ofWord? s
  | _ => none

/-- The entries of an object, keys included. -/
def entries {κ α : Type} (key : String → Option κ) (item : Decoder α) : Decoder (List (κ × α))
  | .object fields => fields.mapM fun (k, j) => do return (← key k, ← item j)
  | _ => none

end Decoder

structure Record where
  fields : List (String × Json)

namespace Record

/-- No key of `names` occurs twice. -/
def single (names : List String) (fields : List (String × Json)) : Bool :=
  names.all fun name => (fields.filter (fun f => f.1 == name)).length ≤ 1

def ofJson? (names : List String) : Json → Option Record
  | .object fields => if single names fields then some ⟨fields⟩ else none
  | .array items => if items.length ≤ names.length then some ⟨names.zip items⟩ else none
  | _ => none

def required {α : Type} (r : Record) (name : String) (item : Decoder α) : Option α :=
  (r.fields.lookup name).bind item

def orElse {α : Type} (r : Record) (name : String) (item : Decoder α) (absent : α) : Option α :=
  match r.fields.lookup name with
  | some j => item j
  | none => some absent

/-- A member that may be absent or `null`. -/
def optional {α : Type} (r : Record) (name : String) (item : Decoder α) : Option (Option α) :=
  r.orElse name (Decoder.optional item) none

/-- A list that is empty when absent. -/
def list {α : Type} (r : Record) (name : String) (item : Decoder α) : Option (List α) :=
  r.orElse name (Decoder.list item) []

end Record

/-- The `kind` of a tagged value and what is left of the value without it. -/
def untag : Json → Option (String × Json)
  | .object fields =>
    match fields.filter (fun f => f.1 == "kind") with
    | [(_, .string kind)] => some (kind, .object (fields.filter (fun f => f.1 != "kind")))
    | _ => none
  | .array (.string kind :: items) => some (kind, .array items)
  | _ => none

def tagged (kind : String) (fields : List (String × Json)) : Json :=
  .object (("kind", .string kind) :: fields)

def ofWord {α : Type} [Worded α] (a : α) : Json := .string (Worded.word a)

end Json

end Recast
