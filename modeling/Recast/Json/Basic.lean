/-! # JSON values

Objects keep their members in the written order, repeated keys included; what a repeated key means
is for the reader of the value to say. A number is a natural number below `2 ^ 64` when it is
written as one, and otherwise stays the text it was written as.
-/
namespace Recast

inductive Json where
  | null
  | bool (b : Bool)
  | natural (n : Nat)
  | decimal (text : String)
  | string (s : String)
  | array (items : List Json)
  | object (fields : List (String × Json))
  deriving Inhabited

namespace Json

mutual

/-- How deep arrays and objects are nested; a plain value has depth zero. -/
def depth : Json → Nat
  | .array items => itemsDepth items + 1
  | .object fields => fieldsDepth fields + 1
  | _ => 0

def itemsDepth : List Json → Nat
  | [] => 0
  | j :: js => max (depth j) (itemsDepth js)

def fieldsDepth : List (String × Json) → Nat
  | [] => 0
  | (_, j) :: fs => max (depth j) (fieldsDepth fs)

end

/-- The first member of an object with the given key. -/
def get? (key : String) : Json → Option Json
  | .object fields => fields.lookup key
  | _ => none

def ofOption {α : Type} (f : α → Json) : Option α → Json
  | some a => f a
  | none => .null

def strings (xs : List String) : Json := .array (xs.map .string)

end Json

end Recast
