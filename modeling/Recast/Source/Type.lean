import Recast.Json.Decode

/-! # Written types

Types as they are written in declarations, and as the oracle reports them for expressions.
-/
namespace Recast

inductive SourceType where
  /-- A keyword type such as `int` or `void`. -/
  | predefined (name : String)
  | named (name : String) (args : List SourceType)
  /-- A dotted name: `System.Collections.Generic.List<int>`. -/
  | qualified (qualifier name : String) (args : List SourceType)
  | array (element : SourceType) (rank : UInt32)
  | nullable (inner : SourceType)
  | tuple (elements : List SourceType)
  /-- A callback type; without a result it returns nothing. -/
  | function (params : List SourceType) (returns : Option SourceType)
  deriving Inhabited

namespace SourceType

/-- The name without qualifier and arguments; arrays, tuples and callbacks have none. -/
def simpleName? : SourceType → Option String
  | .predefined name => some name
  | .named name _ => some name
  | .qualified _ name _ => some name
  | .nullable inner => inner.simpleName?
  | _ => none

/-- The placeholder `var` in place of a type. -/
def isImplicit : SourceType → Bool
  | .named name args => name == "var" && args.isEmpty
  | _ => false

/-- A type that is written out, as opposed to absent or implicit. -/
def explicit? (ty : Option SourceType) : Option SourceType := ty.filter (fun t => !t.isImplicit)

def applied (name : String) (args : List String) : String :=
  if args.isEmpty then name else name ++ "<" ++ String.intercalate ", " args ++ ">"

mutual

/-- The spelling of a type in the source language. -/
def display : SourceType → String
  | .predefined name => name
  | .named name args => applied name (displays args)
  | .qualified qualifier name args => qualifier ++ "." ++ applied name (displays args)
  | .array element rank =>
    display element ++ "[" ++ String.ofList (List.replicate (rank.toNat - 1) ',') ++ "]"
  | .nullable inner => display inner ++ "?"
  | .tuple elements => "(" ++ String.intercalate ", " (displays elements) ++ ")"
  | .function params returns =>
    let result := match returns with
      | some ty => display ty
      | none => "void"
    "(" ++ String.intercalate ", " (displays params) ++ ") => " ++ result

def displays : List SourceType → List String
  | [] => []
  | ty :: tys => display ty :: displays tys

end

mutual

def toJson : SourceType → Json
  | .predefined name => .tagged "predefined" [("name", .string name)]
  | .named name args => .tagged "named" [("name", .string name), ("args", .array (toJsons args))]
  | .qualified qualifier name args =>
    .tagged "qualified" [("qualifier", .string qualifier), ("name", .string name),
      ("args", .array (toJsons args))]
  | .array element rank =>
    .tagged "array" [("element", toJson element), ("rank", .natural rank.toNat)]
  | .nullable inner => .tagged "nullable" [("inner", toJson inner)]
  | .tuple elements => .tagged "tuple" [("elements", .array (toJsons elements))]
  | .function params returns =>
    .tagged "function" [("params", .array (toJsons params)),
      ("returns", match returns with
        | some ty => toJson ty
        | none => .null)]

def toJsons : List SourceType → List Json
  | [] => []
  | ty :: tys => toJson ty :: toJsons tys

end

/-- Decode a type nested at most `n` deep. -/
def decode : Nat → Json.Decoder SourceType
  | 0, _ => none
  | n + 1, j => do
    let (kind, body) ← j.untag
    match kind with
    | "predefined" =>
      let r ← Json.Record.ofJson? ["name"] body
      return .predefined (← r.required "name" .string)
    | "named" =>
      let r ← Json.Record.ofJson? ["name", "args"] body
      return .named (← r.required "name" .string) (← r.list "args" (decode n))
    | "qualified" =>
      let r ← Json.Record.ofJson? ["qualifier", "name", "args"] body
      return .qualified (← r.required "qualifier" .string) (← r.required "name" .string)
        (← r.list "args" (decode n))
    | "array" =>
      let r ← Json.Record.ofJson? ["element", "rank"] body
      return .array (← r.required "element" (decode n)) (← r.orElse "rank" .uint32 1)
    | "nullable" =>
      let r ← Json.Record.ofJson? ["inner"] body
      return .nullable (← r.required "inner" (decode n))
    | "tuple" =>
      let r ← Json.Record.ofJson? ["elements"] body
      return .tuple (← r.required "elements" (.list (decode n)))
    | "function" =>
      let r ← Json.Record.ofJson? ["params", "returns"] body
      return .function (← r.list "params" (decode n)) (← r.optional "returns" (decode n))
    | _ => none

def ofJson? (j : Json) : Option SourceType := decode j.depth j

end SourceType

end Recast
