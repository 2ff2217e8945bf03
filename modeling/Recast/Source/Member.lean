import Recast.Source.TreeDecode

/-! # Declarations

Namespaces, types and their members as the documents carry them, with the regions of conditional
members still in place.
-/
namespace Recast

open Json (Decoder Record untag tagged ofWord)

structure BaseType where
  id : NodeId := 0
  ty : SourceType

structure ParameterDecl where
  name : String
  ty : SourceType
  modifiers : List String := []
  default : Option Expr := none

/-- A `get` or `set` accessor; without a body it is an automatic one. -/
structure AccessorDecl where
  kind : AccessorKind
  modifiers : List String := []
  body : Option Body := none

/-- A chained constructor call. -/
structure ConstructorChain where
  target : ChainTarget
  args : List Argument := []

structure DelegateDecl where
  name : String
  modifiers : List String := []
  genericParams : List String := []
  params : List ParameterDecl := []
  returns : SourceType

structure FieldDecl where
  modifiers : List String := []
  ty : SourceType
  declarators : List Declarator

structure PropertyDecl where
  modifiers : List String := []
  ty : SourceType
  name : String
  accessors : List AccessorDecl := []
  expressionBody : Option Expr := none
  initializer : Option Expr := none

structure EventDecl where
  modifiers : List String := []
  ty : SourceType
  names : List String

structure MethodDecl where
  name : String
  modifiers : List String := []
  returns : SourceType
  genericParams : List String := []
  params : List ParameterDecl := []
  body : Option Body := none

structure ConstructorDecl where
  name : String
  modifiers : List String := []
  params : List ParameterDecl := []
  chain : Option ConstructorChain := none
  body : Option Body := none

structure EnumMemberDecl where
  name : String
  /-- The raw text of the value, if one is given. -/
  value : Option String := none

/-- The head of a type declaration: all of it but its members. -/
structure TypeHead where
  keyword : TypeKeyword
  name : String
  modifiers : List String := []
  genericParams : List String := []
  bases : List BaseType := []

inductive Member where
  | namespaceDecl (name : String) (members : List Member)
  | typeDecl (head : TypeHead) (members : List Member)
  | delegate (decl : DelegateDecl)
  | field (decl : FieldDecl)
  | property (decl : PropertyDecl)
  | event (decl : EventDecl)
  | method (decl : MethodDecl)
  | constructor (decl : ConstructorDecl)
  | enumMember (decl : EnumMemberDecl)
  /-- Members that depend on a symbol, which may be negated with `!`. -/
  | region (symbol : String) (thenMembers otherwise : List Member)
  /-- A construct outside the supported subset. -/
  | other (construct : String)
  deriving Inhabited

namespace Member

/-- The name of the kind of a member; an unsupported construct has its own name. -/
def kindName : Member → String
  | .namespaceDecl .. => "namespace"
  | .typeDecl .. => "type"
  | .delegate _ => "delegate"
  | .field _ => "field"
  | .property _ => "property"
  | .event _ => "event"
  | .method _ => "method"
  | .constructor _ => "constructor"
  | .enumMember _ => "enum_member"
  | .region .. => "region"
  | .other construct => construct

end Member

namespace BaseType

def toJson (b : BaseType) : Json := .object [("id", b.id.toJson), ("ty", b.ty.toJson)]

def decode (n : Nat) : Decoder BaseType := fun j => do
  let r ← Record.ofJson? ["id", "ty"] j
  return ⟨← r.nodeId, ← r.required "ty" (SourceType.decode n)⟩

end BaseType

namespace ParameterDecl

def toJson (p : ParameterDecl) : Json :=
  .object [("name", .string p.name), ("ty", p.ty.toJson), ("modifiers", .strings p.modifiers),
    ("default", exprToJson? p.default)]

def decode (n : Nat) : Decoder ParameterDecl := fun j => do
  let r ← Record.ofJson? ["name", "ty", "modifiers", "default"] j
  return ⟨← r.required "name" .string, ← r.required "ty" (SourceType.decode n),
    ← r.list "modifiers" .string, ← r.optional "default" (Expr.decode n)⟩

end ParameterDecl

namespace AccessorDecl

def toJson (a : AccessorDecl) : Json :=
  .object [("kind", ofWord a.kind), ("modifiers", .strings a.modifiers),
    ("body", .ofOption Body.toJson a.body)]

def decode (n : Nat) : Decoder AccessorDecl := fun j => do
  let r ← Record.ofJson? ["kind", "modifiers", "body"] j
  return ⟨← r.required "kind" .word, ← r.list "modifiers" .string,
    ← r.optional "body" (Body.decode n)⟩

end AccessorDecl

namespace ConstructorChain

def toJson (c : ConstructorChain) : Json :=
  .object [("target", ofWord c.target), ("args", .array (argumentsToJson c.args))]

def decode (n : Nat) : Decoder ConstructorChain := fun j => do
  let r ← Record.ofJson? ["target", "args"] j
  return ⟨← r.required "target" .word, ← r.list "args" (Argument.decode n)⟩

end ConstructorChain

def DelegateDecl.toJson (d : DelegateDecl) : Json :=
  tagged "delegate" [("name", .string d.name), ("modifiers", .strings d.modifiers),
    ("generic_params", .strings d.genericParams),
    ("params", .array (d.params.map ParameterDecl.toJson)), ("returns", d.returns.toJson)]

def FieldDecl.toJson (d : FieldDecl) : Json :=
  tagged "field" [("modifiers", .strings d.modifiers), ("ty", d.ty.toJson),
    ("declarators", .array (declaratorsToJson d.declarators))]

def PropertyDecl.toJson (d : PropertyDecl) : Json :=
  tagged "property" [("modifiers", .strings d.modifiers), ("ty", d.ty.toJson),
    ("name", .string d.name), ("accessors", .array (d.accessors.map AccessorDecl.toJson)),
    ("expression_body", exprToJson? d.expressionBody), ("initializer", exprToJson? d.initializer)]

def EventDecl.toJson (d : EventDecl) : Json :=
  tagged "event" [("modifiers", .strings d.modifiers), ("ty", d.ty.toJson),
    ("names", .strings d.names)]

def MethodDecl.toJson (d : MethodDecl) : Json :=
  tagged "method" [("name", .string d.name), ("modifiers", .strings d.modifiers),
    ("returns", d.returns.toJson), ("generic_params", .strings d.genericParams),
    ("params", .array (d.params.map ParameterDecl.toJson)), ("body", .ofOption Body.toJson d.body)]

def ConstructorDecl.toJson (d : ConstructorDecl) : Json :=
  tagged "constructor" [("name", .string d.name), ("modifiers", .strings d.modifiers),
    ("params", .array (d.params.map ParameterDecl.toJson)),
    ("initializer", .ofOption ConstructorChain.toJson d.chain),
    ("body", .ofOption Body.toJson d.body)]

def EnumMemberDecl.toJson (d : EnumMemberDecl) : Json :=
  tagged "enum_member" [("name", .string d.name), ("value", .ofString? d.value)]

namespace Member

mutual

def toJson : Member → Json
  | .namespaceDecl name members =>
    tagged "namespace" [("name", .string name), ("members", .array (toJsons members))]
  | .typeDecl head members =>
    tagged "type" [("keyword", ofWord head.keyword), ("name", .string head.name),
      ("modifiers", .strings head.modifiers), ("generic_params", .strings head.genericParams),
      ("bases", .array (head.bases.map BaseType.toJson)), ("members", .array (toJsons members))]
  | .delegate d => d.toJson
  | .field d => d.toJson
  | .property d => d.toJson
  | .event d => d.toJson
  | .method d => d.toJson
  | .constructor d => d.toJson
  | .enumMember d => d.toJson
  | .region symbol thenMembers otherwise =>
    tagged "region" [("symbol", .string symbol), ("then", .array (toJsons thenMembers)),
      ("otherwise", .array (toJsons otherwise))]
  | .other construct => tagged "other" [("syntax", .string construct)]

def toJsons : List Member → List Json
  | [] => []
  | m :: ms => toJson m :: toJsons ms

end

/-- Decode a member nested at most `n` deep. -/
def decode : Nat → Decoder Member
  | 0, _ => none
  | n + 1, j => do
    let (kind, body) ← untag j
    match kind with
    | "namespace" =>
      let r ← Record.ofJson? ["name", "members"] body
      return .namespaceDecl (← r.required "name" .string) (← r.list "members" (decode n))
    | "type" =>
      let r ← Record.ofJson? ["keyword", "name", "modifiers", "generic_params", "bases", "members"]
        body
      return .typeDecl ⟨← r.required "keyword" .word, ← r.required "name" .string,
          ← r.list "modifiers" .string, ← r.list "generic_params" .string,
          ← r.list "bases" (BaseType.decode n)⟩
        (← r.list "members" (decode n))
    | "delegate" =>
      let r ← Record.ofJson? ["name", "modifiers", "generic_params", "params", "returns"] body
      return .delegate ⟨← r.required "name" .string, ← r.list "modifiers" .string,
        ← r.list "generic_params" .string, ← r.list "params" (ParameterDecl.decode n),
        ← r.required "returns" (SourceType.decode n)⟩
    | "field" =>
      let r ← Record.ofJson? ["modifiers", "ty", "declarators"] body
      return .field ⟨← r.list "modifiers" .string, ← r.required "ty" (SourceType.decode n),
        ← r.required "declarators" (.list (Declarator.decode n))⟩
    | "property" =>
      let r ← Record.ofJson?
        ["modifiers", "ty", "name", "accessors", "expression_body", "initializer"] body
      return .property ⟨← r.list "modifiers" .string, ← r.required "ty" (SourceType.decode n),
        ← r.required "name" .string, ← r.list "accessors" (AccessorDecl.decode n),
        ← r.optional "expression_body" (Expr.decode n),
        ← r.optional "initializer" (Expr.decode n)⟩
    | "event" =>
      let r ← Record.ofJson? ["modifiers", "ty", "names"] body
      return .event ⟨← r.list "modifiers" .string, ← r.required "ty" (SourceType.decode n),
        ← r.required "names" (.list .string)⟩
    | "method" =>
      let r ← Record.ofJson? ["name", "modifiers", "returns", "generic_params", "params", "body"]
        body
      return .method ⟨← r.required "name" .string, ← r.list "modifiers" .string,
        ← r.required "returns" (SourceType.decode n), ← r.list "generic_params" .string,
        ← r.list "params" (ParameterDecl.decode n), ← r.optional "body" (Body.decode n)⟩
    | "constructor" =>
      let r ← Record.ofJson? ["name", "modifiers", "params", "initializer", "body"] body
      return .constructor ⟨← r.required "name" .string, ← r.list "modifiers" .string,
        ← r.list "params" (ParameterDecl.decode n),
        ← r.optional "initializer" (ConstructorChain.decode n),
        ← r.optional "body" (Body.decode n)⟩
    | "enum_member" =>
      let r ← Record.ofJson? ["name", "value"] body
      return .enumMember ⟨← r.required "name" .string, ← r.optional "value" .string⟩
    | "region" =>
      let r ← Record.ofJson? ["symbol", "then", "otherwise"] body
      return .region (← r.required "symbol" .string) (← r.list "then" (decode n))
        (← r.list "otherwise" (decode n))
    | "other" =>
      let r ← Record.ofJson? ["syntax"] body
      return .other (← r.required "syntax" .string)
    | _ => none

def ofJson? (j : Json) : Option Member := decode j.depth j

end Member

end Recast
