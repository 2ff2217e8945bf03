import Recast.Json.Decode

/-! # Operators and other closed word classes of the source language

Each class is a finite type with the words it is written as in documents; operators also have the
token they are written as in programs.
-/
namespace Recast

inductive LiteralKind where
  | numeric | string | char | boolTrue | boolFalse | null | default
  deriving DecidableEq, Repr

instance : Worded LiteralKind where
  all := [.numeric, .string, .char, .boolTrue, .boolFalse, .null, .default]
  word
    | .numeric => "numeric"
    | .string => "string"
    | .char => "char"
    | .boolTrue => "true"
    | .boolFalse => "false"
    | .null => "null"
    | .default => "default"

inductive BinaryOp where
  | add | sub | mul | div | rem | eq | ne | lt | le | gt | ge | and | or
  | bitAnd | bitOr | bitXor | shl | shr | coalesce | isType | asType
  deriving DecidableEq, Repr

instance : Worded BinaryOp where
  all := [.add, .sub, .mul, .div, .rem, .eq, .ne, .lt, .le, .gt, .ge, .and, .or,
    .bitAnd, .bitOr, .bitXor, .shl, .shr, .coalesce, .isType, .asType]
  word
    | .add => "add"
    | .sub => "sub"
    | .mul => "mul"
    | .div => "div"
    | .rem => "rem"
    | .eq => "eq"
    | .ne => "ne"
    | .lt => "lt"
    | .le => "le"
    | .gt => "gt"
    | .ge => "ge"
    | .and => "and"
    | .or => "or"
    | .bitAnd => "bit_and"
    | .bitOr => "bit_or"
    | .bitXor => "bit_xor"
    | .shl => "shl"
    | .shr => "shr"
    | .coalesce => "coalesce"
    | .isType => "is"
    | .asType => "as"

def BinaryOp.token : BinaryOp → String
  | .add => "+"
  | .sub => "-"
  | .mul => "*"
  | .div => "/"
  | .rem => "%"
  | .eq => "=="
  | .ne => "!="
  | .lt => "<"
  | .le => "<="
  | .gt => ">"
  | .ge => ">="
  | .and => "&&"
  | .or => "||"
  | .bitAnd => "&"
  | .bitOr => "|"
  | .bitXor => "^"
  | .shl => "<<"
  | .shr => ">>"
  | .coalesce => "??"
  | .isType => "is"
  | .asType => "as"

inductive UnaryOp where
  | plus | minus | not | bitNot | increment | decrement
  deriving DecidableEq, Repr

instance : Worded UnaryOp where
  all := [.plus, .minus, .not, .bitNot, .increment, .decrement]
  word
    | .plus => "plus"
    | .minus => "minus"
    | .not => "not"
    | .bitNot => "bit_not"
    | .increment => "increment"
    | .decrement => "decrement"

def UnaryOp.token : UnaryOp → String
  | .plus => "+"
  | .minus => "-"
  | .not => "!"
  | .bitNot => "~"
  | .increment => "++"
  | .decrement => "--"

/-- The operator writes its operand. -/
def UnaryOp.mutates : UnaryOp → Bool
  | .increment | .decrement => true
  | _ => false

inductive AssignOp where
  | assign | add | sub | mul | div | rem | bitAnd | bitOr | bitXor | shl | shr | coalesce
  deriving DecidableEq, Repr

instance : Worded AssignOp where
  all := [.assign, .add, .sub, .mul, .div, .rem, .bitAnd, .bitOr, .bitXor, .shl, .shr, .coalesce]
  word
    | .assign => "assign"
    | .add => "add"
    | .sub => "sub"
    | .mul => "mul"
    | .div => "div"
    | .rem => "rem"
    | .bitAnd => "bit_and"
    | .bitOr => "bit_or"
    | .bitXor => "bit_xor"
    | .shl => "shl"
    | .shr => "shr"
    | .coalesce => "coalesce"

def AssignOp.token : AssignOp → String
  | .assign => "="
  | .add => "+="
  | .sub => "-="
  | .mul => "*="
  | .div => "/="
  | .rem => "%="
  | .bitAnd => "&="
  | .bitOr => "|="
  | .bitXor => "^="
  | .shl => "<<="
  | .shr => ">>="
  | .coalesce => "??="

/-- How an argument is passed. -/
inductive Passing where
  | value | byIn | byOut | byRef
  deriving DecidableEq, Repr

instance : Worded Passing where
  all := [.value, .byIn, .byOut, .byRef]
  word
    | .value => "none"
    | .byIn => "in"
    | .byOut => "out"
    | .byRef => "ref"

inductive InitializerShape where
  | object | collection | array | complex
  deriving DecidableEq, Repr

instance : Worded InitializerShape where
  all := [.object, .collection, .array, .complex]
  word
    | .object => "object"
    | .collection => "collection"
    | .array => "array"
    | .complex => "complex"

inductive TypeKeyword where
  | classKind | structKind | interfaceKind | enumKind
  deriving DecidableEq, Repr

instance : Worded TypeKeyword where
  all := [.classKind, .structKind, .interfaceKind, .enumKind]
  word
    | .classKind => "class"
    | .structKind => "struct"
    | .interfaceKind => "interface"
    | .enumKind => "enum"

inductive AccessorKind where
  | get | set | init
  deriving DecidableEq, Repr

instance : Worded AccessorKind where
  all := [.get, .set, .init]
  word
    | .get => "get"
    | .set => "set"
    | .init => "init"

/-- The constructor that a chained constructor call goes to. -/
inductive ChainTarget where
  | base | this
  deriving DecidableEq, Repr

instance : Worded ChainTarget where
  all := [.base, .this]
  word
    | .base => "base"
    | .this => "this"

inductive SymbolKind where
  | localVar | parameter | field | property | event | method | constructor | type | namespaceName
  deriving DecidableEq, Repr

instance : Worded SymbolKind where
  all := [.localVar, .parameter, .field, .property, .event, .method, .constructor, .type,
    .namespaceName]
  word
    | .localVar => "local"
    | .parameter => "parameter"
    | .field => "field"
    | .property => "property"
    | .event => "event"
    | .method => "method"
    | .constructor => "constructor"
    | .type => "type"
    | .namespaceName => "namespace"

/-- The symbol belongs to a type. -/
def SymbolKind.isMember : SymbolKind → Bool
  | .field | .property | .event | .method | .constructor => true
  | _ => false

end Recast
