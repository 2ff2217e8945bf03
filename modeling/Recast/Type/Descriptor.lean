import Recast.Source.Type

/-! # Type descriptors

A descriptor classifies a type: its kind says what it is, its name how it is called. The kind alone
decides how containers and callbacks are treated. A callback has its parameter types as arguments
and its result type, unless it returns nothing, as its generic argument.
-/
namespace Recast

namespace TypeDesc

inductive Kind where
  | unknown | enum | null | void | boolean | char | string | object | array | list | dictionary
  | tuple | callback | single | double | decimal | int8 | uint8 | int16 | uint16 | int32 | uint32
  | int64 | uint64
  deriving DecidableEq, Repr, Inhabited

namespace Kind

instance : Worded Kind where
  all := [.unknown, .enum, .null, .void, .boolean, .char, .string, .object, .array, .list,
    .dictionary, .tuple, .callback, .single, .double, .decimal, .int8, .uint8, .int16, .uint16,
    .int32, .uint32, .int64, .uint64]
  word
    | .unknown => "Unknown"
    | .enum => "Enum"
    | .null => "Null"
    | .void => "Void"
    | .boolean => "Boolean"
    | .char => "Char"
    | .string => "String"
    | .object => "Object"
    | .array => "Array"
    | .list => "List"
    | .dictionary => "Dictionary"
    | .tuple => "Tuple"
    | .callback => "Callback"
    | .single => "Single"
    | .double => "Double"
    | .decimal => "Decimal"
    | .int8 => "Int8"
    | .uint8 => "UInt8"
    | .int16 => "Int16"
    | .uint16 => "UInt16"
    | .int32 => "Int32"
    | .uint32 => "UInt32"
    | .int64 => "Int64"
    | .uint64 => "UInt64"

def isNumeric : Kind → Bool
  | .single | .double | .decimal | .int8 | .uint8 | .int16 | .uint16 | .int32 | .uint32 | .int64
  | .uint64 => true
  | _ => false

def isContainer : Kind → Bool
  | .array | .list | .dictionary | .tuple => true
  | _ => false

/-- Keyword and framework names of the primitive types. -/
def primitiveNames : List (String × Kind) :=
  [("bool", .boolean), ("Boolean", .boolean), ("byte", .uint8), ("Byte", .uint8),
    ("sbyte", .int8), ("SByte", .int8), ("short", .int16), ("Int16", .int16),
    ("ushort", .uint16), ("UInt16", .uint16), ("int", .int32), ("Int32", .int32),
    ("uint", .uint32), ("UInt32", .uint32), ("long", .int64), ("Int64", .int64),
    ("ulong", .uint64), ("UInt64", .uint64), ("float", .single), ("Single", .single),
    ("double", .double), ("Double", .double), ("decimal", .decimal), ("Decimal", .decimal),
    ("char", .char), ("Char", .char), ("string", .string), ("String", .string),
    ("object", .object), ("Object", .object), ("dynamic", .object), ("void", .void),
    ("Void", .void)]

def ofPrimitiveName? (name : String) : Option Kind := primitiveNames.lookup name

end Kind

end TypeDesc

structure TypeDesc where
  kind : TypeDesc.Kind
  name : String
  args : List TypeDesc := []
  genericArgs : List TypeDesc := []
  nullable : Bool := false
  deriving Inhabited

namespace TypeDesc

mutual

def decEq : (a b : TypeDesc) → Decidable (a = b)
  | ⟨k, n, as, gs, q⟩, ⟨k', n', as', gs', q'⟩ =>
    match decEqs as as', decEqs gs gs' with
    | isTrue ha, isTrue hg =>
      if h : k = k' ∧ n = n' ∧ q = q' then
        isTrue (by obtain ⟨rfl, rfl, rfl⟩ := h; subst ha; subst hg; rfl)
      else isFalse (by intro e; injection e with h1 h2 h3 h4 h5; exact h ⟨h1, h2, h5⟩)
    | isFalse ha, _ => isFalse (by intro e; injection e with h1 h2 h3; exact ha h3)
    | _, isFalse hg => isFalse (by intro e; injection e with h1 h2 h3 h4; exact hg h4)

def decEqs : (as bs : List TypeDesc) → Decidable (as = bs)
  | [], [] => isTrue rfl
  | [], _ :: _ => isFalse (by intro e; cases e)
  | _ :: _, [] => isFalse (by intro e; cases e)
  | a :: as, b :: bs =>
    match decEq a b, decEqs as bs with
    | isTrue h, isTrue hs => isTrue (by rw [h, hs])
    | isFalse h, _ => isFalse (by intro e; injection e with h1 h2; exact h h1)
    | _, isFalse hs => isFalse (by intro e; injection e with h1 h2; exact hs h2)

end

instance : DecidableEq TypeDesc := decEq

def void : TypeDesc := { kind := .void, name := "void" }

def object (name : String) : TypeDesc := { kind := .object, name }

def isVoid (d : TypeDesc) : Bool := d.kind == .void

def listNames : List String :=
  ["List", "IList", "IReadOnlyList", "ICollection", "IReadOnlyCollection", "IEnumerable"]

def dictionaryNames : List String :=
  ["Dictionary", "IDictionary", "IReadOnlyDictionary", "SortedDictionary"]

/-- The descriptor of a name applied to arguments. -/
def ofName (name : String) (generics : List TypeDesc) : TypeDesc :=
  match generics, Kind.ofPrimitiveName? name with
  | [], some kind => { kind, name }
  | generics, _ =>
    match name, generics with
    | "Nullable", [inner] => { inner with nullable := true }
    | "Func", g :: gs =>
      { kind := .callback, name, args := (g :: gs).dropLast,
        genericArgs := [(g :: gs).getLast (List.cons_ne_nil g gs)] }
    | "Action", _ => { kind := .callback, name, args := generics }
    | "Predicate", _ =>
      { kind := .callback, name, args := generics,
        genericArgs := [{ kind := .boolean, name := "bool" }] }
    | "Tuple", _ => { kind := .tuple, name, genericArgs := generics }
    | "ValueTuple", _ => { kind := .tuple, name, genericArgs := generics }
    | _, _ =>
      if listNames.contains name && generics.length == 1 then
        { kind := .list, name, genericArgs := generics }
      else if dictionaryNames.contains name && generics.length == 2 then
        { kind := .dictionary, name, genericArgs := generics }
      else { kind := .object, name, genericArgs := generics }

/-- Arrays of arrays, `n` levels of them. -/
def arrays (n : Nat) (element : TypeDesc) : TypeDesc :=
  match n with
  | 0 => element
  | n + 1 => { kind := .array, name := "Array", genericArgs := [arrays n element] }

mutual

/-- The descriptor of a written type. An array of rank `n` counts as `n` nested arrays. -/
def ofType : SourceType → TypeDesc
  | .predefined name => { kind := (Kind.ofPrimitiveName? name).getD .object, name }
  | .named name args => ofName name (ofTypes args)
  | .qualified _ name args => ofName name (ofTypes args)
  | .array element rank => arrays (max rank.toNat 1) (ofType element)
  | .nullable inner => { ofType inner with nullable := true }
  | .tuple elements => { kind := .tuple, name := "Tuple", genericArgs := ofTypes elements }
  | .function params returns =>
    { kind := .callback, name := "Callback", args := ofTypes params,
      genericArgs := match returns with
        | some ty => [ofType ty].filter (fun d => !d.isVoid)
        | none => [] }

def ofTypes : List SourceType → List TypeDesc
  | [] => []
  | ty :: tys => ofType ty :: ofTypes tys

end

/-- The value a variable of the type starts with when none is given. -/
def defaultValue? (d : TypeDesc) : Option String :=
  if d.nullable then none
  else if d.kind.isNumeric then some "0"
  else if d.kind == .boolean then some "false"
  else none

/-- The type of what an index selects. -/
def element? (d : TypeDesc) : Option TypeDesc :=
  match d.kind with
  | .array | .list => d.genericArgs.head?
  | .dictionary => d.genericArgs[1]?
  | .string => some { kind := .char, name := "char" }
  | _ => none

mutual

/-- The name of a descriptor with its generic arguments. -/
def display : TypeDesc → String
  | ⟨_, name, _, generics, nullable⟩ =>
    SourceType.applied name (displays generics) ++ (if nullable then "?" else "")

def displays : List TypeDesc → List String
  | [] => []
  | d :: ds => display d :: displays ds

end

mutual

/-- The names in a descriptor, its own first. -/
def names : TypeDesc → List String
  | ⟨_, name, args, generics, _⟩ => name :: (namesOf args ++ namesOf generics)

def namesOf : List TypeDesc → List String
  | [] => []
  | d :: ds => names d ++ namesOf ds

end

mutual

def toJson : TypeDesc → Json
  | ⟨kind, name, args, generics, nullable⟩ =>
    .object ([("kind", .ofWord kind), ("name", .string name)] ++
      (if args.isEmpty then [] else [("args", .array (toJsons args))]) ++
      (if generics.isEmpty then [] else [("generic_args", .array (toJsons generics))]) ++
      (if nullable then [("nullable", .bool true)] else []))

def toJsons : List TypeDesc → List Json
  | [] => []
  | d :: ds => toJson d :: toJsons ds

end

end TypeDesc

end Recast
