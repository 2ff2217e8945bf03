import Recast.Rules
import Recast.Source.Document
import Recast.Type.Mapping

/-! # Programs

A program is the list of all classes of all documents. Classes are known to each other by name
only, so a base that is declared later, left out or unknown never dangles. The position of a class
is its id.
-/
namespace Recast

/-- The form of a declaration. Classes take every form but the virtual one, members only the plain,
the abstract and the virtual one. -/
inductive Declaration where
  | plain | struct | interface | abstractDecl | enumDecl | delegate | virtualDecl
  deriving DecidableEq, Repr, Inhabited

namespace Declaration

instance : Worded Declaration where
  all := [.plain, .struct, .interface, .abstractDecl, .enumDecl, .delegate, .virtualDecl]
  word
    | .plain => "Class"
    | .struct => "Struct"
    | .interface => "Interface"
    | .abstractDecl => "Abstract"
    | .enumDecl => "Enum"
    | .delegate => "Delegate"
    | .virtualDecl => "Virtual"

/-- The place among the classes of a program: delegates first, then enumerations, interfaces,
abstract classes and the rest. -/
def rank : Declaration → Nat
  | .delegate => 0
  | .enumDecl => 1
  | .interface => 2
  | .abstractDecl => 3
  | _ => 4

end Declaration

/-- Visibility, from the widest to the narrowest. -/
inductive Access where
  | publicAccess | internalAccess | protectedAccess | privateAccess
  deriving DecidableEq, Repr, Inhabited

namespace Access

instance : Worded Access where
  all := [.publicAccess, .internalAccess, .protectedAccess, .privateAccess]
  word
    | .publicAccess => "Public"
    | .internalAccess => "Internal"
    | .protectedAccess => "Protected"
    | .privateAccess => "Private"

def rank : Access → Nat
  | .publicAccess => 0
  | .internalAccess => 1
  | .protectedAccess => 2
  | .privateAccess => 3

def wider (a b : Access) : Access := if a.rank ≤ b.rank then a else b

end Access

inductive ParameterFlag where
  | byIn | byOut | byRef | params | this
  deriving DecidableEq, Repr

namespace ParameterFlag

instance : Worded ParameterFlag where
  all := [.byIn, .byOut, .byRef, .params, .this]
  word
    | .byIn => "in"
    | .byOut => "out"
    | .byRef => "ref"
    | .params => "params"
    | .this => "this"

def label : ParameterFlag → String
  | .byIn => "IN"
  | .byOut => "OUT"
  | .byRef => "REF"
  | .params => "PARAMS"
  | .this => "THIS"

/-- The value of a flag when a set of flags is written as one number. -/
def bit : ParameterFlag → Nat
  | .byIn => 1
  | .byOut => 2
  | .byRef => 4
  | .params => 8
  | .this => 16

/-- The flags among some words, each once and in the fixed order; other words say nothing. -/
def ofWords (words : List String) : List ParameterFlag :=
  Worded.all.filter fun flag => words.contains (Worded.word flag)

def display (flags : List ParameterFlag) : String :=
  String.intercalate " | " (flags.map label)

/-- Passed through a box that the callee writes to. -/
def isByReference (flags : List ParameterFlag) : Bool :=
  flags.contains .byOut || flags.contains .byRef

end ParameterFlag

structure Parameter where
  name : String
  ty : TypeDesc
  flags : List ParameterFlag := []
  /-- The literal default value as written. -/
  default : Option String := none
  deriving Inhabited, DecidableEq

/-- A local variable of a body. Sibling blocks may declare one name several times; `occurrence`
counts the earlier declarations of the name. -/
structure LocalVariable where
  name : String
  occurrence : Nat
  ty : Option TypeDesc
  reassigned : Bool := false
  deriving Inhabited, DecidableEq

structure Routine where
  name : String
  /-- The name the target sees, where it differs. -/
  remap : Option String := none
  access : Access := .privateAccess
  declaration : Declaration := .plain
  isStatic : Bool := false
  isAsync : Bool := false
  isConstructor : Bool := false
  isOverride : Bool := false
  genericParams : List String := []
  parameters : List Parameter := []
  /-- None for constructors and where nothing is returned. -/
  returnType : Option TypeDesc := none
  /-- The types of the values at the places that return one. -/
  analyzedReturns : List TypeDesc := []
  body : Option Body := none
  chain : Option ConstructorChain := none
  locals : List LocalVariable := []
  deriving Inhabited

namespace Routine

def emittedName (f : Routine) : String := f.remap.getD f.name

def arity (f : Routine) : Nat := f.parameters.length

def parameter? (f : Routine) (name : String) : Option Parameter :=
  f.parameters.find? fun p => p.name == name

def lastLocal? (f : Routine) (name : String) : Option LocalVariable :=
  f.locals.reverse.find? fun v => v.name == name

/-- The local that a given declaration of the name introduces. -/
def declaredLocal? (f : Routine) (name : String) (occurrence : Nat) : Option LocalVariable :=
  f.locals.find? fun v => v.name == name && v.occurrence == occurrence

/-- The declared type, unless all places that return a value agree on another one. -/
def effectiveReturnType? (f : Routine) : Option TypeDesc := do
  let declared ← f.returnType
  match f.analyzedReturns with
  | [] => return declared
  | first :: rest =>
    return if first ≠ declared ∧ rest.all (· == first) then first else declared

def isInstanceConstructor (f : Routine) : Bool := f.isConstructor && !f.isStatic

end Routine

namespace Variable

inductive Kind where
  | field | property | event
  deriving DecidableEq, Repr, Inhabited

instance : Worded Kind where
  all := [.field, .property, .event]
  word
    | .field => "Field"
    | .property => "Property"
    | .event => "Event"

end Variable

/-- A field, a property or an event. -/
structure Variable where
  name : String
  remap : Option String := none
  /-- The class that static access to the member is redirected to. -/
  remapClass : Option String := none
  ty : TypeDesc
  kind : Variable.Kind := .field
  access : Access := .privateAccess
  declaration : Declaration := .plain
  isStatic : Bool := false
  isOverride : Bool := false
  isReadonly : Bool := false
  hasGet : Bool := false
  hasSet : Bool := false
  /-- A literal initial value as written, or the one that goes with the type. -/
  assignment : Option String := none
  /-- An initial value that is not a literal. -/
  initializer : Option Expr := none
  getBody : Option Body := none
  setBody : Option Body := none
  expressionBody : Option Expr := none
  deriving Inhabited

namespace Variable

def emittedName (v : Variable) : String := v.remap.getD v.name

/-- A field or an automatic property: there is no accessor body. -/
def isPlain (v : Variable) : Bool :=
  v.getBody.isNone && v.setBody.isNone && v.expressionBody.isNone

end Variable

structure Class where
  name : String
  namespaceName : Option String := none
  declaration : Declaration := .plain
  isStatic : Bool := false
  /-- The names of bases and interfaces. -/
  extensions : List String := []
  /-- The extensions as they are shown. -/
  extensionDisplay : List String := []
  vars : List Variable := []
  routines : List Routine := []
  genericParams : List String := []
  enumMembers : List String := []
  referencedClasses : List String := []
  /-- The oracle of the document the class comes from. -/
  oracle : Option Oracle := none
  /-- The members have their final names. -/
  resolved : Bool := false
  deriving Inhabited

namespace Class

def isInterface (c : Class) : Bool := c.declaration == .interface

def variableIndex? (c : Class) (name : String) : Option Nat :=
  c.vars.findIdx? fun v => v.name == name

/-- The method with the name and the arity, or else the first one with the name. -/
def routineIndex? (c : Class) (name : String) (arity : Option Nat) : Option Nat :=
  let named := fun f : Routine => f.name == name && !f.isConstructor
  let exact := arity.bind fun n => c.routines.findIdx? fun f => named f && f.arity == n
  exact <|> c.routines.findIdx? named

def constructors (c : Class) : List Routine := c.routines.filter Routine.isInstanceConstructor

/-- The constructor for a call with `arity` arguments, or else the first one. -/
def constructorFor? (c : Class) (arity : Nat) : Option Routine :=
  (c.constructors.find? fun f => f.arity == arity) <|> c.constructors.head?

/-- Note that the class mentions another one; each is noted once, the class itself never. -/
def addReference (c : Class) (name : String) : Class :=
  if name != c.name && !c.referencedClasses.contains name then
    { c with referencedClasses := c.referencedClasses ++ [name] }
  else c

end Class

/-- The position of a class in its program. -/
abbrev ClassId := Nat

def ClassId.display (id : ClassId) : String := "class#" ++ toString id

/-- A member by the position of its class and its own position there. -/
inductive MemberRef where
  | routine (owner : ClassId) (index : Nat)
  | variable (owner : ClassId) (index : Nat)
  deriving DecidableEq, Repr

inductive ProgramError where
  /-- A class cannot be added once the order of classes is final. -/
  | frozen (className : String)
  deriving DecidableEq, Repr

def ProgramError.message : ProgramError → String
  | .frozen className =>
    "cannot add class \x60" ++ className ++ "\x60: emission order is already frozen"

structure Program where
  classes : List Class := []
  rules : Rules := {}
  typeTable : TypeTable := .empty
  /-- The order of the classes is final. -/
  frozen : Bool := false
  deriving Inhabited

namespace Program

def reset (p : Program) : Program := { p with classes := [], frozen := false }

def add (p : Program) (c : Class) : Except ProgramError Program :=
  if p.frozen then .error (.frozen c.name) else .ok { p with classes := p.classes ++ [c] }

/-- Add classes in order, up to the first that cannot be added. -/
def addAll (p : Program) (cs : List Class) : Except ProgramError Program := cs.foldlM add p

def size (p : Program) : Nat := p.classes.length

def class? (p : Program) (id : ClassId) : Option Class := p.classes[id]?

def routineAt? (p : Program) (id : ClassId) (index : Nat) : Option Routine := do
  (← p.class? id).routines[index]?

def variableAt? (p : Program) (id : ClassId) (index : Nat) : Option Variable := do
  (← p.class? id).vars[index]?

def find? (p : Program) (name : String) : Option ClassId :=
  p.classes.findIdx? fun c => c.name == name

def modifyClass (p : Program) (id : ClassId) (f : Class → Class) : Program :=
  { p with classes := p.classes.modify id f }

def freeze (p : Program) : Program := { p with frozen := true }

end Program

end Recast
