import Recast.Lower.Dialect
import Recast.Lower.Scope
import Recast.Program.Lineage

/-! # Lowering: results, state and lines

An expression is lowered to its code and to lines that have to stand before and after the statement
it is part of. The work runs in a monad that keeps its state when it fails, so that what was done
up to a failure can be seen.
-/
namespace Recast

/-- A construct that lines cannot be moved out of. -/
inductive Barrier where
  | conditionalBranch | caseLabel | forInitializer | forCondition | forIncrementor
  | fieldInitializer
  deriving DecidableEq, Repr

namespace Barrier

def name : Barrier → String
  | .conditionalBranch => "conditional branch"
  | .caseLabel => "case label"
  | .forInitializer => "for initializer"
  | .forCondition => "for condition"
  | .forIncrementor => "for incrementor"
  | .fieldInitializer => "field initializer"

end Barrier

inductive LowerError where
  | unsupported (construct : String) (node : NodeId) (location : String)
  | unsupportedHoist (barrier : Barrier) (location : String)
  | noRoutine (index : Nat) (className : String)
  | noVariable (index : Nat) (className : String)
  deriving DecidableEq, Repr

namespace LowerError

def message : LowerError → String
  | .unsupported construct node location =>
    "unsupported construct \x60" ++ construct ++ "\x60 at node " ++ node.display ++ " in " ++ location
  | .unsupportedHoist barrier location =>
    "cannot hoist side effects out of " ++ barrier.name ++ " in " ++ location
  | .noRoutine index className =>
    "no function at index " ++ toString index ++ " in class \x60" ++ className ++ "\x60"
  | .noVariable index className =>
    "no variable at index " ++ toString index ++ " in class \x60" ++ className ++ "\x60"

end LowerError

/-- Lines that stand before and after the statement an expression is part of. -/
structure Hoists where
  before : List String := []
  after : List String := []
  deriving DecidableEq, Repr

namespace Hoists

def isEmpty (h : Hoists) : Bool := h.before.isEmpty && h.after.isEmpty

instance : Append Hoists := ⟨fun a b => ⟨a.before ++ b.before, a.after ++ b.after⟩⟩

end Hoists

structure Lowered where
  code : String
  ty : Option TypeDesc := none
  hoists : Hoists := {}
  /-- False if nothing is left of the expression, as of the name of a namespace. -/
  processed : Bool := true

namespace Lowered

def nothing : Lowered := { code := "", processed := false }

/-- Code made of the code of some parts, with the lines of all of them. -/
def join (code : String) (ty : Option TypeDesc) (parts : List Lowered) : Lowered :=
  { code, ty, hoists := parts.foldl (fun h part => h ++ part.hoists) {} }

end Lowered

/-- What lowering looks things up in; it stays the same throughout a body. -/
structure Surroundings where
  program : Program
  dialect : Dialect
  known : KnownClasses
  oracle : Oracle
  location : String

structure DeclaredLocal where
  name : String
  /-- Whether its declaration lets it be written again; none if it has no line of its own. -/
  mutable : Option Bool := none
  deriving DecidableEq, Repr

structure LowerState where
  scope : Scope := {}
  imports : ImportSet := SortedMap.empty
  depth : Nat := 0
  /-- How many arguments the call has whose target is being lowered. -/
  callArity : Option Nat := none
  bindingReceiver : Option ClassRef := none
  /-- The names for temporary variables that were handed out, the last one first. -/
  handedOut : List String := []
  /-- The locals declared so far, in order. -/
  declared : List DeclaredLocal := []
  /-- The classes of the program mentioned so far, each once. -/
  referenced : List String := []
  lines : List String := []

instance : Inhabited LowerState := ⟨{}⟩

/-- How many names for temporary variables were handed out. -/
def LowerState.temps (s : LowerState) : Nat := s.handedOut.length

abbrev Lower := ExceptT LowerError (StateM LowerState)

namespace Lower

/-- Drop the frames that `m` has left on the stack. -/
def isolated {α : Type} (m : Lower α) : Lower α := fun s =>
  let (r, t) := m s
  (r, { t with scope := t.scope.restore s.scope.depth })

/-- One level of indentation deeper. -/
def indented {α : Type} (m : Lower α) : Lower α := fun s =>
  let (r, t) := m { s with depth := s.depth + 1 }
  (r, { t with depth := t.depth - 1 })

/-- The lines that `m` writes, which are kept apart from those already there. -/
def collected (m : Lower Unit) : Lower (List String) := fun s =>
  let (r, t) := m { s with lines := [] }
  (r.map fun _ => t.lines, { t with lines := s.lines })

/-- Member bindings in `m` belong to the receiver. -/
def withBinding {α : Type} (receiver : ClassRef) (m : Lower α) : Lower α := fun s =>
  let (r, t) := m { s with bindingReceiver := some receiver }
  (r, { t with bindingReceiver := s.bindingReceiver })

/-- The target of a call with the given number of arguments; afterwards no call is pending. -/
def calling {α : Type} (arity : Option Nat) (m : Lower α) : Lower α := fun s =>
  let (r, t) := m { s with callArity := arity }
  (r, { t with callArity := none })

/-- The pending number of arguments, which is then no longer pending. -/
def takeArity : Lower (Option Nat) := do
  let s ← get
  set { s with callArity := none }
  return s.callArity

def push (f : Frame) : Lower Unit := modify fun s => { s with scope := s.scope.push f }

/-- A name that is looked up on the receiver. -/
def memberOf {α : Type} (receiver : ClassRef) (arity : Option Nat) (m : Lower α) : Lower α :=
  isolated do
    push (.ofClass receiver)
    calling arity m

def temp (word : String) : Lower String := do
  let name := word ++ "_" ++ toString ((← get).temps + 1)
  modify fun s => { s with handedOut := name :: s.handedOut }
  return name

def declare (v : DeclaredLocal) : Lower Unit :=
  modify fun s => { s with declared := s.declared ++ [v] }

def addImport (line : Option String) : Lower Unit :=
  modify fun s => { s with imports := SortedSet.addAll s.imports line.toList }

end Lower

namespace Surroundings
variable (env : Surroundings)

def tables : TypeTables := ⟨env.program.typeTable, env.known, env.dialect.types⟩

def className (id : ClassId) : String := ((env.program.class? id).map Class.name).getD ""

def indentation (depth : Nat) : String := Text.times depth env.dialect.indentUnit

def emit (line : String) : Lower Unit :=
  modify fun s => { s with lines := s.lines ++ [env.indentation s.depth ++ line] }

def emitAll (lines : List String) : Lower Unit := lines.forM env.emit

/-- Write a line with the hoisted lines around it. -/
def splice (hoists : Hoists) (line : String) : Lower Unit := do
  env.emitAll hoists.before
  env.emit line
  env.emitAll hoists.after

/-- Write the hoisted lines of a value that is about to be used. A value with lines after it is kept
in a temporary variable, so that they can be written before the use. -/
def bind (word : String) (l : Lowered) : Lower String := do
  env.emitAll l.hoists.before
  if l.hoists.after.isEmpty then return l.code
  let temp ← Lower.temp word
  env.emit (env.dialect.localDeclaration temp none (some l.code) false)
  env.emitAll l.hoists.after
  return temp

def unsupported {α : Type} (construct : String) (node : NodeId) : Lower α :=
  throw (.unsupported construct node env.location)

/-- Fail if there are lines that would have to be moved out of the barrier. -/
def refuse (barrier : Barrier) (lines : List String) : Lower Unit :=
  if lines.isEmpty then return () else throw (.unsupportedHoist barrier env.location)

/-- Note that a class is mentioned, if it is one of the program and not the owner of the member at
hand. -/
def reference (name : String) : Lower Unit :=
  modify fun s =>
    let owner := s.scope.memberOwner?.map env.className
    if owner != some name && (env.program.find? name).isSome && !s.referenced.contains name then
      { s with referenced := s.referenced ++ [name] }
    else s

def spell (d : TypeDesc) : Lower String := do
  d.names.forM env.reference
  let spelling := env.tables.spell d
  modify fun s => { s with imports := SortedSet.addAll s.imports spelling.imports }
  return spelling.text

def spellType (ty : SourceType) : Lower String := env.spell (.ofType ty)

def spellTypes : List SourceType → Lower (List String)
  | [] => return []
  | ty :: tys => return (← env.spellType ty) :: (← spellTypes tys)

def spellType? : Option SourceType → Lower (Option String)
  | none => return none
  | some ty => return some (← env.spellType ty)

def typeOf? (id : NodeId) : Option TypeDesc := (env.oracle.typeOf? id).map .ofType

def routine? (scope : Scope) : Option Routine := do
  let (owner, index) ← scope.currentRoutine?
  env.program.routineAt? owner index

/-- Note a declaration of a local and say whether it lets the local be written again: it does if it
gives no value, or if the local is written again. A local nothing is known about may be. -/
def declareLocal (name : String) (hasValue : Bool) : Lower Bool := do
  let s ← get
  let occurrence := s.declared.countP fun v => v.name == name
  let known := do
    (← env.routine? s.scope).declaredLocal? name occurrence
  let mutable := !hasValue || (known.map LocalVariable.reassigned).getD true
  Lower.declare { name, mutable := some mutable }
  return mutable

end Surroundings

end Recast
