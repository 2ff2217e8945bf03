import Recast.Lower.Body

/-! # Lowering members

The bodies of methods, constructors and accessors, and the initial values of variables. Each is
lowered on its own, from inside the member it belongs to.
-/
namespace Recast

structure Lowering where
  program : Program
  dialect : Dialect
  known : KnownClasses

structure LoweredBody where
  lines : List String
  imports : ImportSet
  referenced : List String

structure Lowering.Context where
  env : Surroundings
  state : LowerState

namespace Lowering
variable (l : Lowering)

/-- A context outside of all members, without an oracle. -/
def bareContext (location : String) : Context :=
  ⟨⟨l.program, l.dialect, l.known, {}, location⟩, {}⟩

def contextIn (c : Class) (memberName : String) (frames : List Frame) : Context :=
  ⟨⟨l.program, l.dialect, l.known, c.oracle.getD {}, c.name ++ "." ++ memberName⟩,
    { scope := ⟨frames⟩ }⟩

def routineContext (id : ClassId) (index : Nat) : Except LowerError (Routine × Context) :=
  match l.program.class? id, l.program.routineAt? id index with
  | some c, some f =>
    .ok (f, l.contextIn c f.name [.ofClass (.program id), .ofRoutine id index])
  | c, _ => .error (.noRoutine index ((c.map Class.name).getD ""))

def variableContext (id : ClassId) (index : Nat) : Except LowerError (Variable × Context) :=
  match l.program.class? id, l.program.variableAt? id index with
  | some c, some v =>
    .ok (v, l.contextIn c v.name [.ofClass (.program id), .ofVariable id index])
  | c, _ => .error (.noVariable index ((c.map Class.name).getD ""))

end Lowering

namespace Surroundings
variable (env : Surroundings)

/-- A body whose value, if it is an expression, is returned. -/
def returningBody : Body → Lower Unit
  | .block statements => env.stmts statements
  | .expression e => do
    env.bound "ret" (← env.expr none e) fun code => env.dialect.returnStatement (some code)

/-- A body whose value, if it is an expression, is not used. -/
def effectBody : Body → Lower Unit
  | .block statements => env.stmts statements
  | .expression e => do env.expressionStatement (← env.expr none e)

/-- The call of another constructor at the start of a constructor. -/
def chain (id : ClassId) (c : ConstructorChain) : Lower Unit := do
  let target := match c.target with
    | .base => env.baseClass? id
    | .this => some id
  let args ← env.arguments c.args
  env.splice args.hoists <|
    env.dialect.constructorChain c.target (env.constructorName? target c.args.length) args.codes

def routineBody (id : ClassId) (f : Routine) : Lower Unit := do
  if let some c := f.chain then env.chain id c
  match f.body with
  | some body => if f.returnType.isSome then env.returningBody body else env.effectBody body
  | none => return ()

def accessorBody (v : Variable) : AccessorKind → Lower Unit
  | .get =>
    match v.expressionBody, v.getBody with
    | some e, _ => env.returningBody (.expression e)
    | none, some body => env.returningBody body
    | none, none => return ()
  | .set | .init =>
    match v.setBody with
    | some body => env.effectBody body
    | none => return ()

end Surroundings

namespace Lowering
variable (l : Lowering)

def finish (c : Context) (m : Lower Unit) : Except LowerError LoweredBody :=
  match m c.state with
  | (.ok (), s) => .ok ⟨s.lines, s.imports, s.referenced⟩
  | (.error e, _) => .error e

def routine (id : ClassId) (index : Nat) : Except LowerError LoweredBody := do
  let (f, c) ← l.routineContext id index
  finish c (c.env.routineBody id f)

def accessor (id : ClassId) (index : Nat) (kind : AccessorKind) :
    Except LowerError LoweredBody := do
  let (v, c) ← l.variableContext id index
  finish c (c.env.accessorBody v kind)

/-- The initial value of a variable, as a single line; none if there is nothing to lower. -/
def initializer (id : ClassId) (index : Nat) : Except LowerError (Option LoweredBody) := do
  let (v, c) ← l.variableContext id index
  match v.initializer with
  | none => return none
  | some e =>
    let body ← finish c do
      let value ← c.env.expr none e
      c.env.refuse .fieldInitializer (value.hoists.before ++ value.hoists.after)
      c.env.emit value.code
    return some body

end Lowering

end Recast
