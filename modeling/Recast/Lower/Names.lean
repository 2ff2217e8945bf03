import Recast.Lower.State

/-! # Lowering names

What a name stands for: the oracle decides where it has an answer. Otherwise parameters and locals
come first, then members of the class at hand, then classes. Behind a dot a name is looked up on the
receiver only.
-/
namespace Recast

structure MemberInfo where
  emitted : String
  isStatic : Bool
  /-- The class that static access is redirected to. -/
  remapClass : Option String
  owner : String
  ty : Option TypeDesc

namespace Surroundings
variable (env : Surroundings)

def infoOf? : MemberRef → Option MemberInfo
  | .variable owner index => do
    let v ← env.program.variableAt? owner index
    return ⟨v.emittedName, v.isStatic, v.remapClass, env.className owner, some v.ty⟩
  | .routine owner index => do
    let f ← env.program.routineAt? owner index
    return ⟨f.emittedName, f.isStatic, none, env.className owner, f.effectiveReturnType?⟩

def memberInfo? (id : ClassId) (name : String) (arity : Option Nat) : Option MemberInfo :=
  (env.program.findMember? id name arity).bind env.infoOf?

def baseClass? (id : ClassId) : Option ClassId := (env.program.bases id).head?

def isLocalName (scope : Scope) (name : String) : Bool :=
  (env.routine? scope).any fun f => (f.parameter? name).isSome || (f.lastLocal? name).isSome

/-- A name that stands for itself; a parameter in a box stands for the value in it. -/
def parameter (scope : Scope) (name : String) : Lowered :=
  match (env.routine? scope).bind (·.parameter? name) with
  | some p =>
    { code := if ParameterFlag.isByReference p.flags then env.dialect.parameterValue name else name
      ty := some p.ty }
  | none => { code := name }

/-- A member written without a receiver. `isStatic` and `declaredIn` are the answers of the oracle,
if it has any. -/
def member (owner : Option ClassId) (name : String) (arity : Option Nat) (isStatic : Option Bool)
    (declaredIn : Option String) : Lower Lowered := do
  let info := owner.bind fun id => env.memberInfo? id name arity
  let emitted := (info.map MemberInfo.emitted).getD name
  let ty := info.bind MemberInfo.ty
  if (isStatic <|> info.map MemberInfo.isStatic).getD false then
    let found := info.map fun m => m.remapClass.getD m.owner
    let className := (found <|> declaredIn <|> owner.map env.className).getD ""
    env.reference className
    return { code := env.dialect.staticMember className emitted, ty }
  else return { code := env.dialect.thisMember emitted, ty }

def typeName (name : String) : Lower Lowered := do
  let ty := some (TypeDesc.object name)
  match env.known.get? name 0 with
  | some known =>
    Lower.addImport known.importLine
    return { code := env.dialect.typeReference known.target, ty }
  | none =>
    env.reference name
    return { code := env.dialect.typeReference name, ty }

def plainName (scope : Scope) (name : String) (arity : Option Nat) : Lower Lowered := do
  if env.isLocalName scope name then return env.parameter scope name
  let owner := scope.memberOwner?
  if (owner.bind fun id => env.memberInfo? id name arity).isSome then
    env.member owner name arity none none
  else if (env.program.find? name).isSome || (env.known.get? name 0).isSome then env.typeName name
  else return { code := name }

def symbolName (scope : Scope) (symbol : Symbol) (name : String) (arity : Option Nat) :
    Lower Lowered :=
  match symbol.kind with
  | .localVar | .constructor => return { code := name }
  | .parameter => return env.parameter scope name
  | .namespaceName => return .nothing
  | .type => env.typeName name
  | .field | .property | .event | .method =>
    let owner := symbol.containingType.bind env.program.find? <|> scope.memberOwner?
    let arity := symbol.parameterCount.map UInt64.toNat <|> arity
    env.member owner name arity (some symbol.isStatic) symbol.containingType

def memberName (receiver : ClassRef) (name : String) (arity : Option Nat) : Lowered :=
  match receiver with
  | .external _ => { code := name }
  | .program id =>
    match env.memberInfo? id name arity with
    | some m => { code := m.emitted, ty := m.ty }
    | none => { code := name }

/-- A name. The type that the oracle gives it counts more than any other. -/
def identifier (id : NodeId) (name : String) : Lower Lowered := do
  let arity ← Lower.takeArity
  let scope := (← get).scope
  let l ← match scope.receiver?, env.oracle.symbolOf? id with
    | some receiver, _ => pure (env.memberName receiver name arity)
    | none, some symbol => env.symbolName scope symbol name arity
    | none, none => env.plainName scope name arity
  return if l.processed then { l with ty := env.typeOf? id <|> l.ty } else l

def receiverFor (scope : Scope) (target : Expr) (l : Lowered) : ClassRef :=
  let owner := scope.memberOwner?
  let own := match target with
    | .this _ => owner
    | .base _ => owner.bind env.baseClass?
    | _ => none
  match own, l.ty with
  | some id, _ => .program id
  | none, some ty =>
    match env.program.find? ty.name with
    | some id => .program id
    | none => .external ty.name
  | none, none => .external ""

def isTypeExpr (scope : Scope) : Expr → Bool
  | .identifier id name | .genericName id name _ =>
    match env.oracle.symbolOf? id with
    | some symbol => symbol.kind == .type
    | none => !env.isLocalName scope name && (env.program.find? name).isSome
  | _ => false

/-- The class that access to a static member by way of its class is redirected to. -/
def redirect? (scope : Scope) (receiver : ClassRef) (target name : Expr) (arity : Option Nat) :
    Option String :=
  match receiver, name with
  | .program id, .identifier _ name =>
    if env.isTypeExpr scope target then
      (env.memberInfo? id name arity).bind MemberInfo.remapClass
    else none
  | _, _ => none

def constructorName? (owner : Option ClassId) (arity : Nat) : Option String := do
  let c ← env.program.class? (← owner)
  (← c.constructorFor? arity).remap

end Surroundings

end Recast
