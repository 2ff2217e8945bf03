import Recast.Program.Basic

/-! # The locals of a body

One walk over a body finds the types of the returned values and all locals that are declared in it,
and marks those that are written again. A write belongs to the innermost local of the name that is
visible at that point. What a lambda returns is not returned by the body.
-/
namespace Recast

structure Scan where
  returns : List TypeDesc := []
  locals : List LocalVariable := []
  /-- The positions in `locals` of what is visible, the innermost last. -/
  visible : List Nat := []

namespace Scan

def declare (name : String) (ty : Option TypeDesc) (s : Scan) : Scan :=
  { s with
    locals := s.locals ++ [{ name, occurrence := s.locals.countP (fun v => v.name == name), ty }]
    visible := s.visible ++ [s.locals.length] }

/-- The innermost visible local with the name. -/
def innermost? (s : Scan) (name : String) : Option Nat :=
  s.visible.reverse.find? fun i => (s.locals[i]?).any fun v => v.name == name

/-- Mark the local that a write to the expression changes, if it is a plain name. -/
def write (target : Expr) (s : Scan) : Scan :=
  match target with
  | .identifier _ name =>
    match s.innermost? name with
    | some i => { s with locals := s.locals.modify i fun v => { v with reassigned := true } }
    | none => s
  | _ => s

/-- Note a returned value whose type is known. -/
def giveBack (oracle : Oracle) (inLambda : Bool) (value : Expr) (s : Scan) : Scan :=
  match (if inLambda then none else oracle.typeOf? value.id) with
  | some ty => { s with returns := s.returns ++ [.ofType ty] }
  | none => s

/-- Leave the scope that was entered at `start`: what was declared since is no longer visible. -/
def leave (start s : Scan) : Scan := { s with visible := s.visible.take start.visible.length }

/-- The written type of a local, or the oracle's answer where none is written. -/
def localType? (oracle : Oracle) (written : Option SourceType) (id : NodeId) : Option TypeDesc :=
  ((SourceType.explicit? written) <|> oracle.typeOf? id).map .ofType

mutual

def expr (o : Oracle) (l : Bool) : Expr → Scan → Scan
  | .assignment _ _ target value, s => expr o l value (expr o l target (s.write target))
  | .prefixUnary _ op operand, s => expr o l operand (if op.mutates then s.write operand else s)
  | .postfixUnary _ op operand, s => expr o l operand (if op.mutates then s.write operand else s)
  | .objectCreation _ _ args init, s =>
    let s := arguments o l args s
    match init with
    | some e => expr o l e s
    | none => s
  | .memberAccess _ target _, s => expr o l target s
  | .invocation _ target args, s => arguments o l args (expr o l target s)
  | .elementAccess _ target args, s => arguments o l args (expr o l target s)
  | .binary _ _ left right, s => expr o l right (expr o l left s)
  | .simpleLambda _ _ body, s => leave s (lambdaBody o body s)
  | .parenthesizedLambda _ _ body, s => leave s (lambdaBody o body s)
  | .conditional _ condition whenTrue whenFalse, s =>
    expr o l whenFalse (expr o l whenTrue (expr o l condition s))
  | .cast _ _ operand, s => expr o l operand s
  | .parenthesized _ inner, s => expr o l inner s
  | .await _ operand, s => expr o l operand s
  | .conditionalAccess _ target rest, s => expr o l rest (expr o l target s)
  | .interpolatedString _ parts, s => interpolation o l parts s
  | .tuple _ elements, s => arguments o l elements s
  | .initializer _ _ elements, s => exprs o l elements s
  | .arrayCreation _ _ sizes init, s =>
    let s := exprs o l sizes s
    match init with
    | some e => expr o l e s
    | none => s
  | .implicitArrayCreation _ init, s => expr o l init s
  | .declaration id ty name, s => s.declare name (localType? o ty id)
  | _, s => s

def exprs (o : Oracle) (l : Bool) : List Expr → Scan → Scan
  | [], s => s
  | e :: es, s => exprs o l es (expr o l e s)

def arguments (o : Oracle) (l : Bool) : List Argument → Scan → Scan
  | [], s => s
  | ⟨passing, e⟩ :: args, s =>
    let s := match passing, e with
      | .byOut, .declaration .. => s
      | .byOut, _ => s.write e
      | .byRef, _ => s.write e
      | _, _ => s
    arguments o l args (expr o l e s)

def interpolation (o : Oracle) (l : Bool) : List InterpolationPart → Scan → Scan
  | [], s => s
  | .text _ :: parts, s => interpolation o l parts s
  | .expression e _ :: parts, s => interpolation o l parts (expr o l e s)

def lambdaBody (o : Oracle) : LambdaBody → Scan → Scan
  | .block statements, s => stmts o true statements s
  | .expression e, s => expr o true e s

def declarators (o : Oracle) (l : Bool) (ty : Option SourceType) : List Declarator → Scan → Scan
  | [], s => s
  | ⟨id, name, init⟩ :: ds, s =>
    let s := s.declare name (localType? o ty id)
    let s := match init with
      | some e => expr o l e s
      | none => s
    declarators o l ty ds s

def stmt (o : Oracle) (l : Bool) : Stmt → Scan → Scan
  | .expression _ e, s => expr o l e s
  | .ret _ (some e), s => expr o l e (s.giveBack o l e)
  | .locals _ ⟨ty, ds⟩, s => declarators o l ty ds s
  | .switch _ subject sections, s =>
    let s := expr o l subject s
    leave s (switchSections o l sections s)
  | .block _ statements, s => leave s (stmts o l statements s)
  | .throw _ (some e), s => expr o l e s
  | .ifElse _ condition thenBranch otherwise, s =>
    let s := stmt o l thenBranch (expr o l condition s)
    match otherwise with
    | some e => stmt o l e s
    | none => s
  | .forLoop _ declaration initializers condition incrementors body, s =>
    let t := match declaration with
      | some ⟨ty, ds⟩ => declarators o l ty ds s
      | none => s
    let t := exprs o l initializers t
    let t := match condition with
      | some e => expr o l e t
      | none => t
    leave s (stmt o l body (exprs o l incrementors t))
  | .whileLoop _ condition body, s => stmt o l body (expr o l condition s)
  | .doWhile _ body condition, s => stmt o l body (expr o l condition s)
  | .forEach id ty name iterable body, s =>
    let s := expr o l iterable s
    leave s (stmt o l body (s.declare name (localType? o ty id)))
  | .tryCatch _ block catches finallyBlock, s =>
    let s := leave s (stmts o l block s)
    let s := catchClauses o l catches s
    match finallyBlock with
    | some statements => leave s (stmts o l statements s)
    | none => s
  | .lock _ target body, s => stmt o l body (expr o l target s)
  | .useResource _ declaration target body, s =>
    let t := match declaration with
      | some ⟨ty, ds⟩ => declarators o l ty ds s
      | none => s
    let t := match target with
      | some e => expr o l e t
      | none => t
    leave s (stmt o l body t)
  | _, s => s

def stmts (o : Oracle) (l : Bool) : List Stmt → Scan → Scan
  | [], s => s
  | t :: ts, s => stmts o l ts (stmt o l t s)

def switchSections (o : Oracle) (l : Bool) : List SwitchSection → Scan → Scan
  | [], s => s
  | ⟨_, statements⟩ :: rest, s => switchSections o l rest (stmts o l statements s)

def catchClauses (o : Oracle) (l : Bool) : List CatchClause → Scan → Scan
  | [], s => s
  | ⟨ty, name, block⟩ :: rest, s =>
    let t := match name with
      | some name => s.declare name (ty.map .ofType)
      | none => s
    catchClauses o l rest (leave s (stmts o l block t))

end

/-- Scan a body; where the body is an expression, `returnsValue` makes it a returned value. -/
def body (o : Oracle) (returnsValue : Bool) : Body → Scan
  | .block statements => stmts o false statements {}
  | .expression e =>
    let s : Scan := {}
    expr o false e (if returnsValue then s.giveBack o false e else s)

end Scan

end Recast
