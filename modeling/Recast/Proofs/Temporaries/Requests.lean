import Recast.Proofs.Lowering.Boxes

/-! # Requests for temporary variables

The words that lowering asks for names of temporary variables with, read off a body in the order in
which lowering gets there. An argument by reference asks for a box. A value that is used by a
statement asks for a variable of its own exactly if lines are hoisted out of it, and so does the
flag of a loop that tests last.
-/
namespace Recast

namespace Requests

/-- Lines are hoisted out of an expression: some argument by reference in it is not lost. -/
def hoists (o : Oracle) (owned facing : Bool) (e : Expr) : Bool :=
  !(Passed.delivered (Passed.expr o owned facing e)).isEmpty

def kept (o : Oracle) (owned facing : Bool) (word : String) (e : Expr) : List String :=
  if hoists o owned facing e then [word] else []

/-- An argument, given what is requested inside of it, which comes first. -/
def argument (passing : Passing) (e : Expr) (inner : List String) : List String :=
  match passing, e with
  | .byOut, .declaration .. => ["out"]
  | .byOut, _ | .byRef, _ => inner ++ ["out"]
  | _, _ => inner

mutual

/-- The requests in an expression. A name behind a target of which nothing is left is looked up
where the target was, any other name behind a dot on its receiver. -/
def expr (o : Oracle) (owned facing : Bool) : Expr → List String
  | .assignment _ _ target value => expr o owned facing target ++ expr o owned facing value
  | .memberAccess _ target name | .qualifiedName _ target name =>
    expr o owned facing target ++
      expr o owned (if target.vanishes o facing then facing else owned) name
  | .conditionalAccess _ target rest => expr o owned facing target ++ expr o owned facing rest
  | .memberBinding _ name => expr o owned owned name
  | .invocation _ target args => expr o owned facing target ++ arguments o owned facing args
  | .elementAccess _ target args => expr o owned facing target ++ arguments o owned facing args
  | .objectCreation _ _ args init =>
    arguments o owned facing args ++ match init with
      | some e => expr o owned facing e
      | none => []
  | .binary _ _ left right => expr o owned facing left ++ expr o owned facing right
  | .simpleLambda _ _ body => lambdaBody o owned facing body
  | .parenthesizedLambda _ _ body => lambdaBody o owned facing body
  | .conditional _ condition whenTrue whenFalse =>
    expr o owned facing condition ++ (expr o owned facing whenTrue ++
      expr o owned facing whenFalse)
  | .cast _ _ operand => expr o owned facing operand
  | .prefixUnary _ _ operand => expr o owned facing operand
  | .postfixUnary _ _ operand => expr o owned facing operand
  | .interpolatedString _ parts => interpolation o owned facing parts
  | .tuple _ elements => arguments o owned facing elements
  | .initializer _ shape elements => initializers o owned facing shape elements
  | .parenthesized _ inner => expr o owned facing inner
  | .arrayCreation _ _ sizes init =>
    exprs o owned facing sizes ++ match init with
      | some e => expr o owned facing e
      | none => []
  | .await _ operand => expr o owned facing operand
  | .implicitArrayCreation _ init => expr o owned facing init
  | .identifier .. | .genericName .. | .this _ | .base _ | .literal .. | .defaultValue ..
  | .predefinedType .. | .typeOf .. | .declaration .. | .other .. => []

def exprs (o : Oracle) (owned facing : Bool) : List Expr → List String
  | [] => []
  | e :: es => expr o owned facing e ++ exprs o owned facing es

def arguments (o : Oracle) (owned facing : Bool) : List Argument → List String
  | [] => []
  | ⟨passing,e⟩ :: args =>
    argument passing e (expr o owned facing e) ++ arguments o owned facing args

/-- The name of a member that an initializer sets is not looked at. -/
def initializers (o : Oracle) (owned facing : Bool) (shape : InitializerShape) :
    List Expr → List String
  | [] => []
  | e :: es =>
    (match shape, e with
      | .object, .assignment _ _ (.identifier _ _) value => expr o owned facing value
      | _, e => expr o owned facing e) ++ initializers o owned facing shape es

def interpolation (o : Oracle) (owned facing : Bool) : List InterpolationPart → List String
  | [] => []
  | .text _ :: parts => interpolation o owned facing parts
  | .expression e _ :: parts => expr o owned facing e ++ interpolation o owned facing parts

/-- What an expression gives back is kept while its lines are written, in a block. -/
def lambdaBody (o : Oracle) (owned facing : Bool) : LambdaBody → List String
  | .block statements => stmts o owned facing statements
  | .expression e => expr o owned facing e ++ kept o owned facing "ret" e

def declarators (o : Oracle) (owned facing : Bool) : List Declarator → List String
  | [] => []
  | ⟨_,_,init⟩ :: ds =>
    (match init with
      | some e => expr o owned facing e
      | none => []) ++ declarators o owned facing ds

def labels (o : Oracle) (owned facing : Bool) : List SwitchLabel → List String
  | [] => []
  | .case value :: ls => expr o owned facing value ++ labels o owned facing ls
  | .default :: ls => labels o owned facing ls

def switchSections (o : Oracle) (owned facing : Bool) : List SwitchSection → List String
  | [] => []
  | ⟨ls,statements⟩ :: rest =>
    labels o owned facing ls ++ (stmts o owned facing statements ++
      switchSections o owned facing rest)

def catchClauses (o : Oracle) (owned facing : Bool) : List CatchClause → List String
  | [] => []
  | ⟨_,_,block⟩ :: rest => stmts o owned facing block ++ catchClauses o owned facing rest

/-- The requests in a statement. A condition comes before the body, also where it is tested last. -/
def stmt (o : Oracle) (owned facing : Bool) : Stmt → List String
  | .expression _ e => expr o owned facing e
  | .ret _ value | .throw _ value =>
    match value with
    | some e => expr o owned facing e ++ kept o owned facing "ret" e
    | none => []
  | .locals _ ⟨_,ds⟩ => declarators o owned facing ds
  | .switch _ subject sections =>
    expr o owned facing subject ++ (kept o owned facing "cond" subject ++
      switchSections o owned facing sections)
  | .block _ statements => stmts o owned facing statements
  | .ifElse _ condition thenBranch otherwise =>
    expr o owned facing condition ++ (kept o owned facing "cond" condition ++
      (stmt o owned facing thenBranch ++ match otherwise with
        | some s => stmt o owned facing s
        | none => []))
  | .forLoop _ declaration initializers condition incrementors body =>
    (match declaration with
      | some ⟨_,ds⟩ => declarators o owned facing ds
      | none => exprs o owned facing initializers) ++ ((match condition with
      | some e => expr o owned facing e
      | none => []) ++ (exprs o owned facing incrementors ++ stmt o owned facing body))
  | .whileLoop _ condition body =>
    expr o owned facing condition ++ (kept o owned facing "cond" condition ++
      stmt o owned facing body)
  | .doWhile _ body condition =>
    expr o owned facing condition ++ (kept o owned facing "first" condition ++
      (kept o owned facing "cond" condition ++ stmt o owned facing body))
  | .forEach _ _ _ iterable body =>
    expr o owned facing iterable ++ (kept o owned facing "iter" iterable ++
      stmt o owned facing body)
  | .tryCatch _ block catches finallyBlock =>
    stmts o owned facing block ++ (catchClauses o owned facing catches ++ match finallyBlock with
      | some statements => stmts o owned facing statements
      | none => [])
  | .lock _ target body =>
    (if target.isPlainReference then [] else expr o owned facing target) ++
      stmt o owned facing body
  | .useResource _ declaration target body =>
    (match declaration, target with
      | some ⟨_,ds⟩, _ => declarators o owned facing ds
      | none, some e => expr o owned facing e ++ ["using"]
      | none, none => []) ++ stmt o owned facing body
  | .breakLoop _ | .continueLoop _ | .empty _ | .other .. => []

def stmts (o : Oracle) (owned facing : Bool) : List Stmt → List String
  | [] => []
  | s :: ss => stmt o owned facing s ++ stmts o owned facing ss

end

def body (o : Oracle) (owned facing returns : Bool) : Body → List String
  | .block statements => stmts o owned facing statements
  | .expression e =>
    expr o owned facing e ++ if returns then kept o owned facing "ret" e else []

/-- The requests in a method or constructor; the call of another constructor comes first. -/
def routine (o : Oracle) (owned facing : Bool) (f : Routine) : List String :=
  (match f.chain with
    | some c => arguments o owned facing c.args
    | none => []) ++ match f.body with
    | some b => body o owned facing f.returnType.isSome b
    | none => []

end Requests

end Recast
