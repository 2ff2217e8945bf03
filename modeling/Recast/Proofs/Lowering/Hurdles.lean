import Recast.Proofs.Lowering.Boxes

/-! # Hurdles

What lowering has to get over in a body, in the order in which it gets there: constructs of a kind
that is not known, and constructs that no line can be moved out of, with the arguments by reference
inside of them. What lowering does not look at has no hurdles.
-/
namespace Recast

inductive Hurdle where
  /-- A statement or an expression of a kind that is not known. -/
  | unknown (construct : String) (node : NodeId)
  /-- A construct that no line can be moved out of, with the arguments by reference in it that are
  outside of lambdas. -/
  | barrier (b : Barrier) (inside : List Passed)

namespace Hurdle

/-- How lowering fails at a hurdle. -/
def error (location : String) : Hurdle → LowerError
  | .unknown construct node => .unsupported construct node location
  | .barrier b _ => .unsupportedHoist b location

/-- The target has nothing for it: an argument by reference needs lines that have no place. -/
def forbidden : Hurdle → Bool
  | .unknown .. => true
  | .barrier _ inside => !inside.isEmpty

/-- Lowering fails at it: there are lines that reach the barrier. -/
def stops : Hurdle → Bool
  | .unknown .. => true
  | .barrier _ inside => !(Passed.delivered inside).isEmpty

theorem forbidden_of_stops {h : Hurdle} (hs : h.stops = true) : h.forbidden = true := by
  cases h with
  | unknown construct node => rfl
  | barrier b inside =>
    cases inside with
    | nil => nomatch hs
    | cons p ps => rfl

/-- The failure at the first hurdle that stops. -/
def failure? (location : String) (hs : List Hurdle) : Option LowerError :=
  (hs.find? stops).map (error location)

theorem failure?_append (location : String) (hs ks : List Hurdle) :
    failure? location (hs ++ ks) = (failure? location hs <|> failure? location ks) := by
  unfold failure?
  rw [List.find?_append]
  cases hs.find? stops <;> rfl

theorem failure?_eq_none_iff (location : String) {hs : List Hurdle} :
    failure? location hs = none ↔ ∀ h ∈ hs, h.stops = false := by
  simp [failure?]

theorem exists_of_failure? {location : String} {hs : List Hurdle} {e : LowerError}
    (h : failure? location hs = some e) : ∃ x ∈ hs, x.stops = true ∧ e = x.error location := by
  obtain ⟨x,hx,rfl⟩ := Option.map_eq_some_iff.mp h
  exact ⟨x,List.mem_of_find?_eq_some hx,List.find?_some hx,rfl⟩

mutual

/-- The hurdles in an expression. A name behind a target of which nothing is left is looked up where
the target was, any other name behind a dot on its receiver. -/
def expr (o : Oracle) (owned facing : Bool) : Expr → List Hurdle
  | .assignment _ _ target value => expr o owned facing target ++ expr o owned facing value
  | .memberAccess _ target name | .qualifiedName _ target name =>
    expr o owned facing target ++
      expr o owned (if target.vanishes o facing then facing else owned) name
  | .conditionalAccess _ target rest => expr o owned facing target ++ expr o owned facing rest
  | .memberBinding _ name => expr o owned owned name
  | .invocation _ target args => expr o owned facing target ++ arguments o owned facing args
  | .elementAccess _ target args => expr o owned facing target ++ arguments o owned facing args
  | .objectCreation _ _ args init =>
    arguments o owned facing args ++ match init with
      | some e => expr o owned facing e
      | none => []
  | .binary _ _ left right => expr o owned facing left ++ expr o owned facing right
  | .simpleLambda _ _ body => lambdaBody o owned facing body
  | .parenthesizedLambda _ _ body => lambdaBody o owned facing body
  | .conditional _ condition whenTrue whenFalse =>
    expr o owned facing condition ++ (expr o owned facing whenTrue ++
      (expr o owned facing whenFalse ++ [.barrier .conditionalBranch
        (Passed.expr o owned facing whenTrue ++ Passed.expr o owned facing whenFalse)]))
  | .cast _ _ operand => expr o owned facing operand
  | .prefixUnary _ _ operand => expr o owned facing operand
  | .postfixUnary _ _ operand => expr o owned facing operand
  | .interpolatedString _ parts => interpolation o owned facing parts
  | .tuple _ elements => arguments o owned facing elements
  | .initializer _ shape elements => initializers o owned facing shape elements
  | .parenthesized _ inner => expr o owned facing inner
  | .arrayCreation _ _ sizes init =>
    exprs o owned facing sizes ++ match init with
      | some e => expr o owned facing e
      | none => []
  | .await _ operand => expr o owned facing operand
  | .implicitArrayCreation _ init => expr o owned facing init
  | .other id construct => [.unknown construct id]
  | .identifier .. | .genericName .. | .this _ | .base _ | .literal .. | .defaultValue ..
  | .predefinedType .. | .typeOf .. | .declaration .. => []

def exprs (o : Oracle) (owned facing : Bool) : List Expr → List Hurdle
  | [] => []
  | e :: es => expr o owned facing e ++ exprs o owned facing es

def arguments (o : Oracle) (owned facing : Bool) : List Argument → List Hurdle
  | [] => []
  | ⟨_,e⟩ :: args => expr o owned facing e ++ arguments o owned facing args

/-- The name of a member that an initializer sets is not looked at. -/
def initializers (o : Oracle) (owned facing : Bool) (shape : InitializerShape) :
    List Expr → List Hurdle
  | [] => []
  | e :: es =>
    (match shape, e with
      | .object, .assignment _ _ (.identifier _ _) value => expr o owned facing value
      | _, e => expr o owned facing e) ++ initializers o owned facing shape es

def interpolation (o : Oracle) (owned facing : Bool) : List InterpolationPart → List Hurdle
  | [] => []
  | .text _ :: parts => interpolation o owned facing parts
  | .expression e _ :: parts => expr o owned facing e ++ interpolation o owned facing parts

/-- A lambda has the hurdles of its body, but none is in the way of the lines around it. -/
def lambdaBody (o : Oracle) (owned facing : Bool) : LambdaBody → List Hurdle
  | .block statements => stmts o owned facing statements
  | .expression e => expr o owned facing e

def declarators (o : Oracle) (owned facing : Bool) : List Declarator → List Hurdle
  | [] => []
  | ⟨_,_,init⟩ :: ds =>
    (match init with
      | some e => expr o owned facing e
      | none => []) ++ declarators o owned facing ds

def headDeclarators (o : Oracle) (owned facing : Bool) : List Declarator → List Hurdle
  | [] => []
  | ⟨_,_,init⟩ :: ds =>
    (match init with
      | some e =>
        expr o owned facing e ++ [.barrier .forInitializer (Passed.expr o owned facing e)]
      | none => []) ++ headDeclarators o owned facing ds

/-- Expressions in the head of a loop, each behind the same barrier. -/
def headExprs (o : Oracle) (owned facing : Bool) (b : Barrier) : List Expr → List Hurdle
  | [] => []
  | e :: es =>
    expr o owned facing e ++ [.barrier b (Passed.expr o owned facing e)] ++
      headExprs o owned facing b es

def labels (o : Oracle) (owned facing : Bool) : List SwitchLabel → List Hurdle
  | [] => []
  | .case value :: ls =>
    expr o owned facing value ++ [.barrier .caseLabel (Passed.expr o owned facing value)] ++
      labels o owned facing ls
  | .default :: ls => labels o owned facing ls

def switchSections (o : Oracle) (owned facing : Bool) : List SwitchSection → List Hurdle
  | [] => []
  | ⟨ls,statements⟩ :: rest =>
    labels o owned facing ls ++ (stmts o owned facing statements ++
      switchSections o owned facing rest)

def catchClauses (o : Oracle) (owned facing : Bool) : List CatchClause → List Hurdle
  | [] => []
  | ⟨_,_,block⟩ :: rest => stmts o owned facing block ++ catchClauses o owned facing rest

/-- The hurdles in a statement. Beside a declaration, the expressions at the start of a loop and the
target of a resource are not looked at, nor is a target to lock that is a plain reference. -/
def stmt (o : Oracle) (owned facing : Bool) : Stmt → List Hurdle
  | .expression _ e => expr o owned facing e
  | .ret _ value | .throw _ value =>
    match value with
    | some e => expr o owned facing e
    | none => []
  | .locals _ ⟨_,ds⟩ => declarators o owned facing ds
  | .switch _ subject sections =>
    expr o owned facing subject ++ switchSections o owned facing sections
  | .block _ statements => stmts o owned facing statements
  | .ifElse _ condition thenBranch otherwise =>
    expr o owned facing condition ++ (stmt o owned facing thenBranch ++ match otherwise with
      | some s => stmt o owned facing s
      | none => [])
  | .forLoop _ declaration initializers condition incrementors body =>
    (match declaration with
      | some ⟨_,ds⟩ => headDeclarators o owned facing ds
      | none => headExprs o owned facing .forInitializer initializers) ++ ((match condition with
      | some e =>
        expr o owned facing e ++ [.barrier .forCondition (Passed.expr o owned facing e)]
      | none => []) ++ (headExprs o owned facing .forIncrementor incrementors ++
        stmt o owned facing body))
  | .whileLoop _ condition body => expr o owned facing condition ++ stmt o owned facing body
  | .doWhile _ body condition => expr o owned facing condition ++ stmt o owned facing body
  | .forEach _ _ _ iterable body => expr o owned facing iterable ++ stmt o owned facing body
  | .tryCatch _ block catches finallyBlock =>
    stmts o owned facing block ++ (catchClauses o owned facing catches ++ match finallyBlock with
      | some statements => stmts o owned facing statements
      | none => [])
  | .lock _ target body =>
    (if target.isPlainReference then [] else expr o owned facing target) ++
      stmt o owned facing body
  | .useResource _ declaration target body =>
    (match declaration, target with
      | some ⟨_,ds⟩, _ => declarators o owned facing ds
      | none, some e => expr o owned facing e
      | none, none => []) ++ stmt o owned facing body
  | .other id construct => [.unknown construct id]
  | .breakLoop _ | .continueLoop _ | .empty _ => []

def stmts (o : Oracle) (owned facing : Bool) : List Stmt → List Hurdle
  | [] => []
  | s :: ss => stmt o owned facing s ++ stmts o owned facing ss

end

def body (o : Oracle) (owned facing : Bool) : Body → List Hurdle
  | .block statements => stmts o owned facing statements
  | .expression e => expr o owned facing e

/-- The hurdles in a method or constructor; the call of another constructor comes first. -/
def routine (o : Oracle) (owned facing : Bool) (f : Routine) : List Hurdle :=
  (match f.chain with
    | some c => arguments o owned facing c.args
    | none => []) ++ match f.body with
    | some b => body o owned facing b
    | none => []

end Hurdle

end Recast
