import Recast.Lower.Routine

/-! # The trace of a body

What a body does with the names of its locals, event by event, in the order in which the body is
lowered: scopes begin and end, locals are declared and written. Read from left to right, the events
say to which local each written name belongs.
-/
namespace Recast

/-- A place that declares a local. -/
structure Site where
  name : String
  /-- Whether the local gets a value there; none if the place is no declaration of its own. -/
  valued : Option Bool := none
  deriving DecidableEq, Repr

inductive LocalEvent where
  /-- A scope begins. -/
  | enter
  /-- The scope that began last ends. -/
  | leave
  /-- From here on the name is that of a new local, which `ahead` others of the name precede that
  are yet to be declared. -/
  | reveal (name : String) (ahead : Nat)
  | declare (site : Site)
  /-- From here on the name is that of a parameter of a lambda. -/
  | hide (name : String)
  | write (name : String)
  deriving DecidableEq, Repr

namespace LocalEvent

def site? : LocalEvent → Option Site
  | .declare site => some site
  | _ => none

/-- The places that declare locals, in order. -/
def sites (events : List LocalEvent) : List Site := events.filterMap site?

@[simp] theorem sites_nil : sites [] = [] := rfl

@[simp] theorem sites_append (a b : List LocalEvent) : sites (a ++ b) = sites a ++ sites b :=
  List.filterMap_append

@[simp] theorem sites_ite (c : Prop) [Decidable c] (a b : List LocalEvent) :
    sites (if c then a else b) = if c then sites a else sites b := apply_ite sites c a b

/-- How many of the places declare a name. -/
def tally (name : String) (sites : List Site) : Nat := sites.countP fun site => site.name == name

/-- A local that is visible as soon as it is declared. -/
def introduce (site : Site) : List LocalEvent := [.reveal site.name 0,.declare site]

/-- A declaration with an initial value: the local is visible in the value, but the locals in the
value are declared first. -/
def initialized (name : String) (value : List LocalEvent) : List LocalEvent :=
  .reveal name (tally name (sites value)) :: value ++ [.declare { name, valued := some true }]

def inScope (events : List LocalEvent) : List LocalEvent := .enter :: events ++ [.leave]

def function (params : List LambdaParam) (body : List LocalEvent) : List LocalEvent :=
  inScope (params.map (fun p => .hide p.name) ++ body)

@[simp] theorem sites_introduce (site : Site) : sites (introduce site) = [site] := rfl

@[simp] theorem sites_initialized (name : String) (value : List LocalEvent) :
    sites (initialized name value) = sites value ++ [{ name, valued := some true }] := by
  change sites (value ++ [.declare { name, valued := some true }]) = _
  rw [sites_append]
  rfl

@[simp] theorem sites_inScope (events : List LocalEvent) :
    sites (inScope events) = sites events := by
  change sites (events ++ [.leave]) = _
  rw [sites_append]
  exact List.append_nil _

@[simp] theorem sites_function (params : List LambdaParam) (body : List LocalEvent) :
    sites (function params body) = sites body := by
  rw [function,sites_inScope,sites_append]
  simp [sites,site?,Function.comp_def]

end LocalEvent

mutual

/-- The names that are written if a value is assigned to the expression. -/
def Expr.targets : Expr → List String
  | .identifier _ name => [name]
  | .parenthesized _ inner => inner.targets
  | .tuple _ elements => targetsOf elements
  | _ => []

def targetsOf : List Argument → List String
  | [] => []
  | ⟨_,e⟩ :: args => e.targets ++ targetsOf args

end

namespace Trace
open LocalEvent

def writes (target : Expr) : List LocalEvent := target.targets.map .write

@[simp] theorem sites_writes (target : Expr) : sites (writes target) = [] := by
  simp [writes,sites,site?,Function.comp_def]

/-- An argument, given the trace of the expression that is passed. -/
def argument (passing : Passing) (e : Expr) (inner : List LocalEvent) : List LocalEvent :=
  match passing, e with
  | .byOut, .declaration _ _ name => introduce { name, valued := some true }
  | .byOut, _ | .byRef, _ => writes e ++ inner
  | _, _ => inner

theorem argument_byOut {e : Expr} (hd : ∀ id ty name, e ≠ .declaration id ty name)
    (inner : List LocalEvent) : argument .byOut e inner = writes e ++ inner := by
  cases e with
  | declaration id ty name => exact absurd rfl (hd id ty name)
  | _ => rfl

theorem argument_byValue {passing : Passing} (hout : passing ≠ .byOut) (href : passing ≠ .byRef)
    (e : Expr) (inner : List LocalEvent) : argument passing e inner = inner := by
  cases passing with
  | value | byIn => rfl
  | byOut => exact absurd rfl hout
  | byRef => exact absurd rfl href

mutual

def expr : Expr → List LocalEvent
  | .assignment _ _ target value => writes target ++ expr target ++ expr value
  | .memberAccess _ target name => expr target ++ expr name
  | .qualifiedName _ target name => expr target ++ expr name
  | .conditionalAccess _ target rest => expr target ++ expr rest
  | .memberBinding _ name => expr name
  | .invocation _ target args => expr target ++ arguments args
  | .elementAccess _ target args => expr target ++ arguments args
  | .objectCreation _ _ args init =>
    arguments args ++ match init with
      | some e => expr e
      | none => []
  | .binary _ _ left right => expr left ++ expr right
  | .simpleLambda _ param body => function [param] (lambdaBody body)
  | .parenthesizedLambda _ params body => function params (lambdaBody body)
  | .conditional _ condition whenTrue whenFalse =>
    expr condition ++ expr whenTrue ++ expr whenFalse
  | .cast _ _ operand => expr operand
  | .prefixUnary _ op operand => (if op.mutates then writes operand else []) ++ expr operand
  | .postfixUnary _ op operand => (if op.mutates then writes operand else []) ++ expr operand
  | .interpolatedString _ parts => interpolation parts
  | .tuple _ elements => arguments elements
  | .initializer _ shape elements => initializers shape elements
  | .parenthesized _ inner => expr inner
  | .arrayCreation _ _ sizes init =>
    exprs sizes ++ match init with
      | some e => expr e
      | none => []
  | .await _ operand => expr operand
  | .implicitArrayCreation _ init => expr init
  | .declaration _ _ name => introduce { name }
  | .identifier .. | .genericName .. | .this _ | .base _ | .literal .. | .defaultValue ..
  | .predefinedType .. | .typeOf .. | .other .. => []

def exprs : List Expr → List LocalEvent
  | [] => []
  | e :: es => expr e ++ exprs es

def arguments : List Argument → List LocalEvent
  | [] => []
  | ⟨passing,e⟩ :: args => argument passing e (expr e) ++ arguments args

/-- The name of a member that an initializer sets is not that of a local. -/
def initializers (shape : InitializerShape) : List Expr → List LocalEvent
  | [] => []
  | e :: es =>
    (match shape, e with
      | .object, .assignment _ _ (.identifier _ _) value => expr value
      | _, e => expr e) ++ initializers shape es

def interpolation : List InterpolationPart → List LocalEvent
  | [] => []
  | .text _ :: parts => interpolation parts
  | .expression e _ :: parts => expr e ++ interpolation parts

def lambdaBody : LambdaBody → List LocalEvent
  | .block statements => stmts statements
  | .expression e => expr e

def declarators : List Declarator → List LocalEvent
  | [] => []
  | ⟨_,name,init⟩ :: ds =>
    (match init with
      | some e => initialized name (expr e)
      | none => introduce { name, valued := some false }) ++ declarators ds

/-- In the head of a loop a local is declared before its initial value. -/
def headDeclarators : List Declarator → List LocalEvent
  | [] => []
  | ⟨_,name,init⟩ :: ds =>
    introduce { name } ++ (match init with
      | some e => expr e
      | none => []) ++ headDeclarators ds

def labels : List SwitchLabel → List LocalEvent
  | [] => []
  | .case value :: ls => expr value ++ labels ls
  | .default :: ls => labels ls

def switchSections : List SwitchSection → List LocalEvent
  | [] => []
  | ⟨ls,statements⟩ :: rest => labels ls ++ stmts statements ++ switchSections rest

def catchClauses : List CatchClause → List LocalEvent
  | [] => []
  | ⟨_,name,block⟩ :: rest =>
    inScope ((match name with
      | some name => introduce { name }
      | none => []) ++ stmts block) ++ catchClauses rest

def stmt : Stmt → List LocalEvent
  | .expression _ e => expr e
  | .ret _ value | .throw _ value =>
    match value with
    | some e => expr e
    | none => []
  | .locals _ ⟨_,ds⟩ => declarators ds
  | .switch _ subject sections => expr subject ++ inScope (switchSections sections)
  | .block _ statements => inScope (stmts statements)
  | .ifElse _ condition thenBranch otherwise =>
    expr condition ++ stmt thenBranch ++ match otherwise with
      | some s => stmt s
      | none => []
  | .forLoop _ declaration initializers condition incrementors body =>
    inScope ((match declaration with
      | some ⟨_,ds⟩ => headDeclarators ds
      | none => exprs initializers) ++ (match condition with
      | some e => expr e
      | none => []) ++ exprs incrementors ++ stmt body)
  | .whileLoop _ condition body => expr condition ++ stmt body
  | .doWhile _ body condition => expr condition ++ stmt body
  | .forEach _ _ name iterable body => expr iterable ++ inScope (introduce { name } ++ stmt body)
  | .tryCatch _ block catches finallyBlock =>
    inScope (stmts block) ++ catchClauses catches ++ match finallyBlock with
      | some statements => inScope (stmts statements)
      | none => []
  | .lock _ target body => (if target.isPlainReference then [] else expr target) ++ stmt body
  | .useResource _ declaration target body =>
    inScope ((match declaration, target with
      | some ⟨_,ds⟩, _ => declarators ds
      | none, some e => expr e
      | none, none => []) ++ stmt body)
  | .breakLoop _ | .continueLoop _ | .empty _ | .other .. => []

def stmts : List Stmt → List LocalEvent
  | [] => []
  | s :: ss => stmt s ++ stmts ss

end

def body : Body → List LocalEvent
  | .block statements => stmts statements
  | .expression e => expr e

/-- The trace of a method or constructor; the call of another constructor comes first. -/
def routine (f : Routine) : List LocalEvent :=
  (match f.chain with
    | some c => arguments c.args
    | none => []) ++ match f.body with
    | some b => body b
    | none => []

def accessor (v : Variable) : AccessorKind → List LocalEvent
  | .get =>
    match v.expressionBody, v.getBody with
    | some e, _ => body (.expression e)
    | none, some b => body b
    | none, none => []
  | .set | .init =>
    match v.setBody with
    | some b => body b
    | none => []

end Trace

/-- A local: its name, and how many locals of the name are declared before it. -/
abbrev LocalKey := String × Nat

/-- What is known after a part of a trace. -/
structure Usage where
  sites : List Site := []
  /-- What the visible names stand for, the innermost first. -/
  visible : List (String × Option Nat) := []
  /-- What was visible at the start of each scope around, the innermost first. -/
  outer : List (List (String × Option Nat)) := []
  /-- The locals that were written. -/
  written : List LocalKey := []

namespace Usage
open LocalEvent

/-- The local that a name stands for. -/
def resolve? (u : Usage) (name : String) : Option Nat :=
  (u.visible.find? fun v => v.1 == name).bind Prod.snd

def step (u : Usage) : LocalEvent → Usage
  | .enter => { u with outer := u.visible :: u.outer }
  | .leave =>
    match u.outer with
    | visible :: outer => { u with visible, outer }
    | [] => u
  | .reveal name ahead =>
    { u with visible := (name,some (tally name u.sites + ahead)) :: u.visible }
  | .declare site => { u with sites := u.sites ++ [site] }
  | .hide name => { u with visible := (name,none) :: u.visible }
  | .write name =>
    match u.resolve? name with
    | some occurrence => { u with written := u.written ++ [(name,occurrence)] }
    | none => u

def run (u : Usage) (events : List LocalEvent) : Usage := events.foldl step u

/-- The locals of a routine that its body writes after their declaration. -/
def writtenIn (f : Routine) : List LocalKey := (run {} (Trace.routine f)).written

end Usage

end Recast
