import Recast.Proofs.Locals.Agreement

/-! # What the scan comes to

The scan of a body is a walk over the scopes, declarations and writes in it, in the order in which
it comes to them. Where it returns is told by the statements alone, since a statement inside an
expression belongs to a lambda.
-/
namespace Recast

inductive Visit where
  | enter
  | leave
  | declare (name : String) (ty : Option TypeDesc)
  | write (name : String)
  deriving DecidableEq

namespace Visits
open Scan (localType?)

def inScope (visits : List Visit) : List Visit := .enter :: visits ++ [.leave]

/-- A write counts if its target is a plain name. -/
def writes : Expr → List Visit
  | .identifier _ name => [.write name]
  | _ => []

/-- What is passed by `out` or `ref` is written. -/
def passes (e : Expr) : Passing → List Visit
  | .byOut | .byRef => writes e
  | _ => []

mutual

def expr (o : Oracle) : Expr → List Visit
  | .assignment _ _ target value => writes target ++ expr o target ++ expr o value
  | .prefixUnary _ op operand => (if op.mutates then writes operand else []) ++ expr o operand
  | .postfixUnary _ op operand => (if op.mutates then writes operand else []) ++ expr o operand
  | .objectCreation _ _ args (some e) => arguments o args ++ expr o e
  | .objectCreation _ _ args none => arguments o args
  | .memberAccess _ target _ => expr o target
  | .invocation _ target args => expr o target ++ arguments o args
  | .elementAccess _ target args => expr o target ++ arguments o args
  | .binary _ _ left right => expr o left ++ expr o right
  | .simpleLambda _ _ body => inScope (lambdaBody o body)
  | .parenthesizedLambda _ _ body => inScope (lambdaBody o body)
  | .conditional _ condition whenTrue whenFalse =>
    expr o condition ++ expr o whenTrue ++ expr o whenFalse
  | .cast _ _ operand => expr o operand
  | .parenthesized _ inner => expr o inner
  | .await _ operand => expr o operand
  | .conditionalAccess _ target rest => expr o target ++ expr o rest
  | .interpolatedString _ parts => interpolation o parts
  | .tuple _ elements => arguments o elements
  | .initializer _ _ elements => exprs o elements
  | .arrayCreation _ _ sizes (some e) => exprs o sizes ++ expr o e
  | .arrayCreation _ _ sizes none => exprs o sizes
  | .implicitArrayCreation _ init => expr o init
  | .declaration id ty name => [.declare name (localType? o ty id)]
  | _ => []

def exprs (o : Oracle) : List Expr → List Visit
  | [] => []
  | e :: es => expr o e ++ exprs o es

def arguments (o : Oracle) : List Argument → List Visit
  | [] => []
  | ⟨passing, e⟩ :: args => passes e passing ++ expr o e ++ arguments o args

def interpolation (o : Oracle) : List InterpolationPart → List Visit
  | [] => []
  | .text _ :: parts => interpolation o parts
  | .expression e _ :: parts => expr o e ++ interpolation o parts

def lambdaBody (o : Oracle) : LambdaBody → List Visit
  | .block statements => stmts o statements
  | .expression e => expr o e

/-- A local is declared before its initial value is looked at. -/
def declarators (o : Oracle) (ty : Option SourceType) : List Declarator → List Visit
  | [] => []
  | ⟨id, name, some e⟩ :: ds =>
    .declare name (localType? o ty id) :: expr o e ++ declarators o ty ds
  | ⟨id, name, none⟩ :: ds => .declare name (localType? o ty id) :: declarators o ty ds

def stmt (o : Oracle) : Stmt → List Visit
  | .expression _ e => expr o e
  | .ret _ (some e) => expr o e
  | .locals _ ⟨ty, ds⟩ => declarators o ty ds
  | .switch _ subject sections => expr o subject ++ inScope (switchSections o sections)
  | .block _ statements => inScope (stmts o statements)
  | .throw _ (some e) => expr o e
  | .ifElse _ condition thenBranch (some s) =>
    expr o condition ++ stmt o thenBranch ++ stmt o s
  | .ifElse _ condition thenBranch none => expr o condition ++ stmt o thenBranch
  | .forLoop _ declaration initializers condition incrementors body =>
    let head := match declaration with
      | some ⟨ty, ds⟩ => declarators o ty ds
      | none => []
    let test := match condition with
      | some e => expr o e
      | none => []
    inScope (head ++ exprs o initializers ++ test ++ exprs o incrementors ++ stmt o body)
  | .whileLoop _ condition body => expr o condition ++ stmt o body
  | .doWhile _ body condition => expr o condition ++ stmt o body
  | .forEach id ty name iterable body =>
    expr o iterable ++ inScope (.declare name (localType? o ty id) :: stmt o body)
  | .tryCatch _ block catches (some statements) =>
    inScope (stmts o block) ++ catchClauses o catches ++ inScope (stmts o statements)
  | .tryCatch _ block catches none => inScope (stmts o block) ++ catchClauses o catches
  | .lock _ target body => expr o target ++ stmt o body
  | .useResource _ declaration target body =>
    let head := match declaration with
      | some ⟨ty, ds⟩ => declarators o ty ds
      | none => []
    let resource := match target with
      | some e => expr o e
      | none => []
    inScope (head ++ resource ++ stmt o body)
  | _ => []

def stmts (o : Oracle) : List Stmt → List Visit
  | [] => []
  | s :: ss => stmt o s ++ stmts o ss

def switchSections (o : Oracle) : List SwitchSection → List Visit
  | [] => []
  | ⟨_, statements⟩ :: rest => stmts o statements ++ switchSections o rest

def catchClauses (o : Oracle) : List CatchClause → List Visit
  | [] => []
  | ⟨ty, some name, block⟩ :: rest =>
    inScope (.declare name (ty.map .ofType) :: stmts o block) ++ catchClauses o rest
  | ⟨_, none, block⟩ :: rest => inScope (stmts o block) ++ catchClauses o rest

end

def body (o : Oracle) : Body → List Visit
  | .block statements => stmts o statements
  | .expression e => expr o e

end Visits

/-! ## The values that are returned -/

namespace Returned

mutual

/-- The values that a statement returns. -/
def stmt : Stmt → List Expr
  | .ret _ (some e) => [e]
  | .switch _ _ sections => switchSections sections
  | .block _ statements => stmts statements
  | .ifElse _ _ thenBranch (some s) => stmt thenBranch ++ stmt s
  | .ifElse _ _ thenBranch none => stmt thenBranch
  | .forLoop _ _ _ _ _ body => stmt body
  | .whileLoop _ _ body => stmt body
  | .doWhile _ body _ => stmt body
  | .forEach _ _ _ _ body => stmt body
  | .tryCatch _ block catches (some statements) =>
    stmts block ++ catchClauses catches ++ stmts statements
  | .tryCatch _ block catches none => stmts block ++ catchClauses catches
  | .lock _ _ body => stmt body
  | .useResource _ _ _ body => stmt body
  | _ => []

def stmts : List Stmt → List Expr
  | [] => []
  | s :: ss => stmt s ++ stmts ss

def switchSections : List SwitchSection → List Expr
  | [] => []
  | ⟨_, statements⟩ :: rest => stmts statements ++ switchSections rest

def catchClauses : List CatchClause → List Expr
  | [] => []
  | ⟨_, _, block⟩ :: rest => stmts block ++ catchClauses rest

end

/-- The values that a body returns; one that is an expression returns it if a value is asked for. -/
def body (returnsValue : Bool) : Body → List Expr
  | .block statements => stmts statements
  | .expression e => if returnsValue then [e] else []

/-- The types that the oracle knows for some values, none of them in a lambda. -/
def types (o : Oracle) : Bool → List Expr → List TypeDesc
  | true, _ => []
  | false, values => values.filterMap fun e => (o.typeOf? e.id).map .ofType

theorem types_nil (o : Oracle) (l : Bool) : types o l [] = [] := by
  cases l <;> rfl

theorem types_append (o : Oracle) (l : Bool) (xs ys : List Expr) :
    types o l (xs ++ ys) = types o l xs ++ types o l ys := by
  cases l with
  | true => rfl
  | false => exact List.filterMap_append

end Returned

/-! ## The scan as a walk -/

/-- The scan at some point, with what was visible at the start of each open scope, the innermost
scope first. -/
structure Walk where
  scan : Scan := {}
  outer : List (List Nat) := []

namespace Walk

def step (w : Walk) : Visit → Walk
  | .enter => { w with outer := w.scan.visible :: w.outer }
  | .leave => { scan := { w.scan with visible := w.outer.headD [] }, outer := w.outer.tail }
  | .declare name ty => { w with scan := w.scan.declare name ty }
  | .write name => { w with scan := w.scan.write (.identifier 0 name) }

def run (w : Walk) (visits : List Visit) : Walk := visits.foldl step w

theorem run_append (w : Walk) (a b : List Visit) : w.run (a ++ b) = (w.run a).run b :=
  List.foldl_append

end Walk

namespace Scan

/-- A scan without what it has recorded of the returned values. -/
def bare (s : Scan) : Scan := { s with returns := [] }

theorem write_identifier_none {s : Scan} {name : String} (h : s.innermost? name = none)
    (id : NodeId) : s.write (.identifier id name) = s := by
  dsimp only [write]
  rw [h]

theorem write_bare (s : Scan) (id : NodeId) (name : String) :
    s.bare.write (.identifier 0 name) = (s.write (.identifier id name)).bare := by
  cases h : s.innermost? name with
  | none => rw [write_identifier_none h, write_identifier_none (s := s.bare) h]
  | some i =>
    rw [write_identifier h, write_identifier (s := s.bare) h]
    rfl

theorem returns_write (s : Scan) (target : Expr) : (s.write target).returns = s.returns := by
  rcases s.write_cases target with h | ⟨i, h⟩
  · rw [h]
  · rw [h]
    rfl

theorem visible_leave {s t : Scan} (h : s.visible <+: t.visible) :
    (leave s t).visible = s.visible := (List.prefix_iff_eq_take.mp h).symm

end Scan

/-- A step of the scan is a walk over some visits that ends in the scope in which it starts, and
records some returned values. -/
structure Walks (o : Oracle) (l : Bool) (visits : List Visit) (values : List Expr)
    (scan : Scan → Scan) : Prop where
  run : ∀ s outer, Walk.run ⟨s.bare, outer⟩ visits = ⟨(scan s).bare, outer⟩
  returns : ∀ s, (scan s).returns = s.returns ++ Returned.types o l values
  visible : ∀ s, s.visible <+: (scan s).visible

namespace Walks
variable {o : Oracle} {l : Bool} {a b : List Visit} {x y : List Expr} {f g : Scan → Scan}

theorem empty : Walks o l [] [] id where
  run _ _ := rfl
  returns s := by simp [Returned.types_nil]
  visible _ := List.prefix_rfl

theorem append (ha : Walks o l a x f) (hb : Walks o l b y g) :
    Walks o l (a ++ b) (x ++ y) fun s => g (f s) where
  run s outer := by rw [Walk.run_append, ha.run, hb.run]
  returns s := by rw [hb.returns, ha.returns, Returned.types_append, List.append_assoc]
  visible s := (ha.visible s).trans (hb.visible (f s))

/-- Leaving the scope takes away what was declared in it and nothing else. -/
theorem inScope (ha : Walks o l a x f) :
    Walks o l (Visits.inScope a) x fun s => Scan.leave s (f s) where
  run s outer := by
    have hleave := Scan.visible_leave (ha.visible s)
    change Walk.run ⟨s.bare, s.visible :: outer⟩ (a ++ [.leave]) = _
    rw [Walk.run_append, ha.run]
    change Walk.mk { (f s).bare with visible := s.visible } outer = _
    rw [← hleave]
    rfl
  returns := ha.returns
  visible s := (Scan.visible_leave (ha.visible s)).symm ▸ List.prefix_rfl

theorem declare (name : String) (ty : Option TypeDesc) :
    Walks o l [.declare name ty] [] (Scan.declare name ty) where
  run _ _ := rfl
  returns s := by simp [Returned.types_nil, Scan.declare]
  visible _ := List.prefix_append _ _

theorem writes (target : Expr) : Walks o l (Visits.writes target) [] (Scan.write target) where
  run s outer := by
    cases target with
    | identifier id name => exact congrArg (Walk.mk · outer) (s.write_bare id name)
    | _ => rfl
  returns s := by rw [s.returns_write, Returned.types_nil, List.append_nil]
  visible s := (s.grows_write target).visible

theorem mutates (mutates : Bool) (target : Expr) :
    Walks o l (if mutates then Visits.writes target else []) []
      fun s => if mutates then s.write target else s := by
  cases mutates with
  | true => exact writes target
  | false => exact empty

theorem giveBack (value : Expr) : Walks o l [] [value] (Scan.giveBack o l value) := by
  cases l with
  | true => exact ⟨fun _ _ => rfl, fun _ => (List.append_nil _).symm, fun _ => List.prefix_rfl⟩
  | false =>
    cases h : o.typeOf? value.id with
    | none => constructor <;> simp [Scan.giveBack, Returned.types, h, Walk.run]
    | some ty => constructor <;> simp [Scan.giveBack, Returned.types, h, Walk.run, Scan.bare]

/-- What a lambda returns is not recorded. -/
theorem lambda (ha : Walks o true a x f) : Walks o l a [] f where
  run := ha.run
  returns s := by
    rw [Returned.types_nil]
    exact ha.returns s
  visible := ha.visible

theorem argument (passing : Passing) {e : Expr} {args : List Argument}
    (he : Walks o l (Visits.expr o e) [] (Scan.expr o l e))
    (hargs : Walks o l (Visits.arguments o args) [] (Scan.arguments o l args)) :
    Walks o l (Visits.arguments o (⟨passing, e⟩ :: args)) []
      (Scan.arguments o l (⟨passing, e⟩ :: args)) := by
  cases passing with
  | value | byIn => exact he.append hargs
  | byRef => exact ((writes e).append he).append hargs
  | byOut =>
    have hwritten := ((writes e).append he).append hargs
    cases e <;> exact hwritten

mutual

theorem expr (o : Oracle) : ∀ (l : Bool) (e : Expr),
    Walks o l (Visits.expr o e) [] (Scan.expr o l e)
  | l, .assignment _ _ target value =>
    ((writes target).append (expr o l target)).append (expr o l value)
  | l, .prefixUnary _ op operand => (mutates op.mutates operand).append (expr o l operand)
  | l, .postfixUnary _ op operand => (mutates op.mutates operand).append (expr o l operand)
  | l, .objectCreation _ _ args (some e) => (arguments o l args).append (expr o l e)
  | l, .objectCreation _ _ args none => arguments o l args
  | l, .memberAccess _ target _ => expr o l target
  | l, .invocation _ target args => (expr o l target).append (arguments o l args)
  | l, .elementAccess _ target args => (expr o l target).append (arguments o l args)
  | l, .binary _ _ left right => (expr o l left).append (expr o l right)
  | l, .simpleLambda _ _ body => (lambdaBody o l body).inScope
  | l, .parenthesizedLambda _ _ body => (lambdaBody o l body).inScope
  | l, .conditional _ condition whenTrue whenFalse =>
    ((expr o l condition).append (expr o l whenTrue)).append (expr o l whenFalse)
  | l, .cast _ _ operand => expr o l operand
  | l, .parenthesized _ inner => expr o l inner
  | l, .await _ operand => expr o l operand
  | l, .conditionalAccess _ target rest => (expr o l target).append (expr o l rest)
  | l, .interpolatedString _ parts => interpolation o l parts
  | l, .tuple _ elements => arguments o l elements
  | l, .initializer _ _ elements => exprs o l elements
  | l, .arrayCreation _ _ sizes (some e) => (exprs o l sizes).append (expr o l e)
  | l, .arrayCreation _ _ sizes none => exprs o l sizes
  | l, .implicitArrayCreation _ init => expr o l init
  | _, .declaration _ _ name => declare name _
  | _, .identifier .. | _, .this _ | _, .literal .. | _, .genericName .. | _, .memberBinding ..
  | _, .defaultValue .. | _, .predefinedType .. | _, .base _ | _, .typeOf .. | _, .qualifiedName ..
  | _, .other .. => empty

theorem exprs (o : Oracle) : ∀ (l : Bool) (es : List Expr),
    Walks o l (Visits.exprs o es) [] (Scan.exprs o l es)
  | _, [] => empty
  | l, e :: es => (expr o l e).append (exprs o l es)

theorem arguments (o : Oracle) : ∀ (l : Bool) (args : List Argument),
    Walks o l (Visits.arguments o args) [] (Scan.arguments o l args)
  | _, [] => empty
  | l, ⟨passing, e⟩ :: args => argument passing (expr o l e) (arguments o l args)

theorem interpolation (o : Oracle) : ∀ (l : Bool) (parts : List InterpolationPart),
    Walks o l (Visits.interpolation o parts) [] (Scan.interpolation o l parts)
  | _, [] => empty
  | l, .text _ :: parts => interpolation o l parts
  | l, .expression e _ :: parts => (expr o l e).append (interpolation o l parts)

theorem lambdaBody (o : Oracle) : ∀ (l : Bool) (body : LambdaBody),
    Walks o l (Visits.lambdaBody o body) [] (Scan.lambdaBody o body)
  | _, .block statements => (stmts o true statements).lambda
  | _, .expression e => (expr o true e).lambda

theorem declarators (o : Oracle) : ∀ (l : Bool) (ty : Option SourceType) (ds : List Declarator),
    Walks o l (Visits.declarators o ty ds) [] (Scan.declarators o l ty ds)
  | _, _, [] => empty
  | l, ty, ⟨_, name, some e⟩ :: ds =>
    ((declare name _).append (expr o l e)).append (declarators o l ty ds)
  | l, ty, ⟨_, name, none⟩ :: ds => (declare name _).append (declarators o l ty ds)

theorem stmt (o : Oracle) : ∀ (l : Bool) (s : Stmt),
    Walks o l (Visits.stmt o s) (Returned.stmt s) (Scan.stmt o l s)
  | l, .expression _ e => expr o l e
  | l, .ret _ (some e) => (giveBack e).append (expr o l e)
  | l, .locals _ ⟨ty, ds⟩ => declarators o l ty ds
  | l, .switch _ subject sections =>
    (expr o l subject).append (switchSections o l sections).inScope
  | l, .block _ statements => (stmts o l statements).inScope
  | l, .throw _ (some e) => expr o l e
  | l, .ifElse _ condition thenBranch (some s) =>
    ((expr o l condition).append (stmt o l thenBranch)).append (stmt o l s)
  | l, .ifElse _ condition thenBranch none => (expr o l condition).append (stmt o l thenBranch)
  | l, .forLoop _ (some ⟨ty, ds⟩) inits (some e) incrementors body =>
    (((((declarators o l ty ds).append (exprs o l inits)).append (expr o l e)).append
      (exprs o l incrementors)).append (stmt o l body)).inScope
  | l, .forLoop _ (some ⟨ty, ds⟩) inits none incrementors body =>
    (((((declarators o l ty ds).append (exprs o l inits)).append empty).append
      (exprs o l incrementors)).append (stmt o l body)).inScope
  | l, .forLoop _ none inits (some e) incrementors body =>
    ((((empty.append (exprs o l inits)).append (expr o l e)).append
      (exprs o l incrementors)).append (stmt o l body)).inScope
  | l, .forLoop _ none inits none incrementors body =>
    ((((empty.append (exprs o l inits)).append empty).append
      (exprs o l incrementors)).append (stmt o l body)).inScope
  | l, .whileLoop _ condition body => (expr o l condition).append (stmt o l body)
  | l, .doWhile _ body condition => (expr o l condition).append (stmt o l body)
  | l, .forEach _ _ name iterable body =>
    (expr o l iterable).append ((declare name _).append (stmt o l body)).inScope
  | l, .tryCatch _ block catches (some statements) =>
    ((stmts o l block).inScope.append (catchClauses o l catches)).append
      (stmts o l statements).inScope
  | l, .tryCatch _ block catches none =>
    (stmts o l block).inScope.append (catchClauses o l catches)
  | l, .lock _ target body => (expr o l target).append (stmt o l body)
  | l, .useResource _ (some ⟨ty, ds⟩) (some e) body =>
    (((declarators o l ty ds).append (expr o l e)).append (stmt o l body)).inScope
  | l, .useResource _ (some ⟨ty, ds⟩) none body =>
    (((declarators o l ty ds).append empty).append (stmt o l body)).inScope
  | l, .useResource _ none (some e) body =>
    ((empty.append (expr o l e)).append (stmt o l body)).inScope
  | l, .useResource _ none none body => ((empty.append empty).append (stmt o l body)).inScope
  | _, .ret _ none | _, .throw _ none | _, .breakLoop _ | _, .continueLoop _ | _, .empty _
  | _, .other .. => empty

theorem stmts (o : Oracle) : ∀ (l : Bool) (ss : List Stmt),
    Walks o l (Visits.stmts o ss) (Returned.stmts ss) (Scan.stmts o l ss)
  | _, [] => empty
  | l, s :: ss => (stmt o l s).append (stmts o l ss)

theorem switchSections (o : Oracle) : ∀ (l : Bool) (sections : List SwitchSection),
    Walks o l (Visits.switchSections o sections) (Returned.switchSections sections)
      (Scan.switchSections o l sections)
  | _, [] => empty
  | l, ⟨_, statements⟩ :: rest => (stmts o l statements).append (switchSections o l rest)

theorem catchClauses (o : Oracle) : ∀ (l : Bool) (clauses : List CatchClause),
    Walks o l (Visits.catchClauses o clauses) (Returned.catchClauses clauses)
      (Scan.catchClauses o l clauses)
  | _, [] => empty
  | l, ⟨_, some name, block⟩ :: rest =>
    ((declare name _).append (stmts o l block)).inScope.append (catchClauses o l rest)
  | l, ⟨_, none, block⟩ :: rest => (stmts o l block).inScope.append (catchClauses o l rest)

end

/-- The scan of a body is a walk from the start. -/
theorem body (o : Oracle) (returnsValue : Bool) (b : Body) :
    ∃ f, Walks o false (Visits.body o b) (Returned.body returnsValue b) f ∧
      Scan.body o returnsValue b = f {} := by
  cases b with
  | block statements => exact ⟨_, stmts o false statements, rfl⟩
  | expression e =>
    cases returnsValue with
    | true => exact ⟨_, (giveBack e).append (expr o false e), rfl⟩
    | false => exact ⟨_, expr o false e, rfl⟩

end Walks

end Recast
