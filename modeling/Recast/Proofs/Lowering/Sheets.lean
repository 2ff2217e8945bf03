import Recast.Proofs.Lowering.Boxes
import Recast.Proofs.Lowering.Courses

/-! # Sheets

What each expression and statement does under a name, read off the syntax: in the order of
evaluation, and in the order in which it is written. The two are kept together, with the proof that
what is written is also evaluated and that only single pieces can be out of order.
-/
namespace Recast

/-- An expression: the lines before the statement, the code, the lines after the statement. -/
structure Sheet where
  before : List Mark := []
  code : List Mark := []
  after : List Mark := []
  /-- What is done by the call that it is an argument of. -/
  pending : List Mark := []
  course : Course := .does []
  covers : before ++ code ++ after ⊆ course.marks ++ pending := by exact List.nil_subset _

namespace Sheet

def all (s : Sheet) : List Mark := s.before ++ s.code ++ s.after

instance : Append Sheet where
  append a b := {
    before := a.before ++ b.before
    code := a.code ++ b.code
    after := a.after ++ b.after
    pending := a.pending ++ b.pending
    course := .seq a.course b.course
    covers := by
      intro m hm
      have ha := @a.covers m
      have hb := @b.covers m
      simp only [Course.marks, List.mem_append] at ha hb hm ⊢
      grind }

def writes (ms : List Mark) : Sheet where
  code := ms
  course := .does ms
  covers := by simp [Course.marks]

/-- Written behind the statement. -/
def trails (ms : List Mark) : Sheet where
  after := ms
  course := .does ms
  covers := by simp [Course.marks]

/-- Written behind the statement, and done by the call. -/
def awaits (ms : List Mark) : Sheet where
  after := ms
  pending := ms
  covers := by simp

/-- The call takes place. -/
def called (s : Sheet) : Sheet where
  before := s.before
  code := s.code
  after := s.after
  course := .seq s.course (.does s.pending)
  covers := List.append_nil _ ▸ s.covers

/-- Evaluated, but not written. -/
def lost (s : Sheet) : Sheet where
  pending := s.pending
  course := s.course

/-- Only the lines are written, not the code. -/
def uncoded (s : Sheet) : Sheet where
  before := s.before
  after := s.after
  pending := s.pending
  course := s.course
  covers := by
    intro m hm
    refine s.covers ?_
    simp only [List.mem_append] at hm ⊢
    grind

/-- In a box: a line after the statement writes it back, and with a value a line before it reads
it. -/
def boxed (s : Sheet) (withValue : Bool) : Sheet where
  before := s.before ++ if withValue then s.code else []
  after := s.code ++ s.after
  pending := s.pending
  course := s.course
  covers := by
    intro m hm
    refine s.covers ?_
    cases withValue <;> simp only [List.mem_append] at hm ⊢ <;> grind

section
variable (a b s : Sheet) (ms : List Mark)

@[simp] theorem before_append : (a ++ b).before = a.before ++ b.before := rfl
@[simp] theorem code_append : (a ++ b).code = a.code ++ b.code := rfl
@[simp] theorem after_append : (a ++ b).after = a.after ++ b.after := rfl
@[simp] theorem before_writes : (writes ms).before = [] := rfl
@[simp] theorem code_writes : (writes ms).code = ms := rfl
@[simp] theorem after_writes : (writes ms).after = [] := rfl
@[simp] theorem all_writes : (writes ms).all = ms := List.append_nil ms

end

end Sheet

/-- A statement: the pieces in which it is written, one for each line with the lines around it. -/
structure Plan where
  pieces : List (List Mark) := []
  course : Course := .does []
  fits : course.Fits pieces := by exact .none _

namespace Plan

def marks (p : Plan) : List Mark := p.pieces.flatten

/-- An expression in a statement, which may be left out. -/
def statement (s : Sheet) (written : Bool) : Plan where
  pieces := if written then [s.all] else []
  course := s.called.course
  fits := by
    cases written with
    | true => exact .one s.covers
    | false => exact .none _

def piece (s : Sheet) : Plan := statement s true

def seq (p q : Plan) : Plan where
  pieces := p.pieces ++ q.pieces
  course := .seq p.course q.course
  fits := p.fits.seq q.fits

def scope (p : Plan) : Plan where
  pieces := p.pieces
  course := .scope p.course
  fits := p.fits.scope

/-- A loop with a head that is written before the body; a part of it is evaluated behind it. -/
def loop (head last : Sheet) (body : Plan) : Plan where
  pieces := (head ++ last).all :: body.pieces
  course := .seq head.called.course (.seq (.scope body.course) last.called.course)
  fits := by
    refine body.fits.around fun m hm => ?_
    have hh := @head.called.covers m
    have hl := @last.called.covers m
    simp only [Sheet.all, Sheet.called, Sheet.before_append, Sheet.code_append, Sheet.after_append,
      List.mem_append] at hh hl hm ⊢
    grind

@[simp] theorem marks_piece (s : Sheet) : (piece s).marks = s.all := List.append_nil _
@[simp] theorem marks_scope (p : Plan) : p.scope.marks = p.marks := rfl
@[simp] theorem marks_seq (p q : Plan) : (p.seq q).marks = p.marks ++ q.marks :=
  List.flatten_append

end Plan

/-- A body in the place of an expression, as that of a lambda. -/
def Sheet.ofPlan (p : Plan) : Sheet where
  code := p.marks
  course := .scope p.course
  covers := by simpa [Course.marks, Plan.marks] using p.fits.covered

namespace Surroundings
variable (env : Surroundings) (k : SoughtName)

def typeMarks (ty : SourceType) : List Mark := k.clashes (env.tables.spell (.ofType ty)).text

def explicitMarks (ty : Option SourceType) : List Mark :=
  (SourceType.explicit? ty).elim [] (env.typeMarks k)

/-- The class of a new object; that of an array is not written. -/
def createdMarks (ty : SourceType) : List Mark :=
  let text := (env.tables.spell (.ofType ty)).text
  if Text.endsWith text "[]" then k.clashes text else k.created text

/-- The marks of a name that the oracle knows, which `facing` stands behind a dot. -/
def symbolMarks (facing : Bool) (symbol : Symbol) (name : String) : List Mark :=
  match symbol.kind with
  | .localVar | .parameter => if facing then k.accessed name else k.mentioned name
  | .field | .property | .event | .method =>
    (if symbol.isStatic then k.qualified else []) ++ k.accessed name
  | .constructor | .namespaceName | .type => k.clashes name

/-- A name stands for a local only in front of a dot, and only if the oracle does not say
otherwise. -/
def nameMarks (facing : Bool) (id : NodeId) (name : String) : List Mark :=
  match env.oracle.symbolOf? id with
  | some symbol => symbolMarks k facing symbol name
  | none => if facing then k.accessed name else k.qualified ++ k.mentioned name

def paramMarks (p : LambdaParam) : List Mark := k.clashes p.name ++ env.explicitMarks k p.ty

/-- An argument of a call, given the sheet of the expression that is passed. -/
def argumentSheet (passing : Passing) (e : Expr) (inner : Sheet) : Sheet :=
  match passing, e with
  | .byOut, .declaration _ ty name => .awaits (k.declared name ++ env.explicitMarks k ty)
  | .byOut, _ => inner.boxed false
  | .byRef, _ => inner.boxed true
  | _, _ => inner

end Surroundings

/-- The expression starts with the name of a member of what stands before it. -/
def Expr.isBinding : Expr → Bool
  | .memberBinding .. => true
  | .memberAccess _ target _ | .conditionalAccess _ target _ | .invocation _ target _
  | .elementAccess _ target _ => target.isBinding
  | _ => false

/-- Anything else runs together with what stands before it. -/
def Expr.gluedMarks (e : Expr) : List Mark := if e.isBinding then [] else [.clashes]

/-- Behind a text of an interpolated string no other may follow, or they run together. -/
def InterpolationPart.gluedMarks : List InterpolationPart → List Mark
  | .text _ :: _ => [.clashes]
  | .expression .. :: _ | [] => []

section
variable (env : Surroundings) (k : SoughtName) (owned : Bool)

mutual

/-- The sheet of an expression, which `facing` stands behind a dot. What is looked up in something
of which nothing is left is written alone. -/
def Sheet.expr (facing : Bool) : Expr → Sheet
  | .assignment _ _ target value => Sheet.expr facing target ++ Sheet.expr facing value
  | .identifier id name => .writes (env.nameMarks k facing id name)
  | .genericName id name typeArgs =>
    .writes (env.nameMarks k facing id name ++ typeArgs.flatMap (env.typeMarks k))
  | .memberAccess _ target name | .qualifiedName _ target name =>
    if target.vanishes env.oracle facing then
      (Sheet.expr facing target).lost ++ Sheet.expr facing name
    else Sheet.expr facing target ++ Sheet.expr owned name
  | .conditionalAccess _ target rest =>
    Sheet.expr facing target ++ .writes rest.gluedMarks ++ Sheet.expr facing rest
  | .memberBinding _ name => Sheet.expr owned name
  | .invocation _ target args | .elementAccess _ target args =>
    Sheet.expr facing target ++ (Sheet.arguments facing args).called
  | .objectCreation _ ty args init =>
    let passed := (Sheet.arguments facing args).called
    -- The arguments of a new array are not written.
    .writes (env.createdMarks k ty) ++
      (if Text.endsWith (env.tables.spell (.ofType ty)).text "[]" then passed.uncoded
        else passed) ++
      (match init with
        | some e => Sheet.expr facing e
        | none => {})
  | .literal _ kind text => .writes (k.clashes (env.dialect.literal kind text))
  | .binary _ _ left right => Sheet.expr facing left ++ Sheet.expr facing right
  | .simpleLambda _ param body =>
    .writes ([param].flatMap (env.paramMarks k)) ++ Sheet.lambdaBody facing body
  | .parenthesizedLambda _ params body =>
    .writes (params.flatMap (env.paramMarks k)) ++ Sheet.lambdaBody facing body
  | .conditional _ condition whenTrue whenFalse =>
    Sheet.expr facing condition ++ Sheet.expr facing whenTrue ++ Sheet.expr facing whenFalse
  | .cast _ ty operand => Sheet.expr facing operand ++ .writes (env.typeMarks k ty)
  | .prefixUnary _ _ operand | .postfixUnary _ _ operand | .await _ operand
  | .parenthesized _ operand | .implicitArrayCreation _ operand => Sheet.expr facing operand
  | .interpolatedString _ parts => Sheet.interpolation facing parts
  | .predefinedType _ name => .writes (env.typeMarks k (.predefined name))
  | .tuple _ elements => (Sheet.arguments facing elements).called
  | .initializer _ shape elements => Sheet.initializers facing shape elements
  | .arrayCreation _ element sizes (some init) =>
    .writes (env.typeMarks k element) ++ (Sheet.exprs facing sizes).uncoded ++
      Sheet.expr facing init
  | .arrayCreation _ element (size :: sizes) none =>
    -- Only the first size is written.
    .writes (env.typeMarks k element) ++ Sheet.expr facing size ++
      (Sheet.exprs facing sizes).uncoded
  | .arrayCreation _ element [] none => .writes (env.typeMarks k element)
  | .typeOf _ ty => .writes (env.typeMarks k ty)
  | .declaration _ _ name => .writes (k.clashes name)
  | .this _ | .base _ | .defaultValue .. | .other .. => {}

def Sheet.exprs (facing : Bool) : List Expr → Sheet
  | [] => {}
  | e :: es => Sheet.expr facing e ++ Sheet.exprs facing es

def Sheet.arguments (facing : Bool) : List Argument → Sheet
  | [] => {}
  | ⟨passing,e⟩ :: args =>
    env.argumentSheet k passing e (Sheet.expr facing e) ++ Sheet.arguments facing args

def Sheet.initializers (facing : Bool) (shape : InitializerShape) : List Expr → Sheet
  | [] => {}
  | e :: es =>
    (match shape, e with
      | .object, .assignment _ _ (.identifier _ name) value =>
        .writes (k.accessed name) ++ Sheet.expr facing value
      | _, e => Sheet.expr facing e) ++ Sheet.initializers facing shape es

def Sheet.interpolation (facing : Bool) : List InterpolationPart → Sheet
  | [] => {}
  | .text text :: parts =>
    .writes (k.clashes text ++ InterpolationPart.gluedMarks parts) ++
      Sheet.interpolation facing parts
  | .expression e _ :: parts => Sheet.expr facing e ++ Sheet.interpolation facing parts

def Sheet.lambdaBody (facing : Bool) : LambdaBody → Sheet
  | .block statements => .ofPlan (Plan.stmts facing statements)
  | .expression e => .ofPlan (.piece (Sheet.expr facing e))

/-- The declarations in the head of a loop. -/
def Sheet.heads (facing : Bool) : List Declarator → Sheet
  | [] => {}
  | ⟨_,name,init⟩ :: ds =>
    .writes (k.clashes name) ++
      (match init with
        | some e => Sheet.expr facing e
        | none => {}) ++ Sheet.heads facing ds

/-- Locals of a type with the marks. -/
def Plan.declarators (facing : Bool) (ty : List Mark) : List Declarator → Plan
  | [] => {}
  | ⟨_,name,init⟩ :: ds =>
    (Plan.piece (.writes (k.clashes name ++ ty) ++
      (match init with
        | some e => Sheet.expr facing e
        | none => {}))).seq (Plan.declarators facing ty ds)

def Plan.labels (facing : Bool) : List SwitchLabel → Plan
  | [] => {}
  | .case value :: ls => (Plan.piece (Sheet.expr facing value)).seq (Plan.labels facing ls)
  | .default :: ls => Plan.labels facing ls

def Plan.switchSections (facing : Bool) : List SwitchSection → Plan
  | [] => {}
  | ⟨ls,statements⟩ :: rest =>
    ((Plan.labels facing ls).seq (Plan.stmts facing statements)).scope.seq
      (Plan.switchSections facing rest)

def Plan.catchClauses (facing : Bool) : List CatchClause → Plan
  | [] => {}
  | ⟨_,name,block⟩ :: rest =>
    ((Plan.piece (.writes (name.elim [] k.clashes))).seq (Plan.stmts facing block)).scope.seq
      (Plan.catchClauses facing rest)

/-- The plan of a statement. What is declared in the head of a loop or of a block with a resource is
visible only there, what is declared in any other head also behind it. -/
def Plan.stmt (facing : Bool) : Stmt → Plan
  | .expression _ e => .statement (Sheet.expr facing e) (!e.vanishes env.oracle facing)
  | .ret _ value | .throw _ value =>
    match value with
    | some e => .piece (Sheet.expr facing e)
    | none => {}
  | .locals _ ⟨ty,ds⟩ => Plan.declarators facing (env.explicitMarks k ty) ds
  | .switch _ subject sections =>
    (Plan.piece (Sheet.expr facing subject)).seq (Plan.switchSections facing sections)
  | .block _ statements => (Plan.stmts facing statements).scope
  | .ifElse _ condition thenBranch otherwise =>
    (Plan.piece (Sheet.expr facing condition)).seq ((Plan.stmt facing thenBranch).scope.seq
      (match otherwise with
        | some s => (Plan.stmt facing s).scope
        | none => {}))
  | .forLoop _ declaration initializers condition incrementors body =>
    let start := match declaration with
      | some ⟨_,ds⟩ => Sheet.heads facing ds
      | none => Sheet.exprs facing initializers
    let test := match condition with
      | some e => Sheet.expr facing e
      | none => {}
    (Plan.loop (start ++ test) (Sheet.exprs facing incrementors) (Plan.stmt facing body)).scope
  | .whileLoop _ condition body =>
    ((Plan.piece (Sheet.expr facing condition)).seq (Plan.stmt facing body).scope).scope
  | .doWhile _ body condition =>
    -- A condition with lines of its own is written before the body.
    if (Passed.delivered (Passed.expr env.oracle owned facing condition)).isEmpty then
      ((Plan.stmt facing body).scope.seq (.piece (Sheet.expr facing condition))).scope
    else (Plan.loop {} (Sheet.expr facing condition) (Plan.stmt facing body)).scope
  | .forEach _ _ name iterable body =>
    ((Plan.piece (Sheet.expr facing iterable ++ .trails (k.clashes name))).seq
      (Plan.stmt facing body).scope).scope
  | .tryCatch _ block catches finallyBlock =>
    (Plan.stmts facing block).scope.seq ((Plan.catchClauses facing catches).seq
      (match finallyBlock with
        | some statements => (Plan.stmts facing statements).scope
        | none => {}))
  | .lock _ target body =>
    (Plan.statement (Sheet.expr facing target)
      (!target.isPlainReference && !target.vanishes env.oracle facing)).seq
      (Plan.stmt facing body).scope
  | .useResource _ (some ⟨ty,ds⟩) _ body =>
    ((Plan.declarators facing (env.explicitMarks k ty) ds).seq ((Plan.stmt facing body).scope.seq
      (.piece (.writes ((ds.map Declarator.name).reverse.flatMap k.clashes))))).scope
  | .useResource _ none (some e) body =>
    ((Plan.piece (Sheet.expr facing e)).seq (Plan.stmt facing body).scope).scope
  | .useResource _ none none body => (Plan.stmt facing body).scope
  | .breakLoop _ | .continueLoop _ | .empty _ | .other .. => {}

def Plan.stmts (facing : Bool) : List Stmt → Plan
  | [] => {}
  | s :: ss => (Plan.stmt facing s).seq (Plan.stmts facing ss)

end

/-- The body of a routine, whose value may be returned. -/
def Plan.body (facing returns : Bool) : Body → Plan
  | .block statements => Plan.stmts env k owned facing statements
  | .expression e =>
    .statement (Sheet.expr env k owned facing e) (returns || !e.vanishes env.oracle facing)

/-- A method or constructor; the call of another constructor comes first. -/
def Plan.routine (facing : Bool) (f : Routine) : Plan :=
  (match f.chain with
    | some c => Plan.piece (Sheet.arguments env k owned facing c.args)
    | none => {}).seq
  (match f.body with
    | some b => Plan.body env k owned facing f.returnType.isSome b
    | none => {})

end

end Recast
