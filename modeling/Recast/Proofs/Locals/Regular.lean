import Recast.Proofs.Locals.Agreement

/-! # Regular bodies

In a regular body each write is one to a plain name, no local is declared where the scan does not
look, and an initial value declares no local of the name that it is given to. The scan of a regular
body follows its trace.
-/
namespace Recast
open LocalEvent

/-- A value that is assigned to the expression is written to one name, or to none at all. -/
def Expr.isPlainTarget : Expr → Bool
  | .identifier .. => true
  | e => e.targets.isEmpty

namespace Regular

mutual

def expr : Expr → Bool
  | .assignment _ _ target value => target.isPlainTarget && expr target && expr value
  | .memberAccess _ target name => expr target && (Trace.expr name).isEmpty
  | .qualifiedName _ target name => (Trace.expr target).isEmpty && (Trace.expr name).isEmpty
  | .conditionalAccess _ target rest => expr target && expr rest
  | .memberBinding _ name => (Trace.expr name).isEmpty
  | .invocation _ target args => expr target && arguments args
  | .elementAccess _ target args => expr target && arguments args
  | .objectCreation _ _ args init =>
    arguments args && match init with
      | some e => expr e
      | none => true
  | .binary _ _ left right => expr left && expr right
  | .simpleLambda _ _ body => lambdaBody body
  | .parenthesizedLambda _ _ body => lambdaBody body
  | .conditional _ condition whenTrue whenFalse =>
    expr condition && expr whenTrue && expr whenFalse
  | .cast _ _ operand => expr operand
  | .prefixUnary _ op operand => (!op.mutates || operand.isPlainTarget) && expr operand
  | .postfixUnary _ op operand => (!op.mutates || operand.isPlainTarget) && expr operand
  | .interpolatedString _ parts => interpolation parts
  | .tuple _ elements => arguments elements
  | .initializer _ _ elements => exprs elements
  | .parenthesized _ inner => expr inner
  | .arrayCreation _ _ sizes init =>
    exprs sizes && match init with
      | some e => expr e
      | none => true
  | .await _ operand => expr operand
  | .implicitArrayCreation _ init => expr init
  | .declaration .. | .identifier .. | .genericName .. | .this _ | .base _ | .literal ..
  | .defaultValue .. | .predefinedType .. | .typeOf .. | .other .. => true

def exprs : List Expr → Bool
  | [] => true
  | e :: es => expr e && exprs es

def arguments : List Argument → Bool
  | [] => true
  | ⟨passing,e⟩ :: args =>
    (match passing with
      | .byOut | .byRef => e.isPlainTarget
      | _ => true) && expr e && arguments args

def interpolation : List InterpolationPart → Bool
  | [] => true
  | .text _ :: parts => interpolation parts
  | .expression e _ :: parts => expr e && interpolation parts

def lambdaBody : LambdaBody → Bool
  | .block statements => stmts statements
  | .expression e => expr e

def declarators : List Declarator → Bool
  | [] => true
  | ⟨_,name,init⟩ :: ds =>
    (match init with
      | some e => expr e && !(names (Trace.expr e)).contains name
      | none => true) && declarators ds

def headDeclarators : List Declarator → Bool
  | [] => true
  | ⟨_,_,init⟩ :: ds =>
    (match init with
      | some e => expr e
      | none => true) && headDeclarators ds

def switchSections : List SwitchSection → Bool
  | [] => true
  | ⟨ls,statements⟩ :: rest =>
    (Trace.labels ls).isEmpty && stmts statements && switchSections rest

def catchClauses : List CatchClause → Bool
  | [] => true
  | ⟨_,_,block⟩ :: rest => stmts block && catchClauses rest

def stmt : Stmt → Bool
  | .expression _ e => expr e
  | .ret _ value | .throw _ value =>
    match value with
    | some e => expr e
    | none => true
  | .locals _ ⟨_,ds⟩ => declarators ds
  | .switch _ subject sections => expr subject && switchSections sections
  | .block _ statements => stmts statements
  | .ifElse _ condition thenBranch otherwise =>
    expr condition && stmt thenBranch && match otherwise with
      | some s => stmt s
      | none => true
  | .forLoop _ declaration initializers condition incrementors body =>
    (match declaration with
      | some ⟨_,ds⟩ => headDeclarators ds && initializers.isEmpty
      | none => exprs initializers) && (match condition with
      | some e => expr e
      | none => true) && exprs incrementors && stmt body
  | .whileLoop _ condition body => expr condition && stmt body
  | .doWhile _ body condition => expr condition && stmt body
  | .forEach _ _ _ iterable body => expr iterable && stmt body
  | .tryCatch _ block catches finallyBlock =>
    stmts block && catchClauses catches && match finallyBlock with
      | some statements => stmts statements
      | none => true
  | .lock _ target body => (target.isPlainReference || expr target) && stmt body
  | .useResource _ declaration target body =>
    (match declaration, target with
      | some ⟨_,ds⟩, none => declarators ds
      | some _, some _ => false
      | none, some e => expr e
      | none, none => true) && stmt body
  | .breakLoop _ | .continueLoop _ | .empty _ | .other .. => true

def stmts : List Stmt → Bool
  | [] => true
  | s :: ss => stmt s && stmts ss

end

end Regular

/-- The scan finds nothing in a plain reference. -/
theorem Scan.expr_isPlainReference (o : Oracle) (l : Bool) :
    ∀ {e : Expr}, e.isPlainReference = true → Scan.expr o l e = id
  | .identifier .., _ | .this _, _ | .base _, _ | .typeOf .., _ | .qualifiedName .., _ => rfl
  | .memberAccess _ target _, h => Scan.expr_isPlainReference o l (e := target) h
  | .parenthesized _ inner, h => Scan.expr_isPlainReference o l (e := inner) h

namespace Follows

theorem none {a : List LocalEvent} (h : a.isEmpty = true) : Follows a id := by
  rw [List.isEmpty_iff.mp h]
  exact refl

theorem writes {target : Expr} (h : target.isPlainTarget = true) :
    Follows (Trace.writes target) (Scan.write target) := by
  cases target with
  | identifier id name => exact write id name
  | _ =>
    simp only [Expr.isPlainTarget,List.isEmpty_iff] at h
    unfold Trace.writes
    rw [h]
    exact mark _

theorem mutates {target : Expr} {b : Bool} (h : (!b || target.isPlainTarget) = true) :
    Follows (if b then Trace.writes target else []) fun s => if b then s.write target else s := by
  cases b with
  | true => exact writes h
  | false => exact refl

theorem argument {o : Oracle} {l : Bool} {passing : Passing} {e : Expr} {args : List Argument}
    (hp : (match passing with
      | .byOut | .byRef => e.isPlainTarget
      | _ => true) = true)
    (he : Follows (Trace.expr e) (Scan.expr o l e))
    (hargs : Follows (Trace.arguments args) (Scan.arguments o l args)) :
    Follows (Trace.arguments (⟨passing,e⟩ :: args)) (Scan.arguments o l (⟨passing,e⟩ :: args)) := by
  cases passing with
  | value | byIn => exact he.append hargs
  | byRef => exact ((writes hp).append he).append hargs
  | byOut =>
    cases e with
    | declaration id ty name => exact (introduce { name, valued := some true } _).append hargs
    | _ => exact ((writes hp).append he).append hargs

/-- The scan also looks into a plain reference, in vain. -/
theorem lock {o : Oracle} {l : Bool} {target : Expr}
    (hr : Regular.expr target = true → Follows (Trace.expr target) (Scan.expr o l target))
    (h : (target.isPlainReference || Regular.expr target) = true) :
    Follows (if target.isPlainReference then [] else Trace.expr target)
      (Scan.expr o l target) := by
  split
  · next hplain =>
    rw [Scan.expr_isPlainReference o l hplain]
    exact refl
  · next hplain => exact hr ((Bool.or_eq_true_iff.mp h).resolve_left hplain)

mutual

theorem expr (o : Oracle) : ∀ (l : Bool) (e : Expr), Regular.expr e = true →
    Follows (Trace.expr e) (Scan.expr o l e)
  | l, .assignment _ _ target value, h => by
    obtain ⟨h,hvalue⟩ := Bool.and_eq_true_iff.mp h
    obtain ⟨hplain,htarget⟩ := Bool.and_eq_true_iff.mp h
    exact ((writes hplain).append (expr o l target htarget)).append (expr o l value hvalue)
  | l, .memberAccess _ target name, h => by
    obtain ⟨htarget,hname⟩ := Bool.and_eq_true_iff.mp h
    exact (expr o l target htarget).append (none hname)
  | _, .qualifiedName _ target name, h => by
    obtain ⟨htarget,hname⟩ := Bool.and_eq_true_iff.mp h
    exact (none htarget).append (none hname)
  | l, .conditionalAccess _ target rest, h => by
    obtain ⟨htarget,hrest⟩ := Bool.and_eq_true_iff.mp h
    exact (expr o l target htarget).append (expr o l rest hrest)
  | _, .memberBinding _ _, h => none h
  | l, .invocation _ target args, h => by
    obtain ⟨htarget,hargs⟩ := Bool.and_eq_true_iff.mp h
    exact (expr o l target htarget).append (arguments o l args hargs)
  | l, .elementAccess _ target args, h => by
    obtain ⟨htarget,hargs⟩ := Bool.and_eq_true_iff.mp h
    exact (expr o l target htarget).append (arguments o l args hargs)
  | l, .objectCreation _ _ args (some e), h => by
    obtain ⟨hargs,he⟩ := Bool.and_eq_true_iff.mp h
    exact (arguments o l args hargs).append (expr o l e he)
  | l, .objectCreation _ _ args Option.none, h => by
    obtain ⟨hargs,-⟩ := Bool.and_eq_true_iff.mp h
    exact (arguments o l args hargs).append refl
  | l, .binary _ _ left right, h => by
    obtain ⟨hleft,hright⟩ := Bool.and_eq_true_iff.mp h
    exact (expr o l left hleft).append (expr o l right hright)
  | _, .simpleLambda _ param body, h => function [param] (lambdaBody o body h)
  | _, .parenthesizedLambda _ params body, h => function params (lambdaBody o body h)
  | l, .conditional _ condition whenTrue whenFalse, h => by
    obtain ⟨h,hfalse⟩ := Bool.and_eq_true_iff.mp h
    obtain ⟨hcondition,htrue⟩ := Bool.and_eq_true_iff.mp h
    exact ((expr o l condition hcondition).append (expr o l whenTrue htrue)).append
      (expr o l whenFalse hfalse)
  | l, .cast _ _ operand, h => expr o l operand h
  | l, .prefixUnary _ op operand, h => by
    obtain ⟨hplain,hoperand⟩ := Bool.and_eq_true_iff.mp h
    exact (mutates hplain).append (expr o l operand hoperand)
  | l, .postfixUnary _ op operand, h => by
    obtain ⟨hplain,hoperand⟩ := Bool.and_eq_true_iff.mp h
    exact (mutates hplain).append (expr o l operand hoperand)
  | l, .interpolatedString _ parts, h => interpolation o l parts h
  | l, .tuple _ elements, h => arguments o l elements h
  | l, .initializer _ shape elements, h => initializers o l shape elements h
  | l, .parenthesized _ inner, h => expr o l inner h
  | l, .arrayCreation _ _ sizes (some e), h => by
    obtain ⟨hsizes,he⟩ := Bool.and_eq_true_iff.mp h
    exact (exprs o l sizes hsizes).append (expr o l e he)
  | l, .arrayCreation _ _ sizes Option.none, h => by
    obtain ⟨hsizes,-⟩ := Bool.and_eq_true_iff.mp h
    exact (exprs o l sizes hsizes).append refl
  | l, .await _ operand, h => expr o l operand h
  | l, .implicitArrayCreation _ init, h => expr o l init h
  | _, .declaration _ _ name, _ => introduce { name } _
  | _, .identifier .., _ | _, .genericName .., _ | _, .this _, _ | _, .base _, _
  | _, .literal .., _ | _, .defaultValue .., _ | _, .predefinedType .., _ | _, .typeOf .., _
  | _, .other .., _ => refl

theorem exprs (o : Oracle) : ∀ (l : Bool) (es : List Expr), Regular.exprs es = true →
    Follows (Trace.exprs es) (Scan.exprs o l es)
  | _, [], _ => refl
  | l, e :: es, h => by
    obtain ⟨he,hes⟩ := Bool.and_eq_true_iff.mp h
    exact (expr o l e he).append (exprs o l es hes)

theorem arguments (o : Oracle) : ∀ (l : Bool) (args : List Argument),
    Regular.arguments args = true → Follows (Trace.arguments args) (Scan.arguments o l args)
  | _, [], _ => refl
  | l, ⟨passing,e⟩ :: args, h => by
    obtain ⟨h,hargs⟩ := Bool.and_eq_true_iff.mp h
    obtain ⟨hpassing,he⟩ := Bool.and_eq_true_iff.mp h
    exact argument hpassing (expr o l e he) (arguments o l args hargs)

theorem initializers (o : Oracle) : ∀ (l : Bool) (shape : InitializerShape) (es : List Expr),
    Regular.exprs es = true → Follows (Trace.initializers shape es) (Scan.exprs o l es)
  | _, _, [], _ => refl
  | l, shape, e :: es, h => by
    obtain ⟨he,hes⟩ := Bool.and_eq_true_iff.mp h
    have hvalue : ∀ {id op i name value}, e = .assignment id op (.identifier i name) value →
        Follows (Trace.expr value) (Scan.expr o l value) := by
      cases e with
      | assignment id op target value =>
        obtain ⟨-,hv⟩ := Bool.and_eq_true_iff.mp he
        rintro _ _ _ _ _ ⟨⟩
        exact expr o l value hv
      | _ => nofun
    rw [Trace.initializers.eq_def]
    refine append (f := Scan.expr o l e) ?_ (initializers o l shape es hes)
    split
    · exact (mark _).append (hvalue rfl)
    · exact expr o l e he

theorem interpolation (o : Oracle) : ∀ (l : Bool) (parts : List InterpolationPart),
    Regular.interpolation parts = true →
    Follows (Trace.interpolation parts) (Scan.interpolation o l parts)
  | _, [], _ => refl
  | l, .text _ :: parts, h => interpolation o l parts h
  | l, .expression e _ :: parts, h => by
    obtain ⟨he,hparts⟩ := Bool.and_eq_true_iff.mp h
    exact (expr o l e he).append (interpolation o l parts hparts)

theorem lambdaBody (o : Oracle) : ∀ (body : LambdaBody), Regular.lambdaBody body = true →
    Follows (Trace.lambdaBody body) (Scan.lambdaBody o body)
  | .block statements, h => stmts o true statements h
  | .expression e, h => expr o true e h

theorem declarators (o : Oracle) : ∀ (l : Bool) (ty : Option SourceType) (ds : List Declarator),
    Regular.declarators ds = true → Follows (Trace.declarators ds) (Scan.declarators o l ty ds)
  | _, _, [], _ => refl
  | l, ty, ⟨_,name,some e⟩ :: ds, h => by
    obtain ⟨h,hds⟩ := Bool.and_eq_true_iff.mp h
    obtain ⟨he,hname⟩ := Bool.and_eq_true_iff.mp h
    have hfresh : name ∉ names (Trace.expr e) := by simpa using hname
    exact (initialized (expr o l e he) hfresh _).append (declarators o l ty ds hds)
  | l, ty, ⟨_,name,Option.none⟩ :: ds, h => by
    obtain ⟨-,hds⟩ := Bool.and_eq_true_iff.mp h
    exact (introduce { name, valued := some false } _).append (declarators o l ty ds hds)

theorem headDeclarators (o : Oracle) : ∀ (l : Bool) (ty : Option SourceType)
    (ds : List Declarator), Regular.headDeclarators ds = true →
    Follows (Trace.headDeclarators ds) (Scan.declarators o l ty ds)
  | _, _, [], _ => refl
  | l, ty, ⟨_,name,some e⟩ :: ds, h => by
    obtain ⟨he,hds⟩ := Bool.and_eq_true_iff.mp h
    exact ((introduce { name } _).append (expr o l e he)).append (headDeclarators o l ty ds hds)
  | l, ty, ⟨_,name,Option.none⟩ :: ds, h => by
    obtain ⟨-,hds⟩ := Bool.and_eq_true_iff.mp h
    exact ((introduce { name } _).append refl).append (headDeclarators o l ty ds hds)

theorem switchSections (o : Oracle) : ∀ (l : Bool) (sections : List SwitchSection),
    Regular.switchSections sections = true →
    Follows (Trace.switchSections sections) (Scan.switchSections o l sections)
  | _, [], _ => refl
  | l, ⟨ls,statements⟩ :: rest, h => by
    obtain ⟨h,hrest⟩ := Bool.and_eq_true_iff.mp h
    obtain ⟨hlabels,hstatements⟩ := Bool.and_eq_true_iff.mp h
    exact ((none hlabels).append (stmts o l statements hstatements)).append
      (switchSections o l rest hrest)

theorem catchClauses (o : Oracle) : ∀ (l : Bool) (clauses : List CatchClause),
    Regular.catchClauses clauses = true →
    Follows (Trace.catchClauses clauses) (Scan.catchClauses o l clauses)
  | _, [], _ => refl
  | l, ⟨_,some name,block⟩ :: rest, h => by
    obtain ⟨hblock,hrest⟩ := Bool.and_eq_true_iff.mp h
    exact (inScope ((introduce { name } _).append (stmts o l block hblock))).append
      (catchClauses o l rest hrest)
  | l, ⟨_,Option.none,block⟩ :: rest, h => by
    obtain ⟨hblock,hrest⟩ := Bool.and_eq_true_iff.mp h
    exact (inScope (stmts o l block hblock)).append (catchClauses o l rest hrest)

theorem stmt (o : Oracle) : ∀ (l : Bool) (s : Stmt), Regular.stmt s = true →
    Follows (Trace.stmt s) (Scan.stmt o l s)
  | l, .expression _ e, h => expr o l e h
  | l, .ret _ (some e), h => (giveBack o l e).append (expr o l e h)
  | _, .ret _ Option.none, _ => refl
  | l, .throw _ (some e), h => expr o l e h
  | _, .throw _ Option.none, _ => refl
  | l, .locals _ ⟨ty,ds⟩, h => declarators o l ty ds h
  | l, .switch _ subject sections, h => by
    obtain ⟨hsubject,hsections⟩ := Bool.and_eq_true_iff.mp h
    exact (expr o l subject hsubject).append (inScope (switchSections o l sections hsections))
  | l, .block _ statements, h => inScope (stmts o l statements h)
  | l, .ifElse _ condition thenBranch (some s), h => by
    obtain ⟨h,hs⟩ := Bool.and_eq_true_iff.mp h
    obtain ⟨hcondition,hthen⟩ := Bool.and_eq_true_iff.mp h
    exact ((expr o l condition hcondition).append (stmt o l thenBranch hthen)).append
      (stmt o l s hs)
  | l, .ifElse _ condition thenBranch Option.none, h => by
    obtain ⟨h,-⟩ := Bool.and_eq_true_iff.mp h
    obtain ⟨hcondition,hthen⟩ := Bool.and_eq_true_iff.mp h
    exact ((expr o l condition hcondition).append (stmt o l thenBranch hthen)).append refl
  | l, .forLoop _ (some ⟨ty,ds⟩) inits (some e) incrementors body, h => by
    obtain ⟨h,hbody⟩ := Bool.and_eq_true_iff.mp h
    obtain ⟨h,hincrementors⟩ := Bool.and_eq_true_iff.mp h
    obtain ⟨h,he⟩ := Bool.and_eq_true_iff.mp h
    obtain ⟨hds,hinits⟩ := Bool.and_eq_true_iff.mp h
    rw [List.isEmpty_iff.mp hinits]
    exact inScope ((((headDeclarators o l ty ds hds).append (expr o l e he)).append
      (exprs o l incrementors hincrementors)).append (stmt o l body hbody))
  | l, .forLoop _ (some ⟨ty,ds⟩) inits Option.none incrementors body, h => by
    obtain ⟨h,hbody⟩ := Bool.and_eq_true_iff.mp h
    obtain ⟨h,hincrementors⟩ := Bool.and_eq_true_iff.mp h
    obtain ⟨h,-⟩ := Bool.and_eq_true_iff.mp h
    obtain ⟨hds,hinits⟩ := Bool.and_eq_true_iff.mp h
    rw [List.isEmpty_iff.mp hinits]
    exact inScope ((((headDeclarators o l ty ds hds).append refl).append
      (exprs o l incrementors hincrementors)).append (stmt o l body hbody))
  | l, .forLoop _ Option.none inits (some e) incrementors body, h => by
    obtain ⟨h,hbody⟩ := Bool.and_eq_true_iff.mp h
    obtain ⟨h,hincrementors⟩ := Bool.and_eq_true_iff.mp h
    obtain ⟨hinits,he⟩ := Bool.and_eq_true_iff.mp h
    exact inScope ((((exprs o l inits hinits).append (expr o l e he)).append
      (exprs o l incrementors hincrementors)).append (stmt o l body hbody))
  | l, .forLoop _ Option.none inits Option.none incrementors body, h => by
    obtain ⟨h,hbody⟩ := Bool.and_eq_true_iff.mp h
    obtain ⟨h,hincrementors⟩ := Bool.and_eq_true_iff.mp h
    obtain ⟨hinits,-⟩ := Bool.and_eq_true_iff.mp h
    exact inScope ((((exprs o l inits hinits).append refl).append
      (exprs o l incrementors hincrementors)).append (stmt o l body hbody))
  | l, .whileLoop _ condition body, h => by
    obtain ⟨hcondition,hbody⟩ := Bool.and_eq_true_iff.mp h
    exact (expr o l condition hcondition).append (stmt o l body hbody)
  | l, .doWhile _ body condition, h => by
    obtain ⟨hcondition,hbody⟩ := Bool.and_eq_true_iff.mp h
    exact (expr o l condition hcondition).append (stmt o l body hbody)
  | l, .forEach _ _ name iterable body, h => by
    obtain ⟨hiterable,hbody⟩ := Bool.and_eq_true_iff.mp h
    exact (expr o l iterable hiterable).append
      (inScope ((introduce { name } _).append (stmt o l body hbody)))
  | l, .tryCatch _ block catches (some statements), h => by
    obtain ⟨h,hfinally⟩ := Bool.and_eq_true_iff.mp h
    obtain ⟨hblock,hcatches⟩ := Bool.and_eq_true_iff.mp h
    exact ((inScope (stmts o l block hblock)).append (catchClauses o l catches hcatches)).append
      (inScope (stmts o l statements hfinally))
  | l, .tryCatch _ block catches Option.none, h => by
    obtain ⟨h,-⟩ := Bool.and_eq_true_iff.mp h
    obtain ⟨hblock,hcatches⟩ := Bool.and_eq_true_iff.mp h
    exact ((inScope (stmts o l block hblock)).append (catchClauses o l catches hcatches)).append
      refl
  | l, .lock _ target body, h => by
    obtain ⟨htarget,hbody⟩ := Bool.and_eq_true_iff.mp h
    exact (lock (expr o l target) htarget).append (stmt o l body hbody)
  | l, .useResource _ (some ⟨ty,ds⟩) Option.none body, h => by
    obtain ⟨hds,hbody⟩ := Bool.and_eq_true_iff.mp h
    exact inScope ((declarators o l ty ds hds).append (stmt o l body hbody))
  | _, .useResource _ (some ⟨_,_⟩) (some _) _, h => by
    obtain ⟨⟨⟩,-⟩ := Bool.and_eq_true_iff.mp h
  | l, .useResource _ Option.none (some e) body, h => by
    obtain ⟨he,hbody⟩ := Bool.and_eq_true_iff.mp h
    exact inScope ((expr o l e he).append (stmt o l body hbody))
  | l, .useResource _ Option.none Option.none body, h => inScope (stmt o l body h)
  | _, .breakLoop _, _ | _, .continueLoop _, _ | _, .empty _, _ | _, .other .., _ => refl

theorem stmts (o : Oracle) : ∀ (l : Bool) (ss : List Stmt), Regular.stmts ss = true →
    Follows (Trace.stmts ss) (Scan.stmts o l ss)
  | _, [], _ => refl
  | l, s :: ss, h => by
    obtain ⟨hs,hss⟩ := Bool.and_eq_true_iff.mp h
    exact (stmt o l s hs).append (stmts o l ss hss)

end

end Follows

def Regular.body : Body → Bool
  | .block statements => stmts statements
  | .expression e => expr e

theorem Agree.body {u : Usage} (h : Agree [] u {}) (o : Oracle) (returnsValue : Bool) {b : Body}
    (hr : Regular.body b = true) :
    Agree [] (u.run (Trace.body b)) (Scan.body o returnsValue b) := by
  cases b with
  | block statements => exact (Follows.stmts o false statements hr [] u {} nofun h).1
  | expression e =>
    have he := Follows.expr o false e hr
    cases returnsValue with
    | true => exact ((Follows.giveBack o false e).append he [] u {} nofun h).1
    | false => exact (he [] u {} nofun h).1

namespace Routine

/-- The body is regular. What is passed to another constructor is not scanned, so it declares no
locals. -/
def isRegular (f : Routine) : Bool :=
  (match f.chain with
    | some c => Regular.arguments c.args && (names (Trace.arguments c.args)).isEmpty
    | none => true) && match f.body with
    | some b => Regular.body b
    | none => true

/-- The routine knows what the scan of its body finds. -/
def IsScanned (f : Routine) : Prop :=
  ∀ b, f.body = some b → ∃ o returnsValue, f.locals = (Scan.body o returnsValue b).locals

variable {f : Routine}

/-- The call of another constructor leaves nothing behind. -/
theorem agree_chain (h : f.isRegular = true) : Agree [] (Usage.run {} (match f.chain with
    | some c => Trace.arguments c.args
    | none => [])) {} := by
  obtain ⟨h,-⟩ := Bool.and_eq_true_iff.mp h
  cases hc : f.chain with
  | none => exact .start
  | some c =>
    rw [hc] at h
    obtain ⟨hargs,hnames⟩ := Bool.and_eq_true_iff.mp h
    obtain ⟨hagree,-⟩ := Follows.arguments {} false c.args hargs [] {} {} nofun .start
    apply hagree.forget
    rw [Usage.sites_run]
    exact List.map_eq_nil_iff.mp (List.isEmpty_iff.mp hnames)

/-- A regular routine that knows its locals knows of each local that is written. -/
theorem reassigned_of_written (hs : f.IsScanned) (hr : f.isRegular = true) {k : LocalKey}
    (hk : k ∈ Usage.writtenIn f) {v : LocalVariable} (hv : f.declaredLocal? k.1 k.2 = some v) :
    v.reassigned = true := by
  have hchain := agree_chain hr
  obtain ⟨-,hr⟩ := Bool.and_eq_true_iff.mp hr
  unfold Usage.writtenIn Trace.routine at hk
  rw [Usage.run_append] at hk
  cases hb : f.body with
  | none =>
    rw [hb] at hk
    obtain ⟨w,hw,-⟩ := hchain.written k hk
    nomatch hw
  | some b =>
    rw [hb] at hk hr
    obtain ⟨o,returnsValue,hlocals⟩ := hs b hb
    have hagree := hchain.body o returnsValue hr
    obtain ⟨w,hw,hkey,hre⟩ := hagree.written k hk
    obtain ⟨hvm,hvkey⟩ := key_of_declaredLocal? hv
    rw [hlocals] at hvm
    rw [Numbered.eq_of_key hagree.occurrence hvm hw (hvkey.trans hkey.symm)]
    exact hre

end Routine

end Recast
