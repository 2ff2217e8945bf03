import Recast.Proofs.Locals.Agreement

/-! # Two walks over a body

The locals of a body are counted twice: by the scan, when a routine is discovered, and by lowering.
Each of the two walks over the body in its own way. The layout of a body holds the places that
declare locals and tells where the walks differ, so that it can be said of each place when one walk
comes to it and when the other does.
-/
namespace Recast
open LocalEvent

/-- The places that declare locals, as two walks come to them. -/
inductive Layout where
  | empty
  | place (site : Site)
  | append (first second : Layout)
  /-- A local with an initial value, which the scan counts before the locals in the value and
  lowering after them. -/
  | initialized (name : String) (value : Layout)
  /-- Only lowering comes here. -/
  | unscanned (inner : Layout)
  /-- Only the scan comes here. -/
  | unlowered (inner : Layout)

namespace Layout

instance : Append Layout := ⟨append⟩

def size : Layout → Nat
  | .empty => 0
  | .place _ => 1
  | .append a b => a.size + b.size
  | .initialized _ value => value.size + 1
  | .unscanned a | .unlowered a => a.size

/-- The places that lowering comes to, in its order. All places are numbered from `start` on, and
each goes with its number. -/
def lowered (start : Nat) : Layout → List (Nat × Site)
  | .empty => []
  | .place site => [(start,site)]
  | .append a b => a.lowered start ++ b.lowered (start + a.size)
  | .initialized name value =>
    value.lowered (start + 1) ++ [(start,{ name, valued := some true })]
  | .unscanned a => a.lowered start
  | .unlowered _ => []

/-- The places that the scan comes to, in its order, with the same numbers. -/
def scanned (start : Nat) : Layout → List (Nat × String)
  | .empty => []
  | .place site => [(start,site.name)]
  | .append a b => a.scanned start ++ b.scanned (start + a.size)
  | .initialized name value => (start,name) :: value.scanned (start + 1)
  | .unscanned _ => []
  | .unlowered a => a.scanned start

/-- An argument, given the layout of the expression that is passed. -/
def argument (passing : Passing) (e : Expr) (inner : Layout) : Layout :=
  match passing, e with
  | .byOut, .declaration _ _ name => .place { name, valued := some true }
  | _, _ => inner

mutual

def expr : Expr → Layout
  | .assignment _ _ target value => expr target ++ expr value
  | .memberAccess _ target name => expr target ++ .unscanned (expr name)
  | .qualifiedName _ target name => .unscanned (expr target) ++ .unscanned (expr name)
  | .conditionalAccess _ target rest => expr target ++ expr rest
  | .memberBinding _ name => .unscanned (expr name)
  | .invocation _ target args => expr target ++ arguments args
  | .elementAccess _ target args => expr target ++ arguments args
  | .objectCreation _ _ args init =>
    arguments args ++ match init with
      | some e => expr e
      | none => .empty
  | .binary _ _ left right => expr left ++ expr right
  | .simpleLambda _ _ body => lambdaBody body
  | .parenthesizedLambda _ _ body => lambdaBody body
  | .conditional _ condition whenTrue whenFalse =>
    expr condition ++ expr whenTrue ++ expr whenFalse
  | .cast _ _ operand => expr operand
  | .prefixUnary _ _ operand => expr operand
  | .postfixUnary _ _ operand => expr operand
  | .interpolatedString _ parts => interpolation parts
  | .tuple _ elements => arguments elements
  | .initializer _ _ elements => exprs elements
  | .parenthesized _ inner => expr inner
  | .arrayCreation _ _ sizes init =>
    exprs sizes ++ match init with
      | some e => expr e
      | none => .empty
  | .await _ operand => expr operand
  | .implicitArrayCreation _ init => expr init
  | .declaration _ _ name => .place { name }
  | .identifier .. | .genericName .. | .this _ | .base _ | .literal .. | .defaultValue ..
  | .predefinedType .. | .typeOf .. | .other .. => .empty

def exprs : List Expr → Layout
  | [] => .empty
  | e :: es => expr e ++ exprs es

def arguments : List Argument → Layout
  | [] => .empty
  | ⟨passing,e⟩ :: args => argument passing e (expr e) ++ arguments args

def interpolation : List InterpolationPart → Layout
  | [] => .empty
  | .text _ :: parts => interpolation parts
  | .expression e _ :: parts => expr e ++ interpolation parts

def lambdaBody : LambdaBody → Layout
  | .block statements => stmts statements
  | .expression e => expr e

def declarators : List Declarator → Layout
  | [] => .empty
  | ⟨_,name,init⟩ :: ds =>
    (match init with
      | some e => .initialized name (expr e)
      | none => .place { name, valued := some false }) ++ declarators ds

/-- In the head of a loop both walks count a local before those in its initial value. -/
def headDeclarators : List Declarator → Layout
  | [] => .empty
  | ⟨_,name,init⟩ :: ds =>
    .place { name } ++ (match init with
      | some e => expr e
      | none => .empty) ++ headDeclarators ds

def labels : List SwitchLabel → Layout
  | [] => .empty
  | .case value :: ls => .unscanned (expr value) ++ labels ls
  | .default :: ls => labels ls

def switchSections : List SwitchSection → Layout
  | [] => .empty
  | ⟨ls,statements⟩ :: rest => labels ls ++ stmts statements ++ switchSections rest

def catchClauses : List CatchClause → Layout
  | [] => .empty
  | ⟨_,name,block⟩ :: rest =>
    (match name with
      | some name => .place { name }
      | none => .empty) ++ stmts block ++ catchClauses rest

def stmt : Stmt → Layout
  | .expression _ e => expr e
  | .ret _ value | .throw _ value =>
    match value with
    | some e => expr e
    | none => .empty
  | .locals _ ⟨_,ds⟩ => declarators ds
  | .switch _ subject sections => expr subject ++ switchSections sections
  | .block _ statements => stmts statements
  | .ifElse _ condition thenBranch otherwise =>
    expr condition ++ stmt thenBranch ++ match otherwise with
      | some s => stmt s
      | none => .empty
  | .forLoop _ declaration initializers condition incrementors body =>
    (match declaration with
      | some ⟨_,ds⟩ => headDeclarators ds ++ .unlowered (exprs initializers)
      | none => exprs initializers) ++ (match condition with
      | some e => expr e
      | none => .empty) ++ exprs incrementors ++ stmt body
  | .whileLoop _ condition body => expr condition ++ stmt body
  | .doWhile _ body condition => expr condition ++ stmt body
  | .forEach _ _ name iterable body => expr iterable ++ (.place { name } ++ stmt body)
  | .tryCatch _ block catches finallyBlock =>
    stmts block ++ catchClauses catches ++ match finallyBlock with
      | some statements => stmts statements
      | none => .empty
  | .lock _ target body =>
    (if target.isPlainReference then .unlowered (expr target) else expr target) ++ stmt body
  | .useResource _ declaration target body =>
    (match declaration with
      | some ⟨_,ds⟩ => declarators ds ++ (match target with
        | some e => .unlowered (expr e)
        | none => .empty)
      | none => match target with
        | some e => expr e
        | none => .empty) ++ stmt body
  | .breakLoop _ | .continueLoop _ | .empty _ | .other .. => .empty

def stmts : List Stmt → Layout
  | [] => .empty
  | s :: ss => stmt s ++ stmts ss

end

def body : Body → Layout
  | .block statements => stmts statements
  | .expression e => expr e

/-- The layout of a method or constructor; the scan does not look at the call of another
constructor. -/
def routine (f : Routine) : Layout :=
  (match f.chain with
    | some c => .unscanned (arguments c.args)
    | none => .empty) ++ match f.body with
    | some b => body b
    | none => .empty

end Layout

/-- The keys after some more locals with the names. -/
def LocalKey.count (keys : List LocalKey) (names : List String) : List LocalKey :=
  names.foldl (fun keys name => keys ++ [(name,keys.countP fun k => k.1 == name)]) keys

namespace LocalKey

theorem count_append (keys : List LocalKey) (a b : List String) :
    count keys (a ++ b) = count (count keys a) b := List.foldl_append

theorem numbered_count {keys : List LocalKey} (h : Numbered keys) (names : List String) :
    Numbered (count keys names) := by
  induction names generalizing keys with
  | nil => exact h
  | cons name names ih => exact ih (h.concat name)

theorem map_fst_count (keys : List LocalKey) (names : List String) :
    (count keys names).map Prod.fst = keys.map Prod.fst ++ names := by
  induction names generalizing keys with
  | nil => exact (List.append_nil _).symm
  | cons name names ih =>
    change (count (keys ++ [_]) names).map Prod.fst = _
    rw [ih,List.map_append,List.append_assoc]
    rfl

end LocalKey

/-- A layout has the places of some events for lowering and those of a step of the scan. -/
structure Maps (a : Layout) (events : List LocalEvent) (scan : Scan → Scan) : Prop where
  lowered : ∀ n, (a.lowered n).map Prod.snd = sites events
  scanned : ∀ n s, (scan s).keys = LocalKey.count s.keys ((a.scanned n).map Prod.snd)

namespace Maps
variable {a b : Layout} {x y : List LocalEvent} {f g : Scan → Scan}

theorem empty : Maps .empty [] id := ⟨fun _ => rfl,fun _ _ => rfl⟩

theorem append (ha : Maps a x f) (hb : Maps b y g) :
    Maps (a ++ b) (x ++ y) fun s => g (f s) where
  lowered n := by
    change (a.lowered n ++ b.lowered (n + a.size)).map Prod.snd = _
    rw [List.map_append,ha.lowered,hb.lowered,sites_append]
  scanned n s := by
    change _ = LocalKey.count _ ((a.scanned n ++ b.scanned (n + a.size)).map Prod.snd)
    rw [List.map_append,LocalKey.count_append,← ha.scanned,← hb.scanned]

theorem place (site : Site) (ty : Option TypeDesc) :
    Maps (.place site) (introduce site) (Scan.declare site.name ty) where
  lowered _ := rfl
  scanned _ s := s.keys_declare site.name ty

theorem initialized (ha : Maps a x f) (name : String) (ty : Option TypeDesc) :
    Maps (.initialized name a) (initialized name x) fun s => f (s.declare name ty) where
  lowered n := by
    rw [sites_initialized,← ha.lowered (n + 1)]
    exact List.map_append
  scanned n s := by
    rw [ha.scanned (n + 1),s.keys_declare]
    rfl

theorem unscanned (ha : Maps a x f) : Maps (.unscanned a) x id := ⟨ha.lowered,fun _ _ => rfl⟩

theorem unlowered (ha : Maps a x f) : Maps (.unlowered a) [] f := ⟨fun _ => rfl,ha.scanned⟩

theorem inScope (ha : Maps a x f) : Maps a (inScope x) fun s => Scan.leave s (f s) where
  lowered n := (ha.lowered n).trans (sites_inScope x).symm
  scanned := ha.scanned

theorem function (params : List LambdaParam) (ha : Maps a x f) :
    Maps a (function params x) fun s => Scan.leave s (f s) where
  lowered n := (ha.lowered n).trans (sites_function params x).symm
  scanned := ha.scanned

/-- Nothing is declared in between. -/
theorem quiet (ha : Maps a x f) (hy : sites y = []) (hg : ∀ s, (g s).keys = s.keys) :
    Maps a (y ++ x) fun s => f (g s) where
  lowered n := by
    rw [sites_append,hy]
    exact ha.lowered n
  scanned n s := by rw [ha.scanned n,hg]

theorem keys_write (target : Expr) (s : Scan) : (s.write target).keys = s.keys := by
  rcases s.write_cases target with hw | ⟨i,hw⟩
  · rw [hw]
  · rw [hw,Scan.keys_mark]

theorem keys_giveBack (o : Oracle) (inLambda : Bool) (value : Expr) (s : Scan) :
    (s.giveBack o inLambda value).keys = s.keys := by
  unfold Scan.giveBack
  split
  · rfl
  · rfl

theorem writes (target : Expr) (ha : Maps a x f) :
    Maps a (Trace.writes target ++ x) fun s => f (s.write target) :=
  ha.quiet (Trace.sites_writes target) (keys_write target)

theorem mutates (mutates : Bool) (target : Expr) (ha : Maps a x f) :
    Maps a ((if mutates then Trace.writes target else []) ++ x)
      fun s => f (if mutates then s.write target else s) := by
  cases mutates with
  | true => exact ha.writes target
  | false => exact ha

theorem argument {o : Oracle} {l : Bool} (passing : Passing) {e : Expr} {args : List Argument}
    (he : Maps (Layout.expr e) (Trace.expr e) (Scan.expr o l e))
    (hargs : Maps (Layout.arguments args) (Trace.arguments args) (Scan.arguments o l args)) :
    Maps (Layout.arguments (⟨passing,e⟩ :: args)) (Trace.arguments (⟨passing,e⟩ :: args))
      (Scan.arguments o l (⟨passing,e⟩ :: args)) := by
  cases passing with
  | value | byIn => exact he.append hargs
  | byRef => exact (he.writes e).append hargs
  | byOut =>
    cases e with
    | declaration id ty name => exact (place { name, valued := some true } _).append hargs
    | _ => exact (he.writes _).append hargs

theorem lock {o : Oracle} {l : Bool} {target : Expr}
    (h : Maps (Layout.expr target) (Trace.expr target) (Scan.expr o l target)) :
    Maps (if target.isPlainReference then .unlowered (Layout.expr target) else Layout.expr target)
      (if target.isPlainReference then [] else Trace.expr target) (Scan.expr o l target) := by
  split
  · exact h.unlowered
  · exact h

mutual

theorem expr (o : Oracle) : ∀ (l : Bool) (e : Expr),
    Maps (Layout.expr e) (Trace.expr e) (Scan.expr o l e)
  | l, .assignment _ _ target value => ((expr o l target).writes target).append (expr o l value)
  | l, .memberAccess _ target name => (expr o l target).append (expr o l name).unscanned
  | l, .qualifiedName _ target name => (expr o l target).unscanned.append (expr o l name).unscanned
  | l, .conditionalAccess _ target rest => (expr o l target).append (expr o l rest)
  | l, .memberBinding _ name => (expr o l name).unscanned
  | l, .invocation _ target args => (expr o l target).append (arguments o l args)
  | l, .elementAccess _ target args => (expr o l target).append (arguments o l args)
  | l, .objectCreation _ _ args (some e) => (arguments o l args).append (expr o l e)
  | l, .objectCreation _ _ args none => (arguments o l args).append empty
  | l, .binary _ _ left right => (expr o l left).append (expr o l right)
  | _, .simpleLambda _ param body => (lambdaBody o body).function [param]
  | _, .parenthesizedLambda _ params body => (lambdaBody o body).function params
  | l, .conditional _ condition whenTrue whenFalse =>
    ((expr o l condition).append (expr o l whenTrue)).append (expr o l whenFalse)
  | l, .cast _ _ operand => expr o l operand
  | l, .prefixUnary _ op operand => (expr o l operand).mutates op.mutates operand
  | l, .postfixUnary _ op operand => (expr o l operand).mutates op.mutates operand
  | l, .interpolatedString _ parts => interpolation o l parts
  | l, .tuple _ elements => arguments o l elements
  | l, .initializer _ shape elements => initializers o l shape elements
  | l, .parenthesized _ inner => expr o l inner
  | l, .arrayCreation _ _ sizes (some e) => (exprs o l sizes).append (expr o l e)
  | l, .arrayCreation _ _ sizes none => (exprs o l sizes).append empty
  | l, .await _ operand => expr o l operand
  | l, .implicitArrayCreation _ init => expr o l init
  | _, .declaration _ _ name => place { name } _
  | _, .identifier .. | _, .genericName .. | _, .this _ | _, .base _ | _, .literal ..
  | _, .defaultValue .. | _, .predefinedType .. | _, .typeOf .. | _, .other .. => empty

theorem exprs (o : Oracle) : ∀ (l : Bool) (es : List Expr),
    Maps (Layout.exprs es) (Trace.exprs es) (Scan.exprs o l es)
  | _, [] => empty
  | l, e :: es => (expr o l e).append (exprs o l es)

theorem arguments (o : Oracle) : ∀ (l : Bool) (args : List Argument),
    Maps (Layout.arguments args) (Trace.arguments args) (Scan.arguments o l args)
  | _, [] => empty
  | l, ⟨passing,e⟩ :: args => argument passing (expr o l e) (arguments o l args)

theorem initializers (o : Oracle) : ∀ (l : Bool) (shape : InitializerShape) (es : List Expr),
    Maps (Layout.exprs es) (Trace.initializers shape es) (Scan.exprs o l es)
  | _, _, [] => empty
  | l, shape, e :: es => by
    have he := expr o l e
    rw [Trace.initializers.eq_def]
    refine append (f := Scan.expr o l e) ?_ (initializers o l shape es)
    split
    · -- The name of the member declares nothing.
      exact ⟨he.lowered,he.scanned⟩
    · exact he

theorem interpolation (o : Oracle) : ∀ (l : Bool) (parts : List InterpolationPart),
    Maps (Layout.interpolation parts) (Trace.interpolation parts) (Scan.interpolation o l parts)
  | _, [] => empty
  | l, .text _ :: parts => interpolation o l parts
  | l, .expression e _ :: parts => (expr o l e).append (interpolation o l parts)

theorem lambdaBody (o : Oracle) : ∀ (body : LambdaBody),
    Maps (Layout.lambdaBody body) (Trace.lambdaBody body) (Scan.lambdaBody o body)
  | .block statements => stmts o true statements
  | .expression e => expr o true e

theorem declarators (o : Oracle) : ∀ (l : Bool) (ty : Option SourceType) (ds : List Declarator),
    Maps (Layout.declarators ds) (Trace.declarators ds) (Scan.declarators o l ty ds)
  | _, _, [] => empty
  | l, ty, ⟨_,name,some e⟩ :: ds =>
    ((expr o l e).initialized name _).append (declarators o l ty ds)
  | l, ty, ⟨_,name,none⟩ :: ds =>
    (place { name, valued := some false } _).append (declarators o l ty ds)

theorem headDeclarators (o : Oracle) : ∀ (l : Bool) (ty : Option SourceType)
    (ds : List Declarator),
    Maps (Layout.headDeclarators ds) (Trace.headDeclarators ds) (Scan.declarators o l ty ds)
  | _, _, [] => empty
  | l, ty, ⟨_,name,some e⟩ :: ds =>
    ((place { name } _).append (expr o l e)).append (headDeclarators o l ty ds)
  | l, ty, ⟨_,name,none⟩ :: ds =>
    ((place { name } _).append empty).append (headDeclarators o l ty ds)

theorem labels (o : Oracle) : ∀ (ls : List SwitchLabel),
    Maps (Layout.labels ls) (Trace.labels ls) id
  | [] => empty
  | .case value :: ls => (expr o false value).unscanned.append (labels o ls)
  | .default :: ls => labels o ls

theorem switchSections (o : Oracle) : ∀ (l : Bool) (sections : List SwitchSection),
    Maps (Layout.switchSections sections) (Trace.switchSections sections)
      (Scan.switchSections o l sections)
  | _, [] => empty
  | l, ⟨ls,statements⟩ :: rest =>
    ((labels o ls).append (stmts o l statements)).append (switchSections o l rest)

theorem catchClauses (o : Oracle) : ∀ (l : Bool) (clauses : List CatchClause),
    Maps (Layout.catchClauses clauses) (Trace.catchClauses clauses) (Scan.catchClauses o l clauses)
  | _, [] => empty
  | l, ⟨_,some name,block⟩ :: rest =>
    (inScope ((place { name } _).append (stmts o l block))).append (catchClauses o l rest)
  | l, ⟨_,none,block⟩ :: rest =>
    (inScope (empty.append (stmts o l block))).append (catchClauses o l rest)

theorem stmt (o : Oracle) : ∀ (l : Bool) (s : Stmt),
    Maps (Layout.stmt s) (Trace.stmt s) (Scan.stmt o l s)
  | l, .expression _ e => expr o l e
  | l, .ret _ (some e) => (expr o l e).quiet (y := []) rfl (keys_giveBack o l e)
  | _, .ret _ none => empty
  | l, .throw _ (some e) => expr o l e
  | _, .throw _ none => empty
  | l, .locals _ ⟨ty,ds⟩ => declarators o l ty ds
  | l, .switch _ subject sections => (expr o l subject).append (switchSections o l sections).inScope
  | l, .block _ statements => (stmts o l statements).inScope
  | l, .ifElse _ condition thenBranch (some s) =>
    ((expr o l condition).append (stmt o l thenBranch)).append (stmt o l s)
  | l, .ifElse _ condition thenBranch none =>
    ((expr o l condition).append (stmt o l thenBranch)).append empty
  | l, .forLoop _ (some ⟨ty,ds⟩) inits (some e) incrementors body => by
    have hhead := (headDeclarators o l ty ds).append (exprs o l inits).unlowered
    rw [List.append_nil] at hhead
    exact (((hhead.append (expr o l e)).append (exprs o l incrementors)).append
      (stmt o l body)).inScope
  | l, .forLoop _ (some ⟨ty,ds⟩) inits none incrementors body => by
    have hhead := (headDeclarators o l ty ds).append (exprs o l inits).unlowered
    rw [List.append_nil] at hhead
    exact (((hhead.append empty).append (exprs o l incrementors)).append (stmt o l body)).inScope
  | l, .forLoop _ none inits (some e) incrementors body =>
    ((((exprs o l inits).append (expr o l e)).append (exprs o l incrementors)).append
      (stmt o l body)).inScope
  | l, .forLoop _ none inits none incrementors body =>
    ((((exprs o l inits).append empty).append (exprs o l incrementors)).append
      (stmt o l body)).inScope
  | l, .whileLoop _ condition body => (expr o l condition).append (stmt o l body)
  | l, .doWhile _ body condition => (expr o l condition).append (stmt o l body)
  | l, .forEach _ _ name iterable body =>
    (expr o l iterable).append ((place { name } _).append (stmt o l body)).inScope
  | l, .tryCatch _ block catches (some statements) =>
    ((stmts o l block).inScope.append (catchClauses o l catches)).append
      (stmts o l statements).inScope
  | l, .tryCatch _ block catches none =>
    ((stmts o l block).inScope.append (catchClauses o l catches)).append empty
  | l, .lock _ target body => (lock (expr o l target)).append (stmt o l body)
  | l, .useResource _ (some ⟨ty,ds⟩) (some e) body => by
    have hhead := (declarators o l ty ds).append (expr o l e).unlowered
    rw [List.append_nil] at hhead
    exact (hhead.append (stmt o l body)).inScope
  | l, .useResource _ (some ⟨ty,ds⟩) none body => by
    have hhead := (declarators o l ty ds).append empty
    rw [List.append_nil] at hhead
    exact (hhead.append (stmt o l body)).inScope
  | l, .useResource _ none (some e) body => ((expr o l e).append (stmt o l body)).inScope
  | l, .useResource _ none none body => (empty.append (stmt o l body)).inScope
  | _, .breakLoop _ | _, .continueLoop _ | _, .empty _ | _, .other .. => empty

theorem stmts (o : Oracle) : ∀ (l : Bool) (ss : List Stmt),
    Maps (Layout.stmts ss) (Trace.stmts ss) (Scan.stmts o l ss)
  | _, [] => empty
  | l, s :: ss => (stmt o l s).append (stmts o l ss)

end

theorem body (o : Oracle) (returnsValue : Bool) (b : Body) :
    ∃ f, Maps (Layout.body b) (Trace.body b) f ∧ Scan.body o returnsValue b = f {} := by
  cases b with
  | block statements => exact ⟨_,stmts o false statements,rfl⟩
  | expression e =>
    have he := expr o false e
    cases returnsValue with
    | true => exact ⟨_,he.quiet (y := []) rfl (keys_giveBack o false e),rfl⟩
    | false => exact ⟨_,he,rfl⟩

end Maps

end Recast
