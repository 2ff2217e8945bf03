import Recast.Proofs.Locals.Trace
import Recast.Proofs.Lowering.Runs

/-! # What all of lowering does

Lowering is put together from a few steps: writing a line, noting a class, an import or a local,
handing out a name, moving in the scope. A property that the steps have, and that is kept when
computations with it are put together, is a property of the lowering of every body. It may depend
on what the computation does: whether it writes lines, and which locals it declares. The trace says
what that is for the lowering of a body.
-/
namespace Recast.Surroundings
open LocalEvent

/-- A property of the steps that note something, which is kept when they are put together. -/
structure Noting (env : Surroundings) (P : {α : Type} → Lower α → Prop) : Prop where
  pure {α : Type} (a : α) : P (Pure.pure a : Lower α)
  bind {α β : Type} {m : Lower α} {f : α → Lower β} : P m → (∀ a, P (f a)) → P (m >>= f)
  get : P (MonadState.get : Lower LowerState)
  takeArity : P Lower.takeArity
  addImports (lines : List String) :
    P (modify fun s => { s with imports := SortedSet.addAll s.imports lines } : Lower PUnit)
  reference (name : String) : P (env.reference name)

structure Writing (env : Surroundings) (P : {α : Type} → Lower α → Prop) : Prop
    extends Noting env P where
  emit (line : String) : P (env.emit line)

/-- A property of the steps that never fail, hand out no names and have no other computations in
them, which is kept when they are put together. -/
structure Elementary (env : Surroundings) (P : {α : Type} → Lower α → Prop) : Prop
    extends Writing env P where
  declare (v : DeclaredLocal) : P (Lower.declare v)

namespace Noting
variable {env : Surroundings} {P : {α : Type} → Lower α → Prop} (H : env.Noting P)
include H

theorem references (names : List String) : P (names.forM env.reference) := by
  induction names with
  | nil => exact H.pure ()
  | cons name names ih => exact H.bind (H.reference name) fun _ => ih

theorem spell (d : TypeDesc) : P (env.spell d) :=
  H.bind (H.references _) fun _ => H.bind (H.addImports _) fun _ => H.pure _

theorem spellTypes (tys : List SourceType) : P (env.spellTypes tys) := by
  induction tys with
  | nil => exact H.pure _
  | cons ty tys ih => exact H.bind (H.spell _) fun _ => H.bind ih fun _ => H.pure _

theorem spellType? (ty : Option SourceType) : P (env.spellType? ty) := by
  cases ty with
  | none => exact H.pure _
  | some ty => exact H.bind (H.spell _) fun _ => H.pure _

theorem member (owner : Option ClassId) (name : String) (arity : Option Nat)
    (isStatic : Option Bool) (declaredIn : Option String) :
    P (env.member owner name arity isStatic declaredIn) := by
  dsimp only [Surroundings.member]
  split
  · exact H.bind (H.reference _) fun _ => H.pure _
  · exact H.pure _

theorem typeName (name : String) : P (env.typeName name) := by
  dsimp only [Surroundings.typeName]
  split
  · exact H.bind (H.addImports _) fun _ => H.pure _
  · exact H.bind (H.reference _) fun _ => H.pure _

theorem plainName (scope : Scope) (name : String) (arity : Option Nat) :
    P (env.plainName scope name arity) := by
  dsimp only [Surroundings.plainName]
  split
  · exact H.pure _
  · split
    · exact H.member _ _ _ _ _
    · split
      · exact H.typeName name
      · exact H.pure _

theorem symbolName (scope : Scope) (symbol : Symbol) (name : String) (arity : Option Nat) :
    P (env.symbolName scope symbol name arity) := by
  dsimp only [Surroundings.symbolName]
  cases symbol.kind with
  | localVar | constructor | parameter | namespaceName => exact H.pure _
  | type => exact H.typeName name
  | field | property | event | method => exact H.member _ _ _ _ _

theorem identifier (id : NodeId) (name : String) : P (env.identifier id name) := by
  refine H.bind H.takeArity fun arity => H.bind H.get fun s => ?_
  dsimp only
  split
  · exact H.bind (H.pure _) fun _ => H.pure _
  · exact H.bind (H.symbolName _ _ _ _) fun _ => H.pure _
  · exact H.bind (H.plainName _ _ _) fun _ => H.pure _

theorem blockText (lines : List String) : P (env.blockText lines) := by
  unfold Surroundings.blockText
  split
  · exact H.pure _
  · exact H.bind H.get fun _ => H.pure _

theorem lambdaParams (params : List LambdaParam) : P (env.lambdaParams params) := by
  induction params with
  | nil => exact H.pure _
  | cons p params ih => exact H.bind (H.spellType? _) fun _ => H.bind ih fun _ => H.pure _

theorem defaultValue (ty : Option TypeDesc) : P (env.defaultValue ty) := by
  dsimp only [Surroundings.defaultValue]
  split
  · exact H.pure _
  · exact H.pure _
  · split
    · exact H.bind (H.spell _) fun _ => H.pure _
    · exact H.pure _

theorem predefinedType (name : String) : P (env.predefinedType name) := by
  dsimp only [Surroundings.predefinedType]
  split
  · exact H.bind (H.addImports _) fun _ => H.pure _
  · exact H.bind (H.spell _) fun _ => H.pure _

end Noting

namespace Writing
variable {env : Surroundings} {P : {α : Type} → Lower α → Prop} (H : env.Writing P)
include H

theorem emitAll (lines : List String) : P (env.emitAll lines) := by
  induction lines with
  | nil => exact H.pure ()
  | cons line lines ih => exact H.bind (H.emit line) fun _ => ih

theorem splice (hoists : Hoists) (line : String) : P (env.splice hoists line) :=
  H.bind (H.emitAll _) fun _ => H.bind (H.emit _) fun _ => H.emitAll _

theorem expressionStatement (l : Lowered) : P (env.expressionStatement l) := by
  unfold Surroundings.expressionStatement
  split
  · exact H.splice _ _
  · exact H.pure _

end Writing

theorem Elementary.declareLocal {env : Surroundings} {P : {α : Type} → Lower α → Prop}
    (H : env.Elementary P) (name : String) (hasValue : Bool) : P (env.declareLocal name hasValue) :=
  H.bind H.get fun _ => H.bind (H.declare _) fun _ => H.pure _

/-- A property of the steps of lowering that is kept when they are put together. It is one of
computations that write lines only if `w` is true and that declare the locals of the places. -/
structure Traced (env : Surroundings) (P : Bool → List Site → {α : Type} → Lower α → Prop) :
    Prop where
  pure {w : Bool} {α : Type} (a : α) : P w [] (Pure.pure a : Lower α)
  bind {w : Bool} {A B : List Site} {α β : Type} {m : Lower α} {f : α → Lower β} :
    P w A m → (∀ a, P w B (f a)) → P w (A ++ B) (m >>= f)
  get {w : Bool} : P w [] (MonadState.get : Lower LowerState)
  takeArity {w : Bool} : P w [] Lower.takeArity
  addImports {w : Bool} (lines : List String) : P w []
    (modify fun s => { s with imports := SortedSet.addAll s.imports lines } : Lower PUnit)
  reference {w : Bool} (name : String) : P w [] (env.reference name)
  emit (line : String) : P true [] (env.emit line)
  throw {w : Bool} {A : List Site} {α : Type} (e : LowerError) :
    P w A (MonadExcept.throw e : Lower α)
  temp {w : Bool} (word : String) : P w [] (Lower.temp word)
  declare {w : Bool} (name : String) : P w [{ name }] (Lower.declare { name })
  declareLocal {w : Bool} (name : String) (hasValue : Bool) :
    P w [{ name, valued := some hasValue }] (env.declareLocal name hasValue)
  isolated {w : Bool} {A : List Site} {α : Type} {m : Lower α} :
    P w A m → P w A (Lower.isolated m)
  indented {w : Bool} {A : List Site} {α : Type} {m : Lower α} :
    P w A m → P w A (Lower.indented m)
  collected {w : Bool} {A : List Site} {m : Lower Unit} : P true A m → P w A (Lower.collected m)
  withBinding {w : Bool} {A : List Site} {α : Type} {m : Lower α} (receiver : ClassRef) :
    P w A m → P w A (Lower.withBinding receiver m)
  calling {w : Bool} {A : List Site} {α : Type} {m : Lower α} (arity : Option Nat) :
    P w A m → P w A (Lower.calling arity m)
  memberOf {w : Bool} {A : List Site} {α : Type} {m : Lower α} (receiver : ClassRef)
    (arity : Option Nat) : P w A m → P w A (Lower.memberOf receiver arity m)

namespace Traced
variable {env : Surroundings} {P : Bool → List Site → {α : Type} → Lower α → Prop}
  (H : env.Traced P) {w : Bool} {A B : List Site} {a b c : List LocalEvent} {α β : Type}
  {m : Lower α} {f : α → Lower β}
include H

theorem noting : env.Noting (P w []) where
  pure := H.pure
  bind := H.bind
  get := H.get
  takeArity := H.takeArity
  addImports := H.addImports
  reference := H.reference

theorem writing : env.Writing (P true []) where
  toNoting := H.noting
  emit := H.emit

/-- Nothing is declared in the second step. -/
theorem next (hm : P w A m) (hf : ∀ x, P w [] (f x)) : P w A (m >>= f) := by
  have h := H.bind hm hf
  rwa [List.append_nil] at h

/-- Nothing is declared in the first step. -/
theorem after (hm : P w [] m) (hf : ∀ x, P w B (f x)) : P w B (m >>= f) := H.bind hm hf

/-- Two steps that follow the trace one after the other. -/
theorem andThen (hm : P w (sites a) m) (hf : ∀ x, P w (sites b) (f x)) :
    P w (sites (a ++ b)) (m >>= f) := by
  rw [sites_append]
  exact H.bind hm hf

omit H in
theorem assoc (h : P w (sites (a ++ (b ++ c))) m) : P w (sites (a ++ b ++ c)) m := by
  rwa [List.append_assoc]

omit H in
/-- Events that declare nothing leave no trace in the run. -/
theorem skip (ha : sites a = []) (h : P w (sites b) m) : P w (sites (a ++ b)) m := by
  rwa [sites_append, ha]

theorem initialized {name : String} (hm : P w (sites a) m)
    (hf : ∀ x, P w ({ name, valued := some true } :: sites b) (f x)) :
    P w (sites (initialized name a ++ b)) (m >>= f) := by
  rw [sites_append, sites_initialized, List.append_assoc]
  exact H.bind hm hf

omit H in
theorem function {params : List LambdaParam} (h : P w (sites a) m) :
    P w (sites (function params a)) m := by
  rwa [sites_function]

omit H in
theorem inScope (h : P w (sites a) m) : P w (sites (inScope a)) m := by
  rwa [sites_inScope]

omit H in
/-- A local that is declared at the start of a scope. -/
theorem introduced {site : Site} (h : P w (site :: sites (a ++ b)) m) :
    P w (sites (LocalEvent.inScope (introduce site ++ a) ++ b)) m := by
  rw [sites_append] at h
  rwa [sites_append, sites_inScope, sites_append]

theorem bindValue (word : String) (l : Lowered) : P true [] (env.bind word l) := by
  refine H.after (H.writing.emitAll _) fun _ => ?_
  split
  · exact H.pure _
  · exact H.after (H.temp _) fun _ => H.after (H.emit _) fun _ =>
      H.after (H.writing.emitAll _) fun _ => H.pure _

theorem refuse (barrier : Barrier) (lines : List String) : P w [] (env.refuse barrier lines) := by
  unfold Surroundings.refuse
  split
  · exact H.pure _
  · exact H.throw _

theorem lambdaResult (l : Lowered) : P w [] (env.lambdaResult l) := by
  unfold Surroundings.lambdaResult
  split
  · exact H.pure _
  · have hbody := H.after (H.bindValue "ret" l) fun code =>
      H.emit (env.dialect.returnStatement (some code))
    exact H.after (H.collected (H.indented hbody)) fun _ => H.noting.blockText _

theorem outDeclaration (ty : Option SourceType) (name : String) :
    P w [{ name, valued := some true }] (env.outDeclaration ty name) :=
  H.after (H.temp _) fun _ => H.after (H.noting.spellType? _) fun _ =>
    H.next (H.declareLocal name true) fun _ => H.pure _

theorem boxed (l : Lowered) (withValue : Bool) : P w [] (env.boxed l withValue) :=
  H.after (H.temp _) fun _ => H.pure _

theorem argument (passing : Passing) (e : Expr) {lowered : Lower Lowered}
    (h : P w (sites a) lowered) :
    P w (sites (Trace.argument passing e a)) (env.argument passing e lowered) := by
  have hboxed (withValue : Bool) : P w (sites (Trace.writes e ++ a))
      (do env.boxed (← lowered) withValue) :=
    skip (Trace.sites_writes e) (H.next h fun _ => H.boxed _ _)
  unfold Surroundings.argument
  split
  · exact H.outDeclaration _ _
  · next hd =>
    rw [Trace.argument_byOut hd]
    exact hboxed false
  · exact hboxed true
  · next hout href _ =>
    rw [Trace.argument_byValue hout href]
    exact H.next h fun _ => H.pure _

theorem access (id : NodeId) (target name : Expr) {lowerTarget lowerName : Lower Lowered}
    (ht : P w (sites a) lowerTarget) (hn : P w (sites b) lowerName) :
    P w (sites (a ++ b)) (env.access id target name lowerTarget lowerName) := by
  refine H.after H.takeArity fun arity => H.andThen ht fun l => ?_
  split
  · exact H.calling arity hn
  · refine H.after H.get fun s => H.next (H.memberOf _ arity hn) fun member => ?_
    split
    · exact H.after (H.reference _) fun _ => H.pure _
    · exact H.pure _

theorem bound (word : String) (l : Lowered) (line : String → String) :
    P true [] (env.bound word l line) := H.after (H.bindValue word l) fun _ => H.emit _

/-- A block between a line that opens it and one that closes it. -/
theorem between {body : Lower Unit} (first last : String) (h : P true A body) :
    P true A (do env.emit first; Lower.indented body; env.emit last) :=
  H.after (H.emit _) fun _ => H.next (H.indented h) fun _ => H.emit _

theorem exitUnless (condition : Lowered) : P true [] (env.exitUnless condition) :=
  H.after (H.bindValue _ _) fun _ => H.between _ _ (H.emit _)

theorem loopWithExit (condition : Lowered) (testLast : Bool) {body : Lower Unit}
    (h : P true A body) : P true A (env.loopWithExit condition testLast body) := by
  dsimp only [Surroundings.loopWithExit]
  split
  · refine H.after (H.temp _) fun _ => H.after (H.emit _) fun _ => H.between _ _ ?_
    exact H.after (H.emit _) fun _ => H.after (H.indented (H.exitUnless _)) fun _ =>
      H.after (H.emit _) fun _ => H.after (H.emit _) fun _ => h
  · exact H.between _ _ (H.after (H.exitUnless _) fun _ => h)

theorem guarded {acquire : Lower (List String)} {body : Lower Unit}
    (ha : P true (sites a) acquire) (hb : P true (sites b) body) :
    P true (sites (a ++ b)) (env.guarded acquire body) := by
  refine H.between _ _ (H.andThen ha fun _ => H.after (H.emit _) fun _ => ?_)
  exact H.next (H.indented hb) fun _ => H.between _ _ (H.writing.emitAll _)

theorem placed (place : Place) {m : Lower Unit} (h : P true A m) :
    P true A (env.placed place m) := by
  unfold Surroundings.placed
  split
  · exact H.after (H.emit _) fun _ => H.indented h
  · exact h

theorem branches (place : Place) (l : Lowered) {m : Lower Unit} (h : P true A m) :
    P true A (if place = .alternative ∧ l.hoists.isEmpty then do
        env.emit (env.dialect.elseIfHeader l.code)
        m
      else env.placed place do
        env.bound "cond" l env.dialect.ifHeader
        m
        env.emit env.dialect.blockClose) := by
  split
  · exact H.after (H.emit _) fun _ => h
  · exact H.placed place (H.after (H.bound _ _ _) fun _ => H.next h fun _ => H.emit _)

mutual

theorem expr {w : Bool} (owner : Option ClassId) (e : Expr) :
    P w (sites (Trace.expr e)) (env.expr owner e) := by
  rw [expr.eq_def]
  refine H.isolated ?_
  match e with
  | .assignment _ _ target value =>
    exact H.andThen (skip (Trace.sites_writes target) (expr none target)) fun _ =>
      H.next (expr none value) fun _ => H.pure _
  | .binary _ _ left right =>
    exact H.andThen (expr none left) fun _ => H.next (expr none right) fun _ => H.pure _
  | .identifier id name => exact H.noting.identifier id name
  | .genericName id name typeArgs =>
    exact H.after (H.noting.identifier id name) fun _ =>
      H.after (H.noting.spellTypes typeArgs) fun _ => H.pure _
  | .memberAccess id target name | .qualifiedName id target name =>
    exact H.access id _ _ (expr none target) (expr none name)
  | .conditionalAccess _ target rest =>
    exact H.after H.takeArity fun _ => H.andThen (expr none target) fun _ =>
      H.after H.get fun _ => H.next (H.withBinding _ (expr none rest)) fun _ => H.pure _
  | .memberBinding _ name =>
    exact H.after H.takeArity fun _ => H.after H.get fun _ =>
      H.next (H.memberOf _ _ (expr none name)) fun _ => H.pure _
  | .invocation _ target args =>
    exact H.andThen (H.calling _ (expr none target)) fun _ => H.next (arguments args) fun _ =>
      H.pure _
  | .objectCreation _ _ args (some init) =>
    exact H.after (H.noting.spell _) fun _ => H.andThen (arguments args) fun _ =>
      H.next (expr _ init) fun _ => H.pure _
  | .objectCreation _ _ args none =>
    exact H.after (H.noting.spell _) fun _ => H.andThen (b := []) (arguments args) fun _ =>
      H.pure _
  | .this _ => exact H.after H.get fun _ => H.pure _
  | .base _ | .literal _ _ _ => exact H.pure _
  | .simpleLambda _ param body =>
    exact function (H.after (H.noting.lambdaParams [param]) fun _ =>
      H.next (lambdaBody body) fun _ => H.pure _)
  | .parenthesizedLambda _ params body =>
    exact function (H.after (H.noting.lambdaParams params) fun _ =>
      H.next (lambdaBody body) fun _ => H.pure _)
  | .conditional _ condition whenTrue whenFalse =>
    exact assoc (H.andThen (expr none condition) fun _ => H.andThen (expr none whenTrue)
      fun _ => H.next (expr none whenFalse) fun _ => H.after (H.refuse _ _) fun _ => H.pure _)
  | .cast _ _ operand =>
    exact H.after (H.noting.spell _) fun _ => H.next (expr none operand) fun _ => H.pure _
  | .prefixUnary _ _ operand | .postfixUnary _ _ operand =>
    exact skip (by simp) (H.next (expr none operand) fun _ => H.pure _)
  | .parenthesized _ operand | .await _ operand | .implicitArrayCreation _ operand =>
    exact H.next (expr none operand) fun _ => H.pure _
  | .elementAccess _ target args =>
    exact H.andThen (expr none target) fun _ => H.next (arguments args) fun _ => H.pure _
  | .interpolatedString _ parts => exact H.next (interpolation parts) fun _ => H.pure _
  | .defaultValue _ (some _) | .defaultValue _ none => exact H.noting.defaultValue _
  | .predefinedType _ name => exact H.noting.predefinedType name
  | .tuple _ elements => exact H.next (arguments elements) fun _ => H.pure _
  | .initializer _ shape elements =>
    exact H.next (initializers owner shape elements) fun _ => H.pure _
  | .arrayCreation _ _ sizes (some init) =>
    exact H.after (H.noting.spell _) fun _ => H.andThen (exprs sizes) fun _ =>
      H.next (expr none init) fun _ => H.pure _
  | .arrayCreation _ _ sizes none =>
    exact H.after (H.noting.spell _) fun _ => H.andThen (b := []) (exprs sizes) fun _ =>
      H.pure _
  | .typeOf _ _ => exact H.after (H.noting.spell _) fun _ => H.pure _
  | .declaration _ _ name => exact H.next (H.declare name) fun _ => H.pure _
  | .other id construct => exact H.throw _

theorem exprs {w : Bool} (es : List Expr) : P w (sites (Trace.exprs es)) (env.exprs es) := by
  rw [exprs.eq_def]
  match es with
  | [] => exact H.pure _
  | e :: es => exact H.andThen (expr none e) fun _ => H.next (exprs es) fun _ => H.pure _

theorem arguments {w : Bool} (args : List Argument) :
    P w (sites (Trace.arguments args)) (env.arguments args) := by
  rw [arguments.eq_def]
  match args with
  | [] => exact H.pure _
  | ⟨passing,e⟩ :: args =>
    exact H.andThen (H.argument passing e (expr none e)) fun _ =>
      H.next (arguments args) fun _ => H.pure _

theorem initializers {w : Bool} (owner : Option ClassId) (shape : InitializerShape)
    (es : List Expr) : P w (sites (Trace.initializers shape es))
      (env.initializers owner shape es) := by
  rw [initializers.eq_def]
  match es with
  | [] => exact H.pure _
  | e :: es =>
    have hrest := initializers (w := w) owner shape es
    have hvalue : ∀ {id op i name value}, e = .assignment id op (.identifier i name) value →
        P w (sites (Trace.expr value)) (env.expr none value) := by
      cases e with
      | assignment id op target value =>
        rintro _ _ _ _ _ ⟨⟩
        exact expr none value
      | _ => nofun
    dsimp only
    split
    · exact H.andThen (hvalue rfl) fun _ => H.after (H.pure _) fun _ => H.next hrest fun _ =>
        H.pure _
    · next hx =>
      rw [Trace.initializers]
      · exact H.andThen (expr none e) fun _ => H.next hrest fun _ => H.pure _
      · exact hx

theorem interpolation {w : Bool} (parts : List InterpolationPart) :
    P w (sites (Trace.interpolation parts)) (env.interpolation parts) := by
  rw [interpolation.eq_def]
  match parts with
  | [] => exact H.pure _
  | .text _ :: parts => exact H.next (interpolation parts) fun _ => H.pure _
  | .expression e _ :: parts =>
    exact H.andThen (expr none e) fun _ => H.next (interpolation parts) fun _ => H.pure _

theorem lambdaBody {w : Bool} (body : LambdaBody) :
    P w (sites (Trace.lambdaBody body)) (env.lambdaBody body) := by
  rw [lambdaBody.eq_def]
  match body with
  | .block statements =>
    exact H.next (H.collected (H.indented (stmts statements))) fun _ => H.noting.blockText _
  | .expression e => exact H.next (expr none e) fun _ => H.lambdaResult _

theorem declarators (ty : Option String) (ds : List Declarator) :
    P true (sites (Trace.declarators ds)) (env.declarators ty ds) := by
  rw [declarators.eq_def]
  match ds with
  | [] => exact H.pure _
  | ⟨_,name,some e⟩ :: ds =>
    exact H.initialized (expr none e) fun _ => H.bind (H.declareLocal name true) fun _ =>
      H.after (H.writing.splice _ _) fun _ => declarators ty ds
  | ⟨_,name,none⟩ :: ds =>
    exact H.andThen (a := introduce { name, valued := some false }) (H.declareLocal name false)
      fun _ => H.after (H.emit _) fun _ => declarators ty ds

theorem headDeclarators (ds : List Declarator) : P true (sites (Trace.headDeclarators ds))
      (env.headDeclarators ds) := by
  rw [headDeclarators.eq_def]
  match ds with
  | [] => exact H.pure _
  | ⟨_,name,some e⟩ :: ds =>
    exact assoc (H.andThen (a := introduce { name }) (H.declare name) fun _ =>
      H.andThen (expr none e) fun _ => H.after (H.refuse _ _) fun _ =>
        H.after (H.writing.emitAll _) fun _ => H.after (H.pure _) fun _ =>
          H.next (headDeclarators ds) fun _ => H.pure _)
  | ⟨_,name,none⟩ :: ds =>
    exact assoc (H.andThen (a := introduce { name }) (H.declare name) fun _ =>
      H.after (H.pure _) fun _ => H.next (headDeclarators ds) fun _ => H.pure _)

theorem headInitializers (es : List Expr) :
    P true (sites (Trace.exprs es)) (env.headInitializers es) := by
  rw [headInitializers.eq_def]
  match es with
  | [] => exact H.pure _
  | e :: es =>
    exact H.andThen (expr none e) fun _ => H.after (H.refuse _ _) fun _ =>
      H.after (H.writing.emitAll _) fun _ => H.next (headInitializers es) fun _ => H.pure _

theorem headIncrementors {w : Bool} (es : List Expr) :
    P w (sites (Trace.exprs es)) (env.headIncrementors es) := by
  rw [headIncrementors.eq_def]
  match es with
  | [] => exact H.pure _
  | e :: es =>
    exact H.andThen (expr none e) fun _ => H.after (H.refuse _ _) fun _ =>
      H.next (headIncrementors es) fun _ => H.pure _

theorem labels (ls : List SwitchLabel) : P true (sites (Trace.labels ls)) (env.labels ls) := by
  rw [labels.eq_def]
  match ls with
  | [] => exact H.pure _
  | .case value :: ls =>
    exact H.andThen (expr none value) fun _ => H.after (H.refuse _ _) fun _ =>
      H.after (H.emit _) fun _ => labels ls
  | .default :: ls => exact H.after (H.emit _) fun _ => labels ls

theorem switchSections (sections : List SwitchSection) :
    P true (sites (Trace.switchSections sections)) (env.switchSections sections) := by
  rw [switchSections.eq_def]
  match sections with
  | [] => exact H.pure _
  | ⟨ls,statements⟩ :: sections =>
    exact assoc (H.andThen (labels ls) fun _ => H.andThen (H.indented (stmts statements))
      fun _ => switchSections sections)

theorem catchClauses (clauses : List CatchClause) : P true (sites (Trace.catchClauses clauses))
      (env.catchClauses clauses) := by
  rw [catchClauses.eq_def]
  match clauses with
  | [] => exact H.pure _
  | ⟨_,some name,block⟩ :: clauses =>
    exact introduced (H.bind (H.declare name) fun _ => H.after (H.noting.spellType? _) fun _ =>
      H.after (H.emit _) fun _ => H.andThen (H.indented (stmts block)) fun _ =>
        catchClauses clauses)
  | ⟨_,none,block⟩ :: clauses =>
    exact H.after (H.noting.spellType? _) fun _ => H.after (H.emit _) fun _ =>
      H.andThen (inScope (H.indented (stmts block))) fun _ => catchClauses clauses

theorem stmt (place : Place) (st : Stmt) : P true (sites (Trace.stmt st)) (env.stmt place st) := by
  rw [stmt.eq_def]
  match st with
  | .expression _ e =>
    exact H.placed place (H.next (expr none e) fun _ => H.writing.expressionStatement _)
  | .ret _ (some e) | .throw _ (some e) =>
    exact H.placed place (H.next (expr none e) fun _ => H.bound _ _ _)
  | .ret _ none | .throw _ none | .breakLoop _ | .continueLoop _ =>
    exact H.placed place (H.emit _)
  | .locals _ ⟨_,ds⟩ =>
    exact H.placed place (H.after (H.noting.spellType? _) fun _ => declarators _ ds)
  | .switch _ subject sections =>
    exact H.placed place (H.andThen (expr none subject) fun _ => H.after (H.bound _ _ _)
      fun _ => H.next (inScope (H.indented (switchSections sections))) fun _ => H.emit _)
  | .block _ statements =>
    match place with
    | .line => exact inScope (H.between _ _ (stmts statements))
    | .inner => exact inScope (H.placed .inner (stmts statements))
    | .alternative => exact inScope (H.placed .alternative (stmts statements))
  | .ifElse _ condition thenBranch (some otherwise) =>
    exact assoc (H.andThen (expr none condition) fun _ => H.branches place _
      (H.andThen (H.indented (stmt .inner thenBranch)) fun _ => stmt .alternative otherwise))
  | .ifElse _ condition thenBranch none =>
    exact assoc (H.andThen (expr none condition) fun _ => H.branches place _
      (H.andThen (b := []) (H.indented (stmt .inner thenBranch)) fun _ => H.pure _))
  | .forLoop _ declaration initializers condition incrementors body =>
    have hsteps (init condition : Option String) : P true
        (sites (Trace.exprs incrementors ++ Trace.stmt body)) (do
          let steps ← env.headIncrementors incrementors
          env.emit (env.dialect.forHeader init condition steps)
          Lower.indented (env.stmt .inner body)
          env.emit env.dialect.blockClose) :=
      H.andThen (headIncrementors incrementors) fun _ => H.between _ _ (stmt .inner body)
    match declaration, condition with
    | some ⟨_,ds⟩, some e =>
      exact H.placed place (inScope (assoc (assoc (H.andThen (headDeclarators ds) fun _ =>
        H.after (H.pure _) fun _ => H.andThen (expr none e) fun _ => H.after (H.refuse _ _)
          fun _ => H.after (H.pure _) fun _ => hsteps _ _))))
    | some ⟨_,ds⟩, none =>
      exact H.placed place (inScope (assoc (assoc (H.andThen (headDeclarators ds) fun _ =>
        H.after (H.pure _) fun _ => H.after (H.pure _) fun _ => hsteps _ _))))
    | none, some e =>
      exact H.placed place (inScope (assoc (assoc (H.andThen (headInitializers initializers)
        fun _ => H.after (H.pure _) fun _ => H.andThen (expr none e) fun _ =>
          H.after (H.refuse _ _) fun _ => H.after (H.pure _) fun _ => hsteps _ _))))
    | none, none =>
      exact H.placed place (inScope (assoc (assoc (H.andThen (headInitializers initializers)
        fun _ => H.after (H.pure _) fun _ => H.after (H.pure _) fun _ => hsteps _ _))))
  | .whileLoop _ condition body | .doWhile _ body condition =>
    have hbody := stmt .inner body
    refine H.placed place (H.andThen (expr none condition) fun _ => ?_)
    split
    · exact H.between _ _ hbody
    · exact H.loopWithExit _ _ hbody
  | .forEach _ _ name iterable body =>
    refine H.placed place (H.andThen (expr none iterable) fun _ => inScope ?_)
    exact H.after (H.bindValue _ _) fun _ => H.andThen (a := introduce { name }) (H.declare name)
      fun _ => H.after (H.noting.spellType? _) fun _ => H.between _ _ (stmt .inner body)
  | .tryCatch _ block catches (some statements) =>
    exact H.placed place (H.after (H.emit _) fun _ => assoc
      (H.andThen (inScope (H.indented (stmts block))) fun _ => H.andThen (catchClauses catches)
        fun _ => H.between _ _ (inScope (stmts statements))))
  | .tryCatch _ block catches none =>
    exact H.placed place (H.after (H.emit _) fun _ => assoc
      (H.andThen (inScope (H.indented (stmts block))) fun _ =>
        H.andThen (b := []) (catchClauses catches) fun _ => H.emit _))
  | .lock _ target body =>
    have hbody := H.between env.dialect.blockOpen env.dialect.blockClose (stmt .inner body)
    have htarget := expr (w := true) none target
    refine H.placed place ?_
    change P true (sites ((if target.isPlainReference then [] else Trace.expr target) ++ _)) _
    dsimp only
    cases target.isPlainReference with
    | true => exact hbody
    | false =>
      exact H.andThen htarget fun _ => H.after (H.writing.expressionStatement _) fun _ => hbody
  | .useResource _ (some ⟨_,ds⟩) target body =>
    exact H.placed place (inScope (H.guarded (H.after (H.noting.spellType? _) fun _ =>
      H.next (declarators _ ds) fun _ => H.pure _) (stmt .inner body)))
  | .useResource _ none (some e) body =>
    exact H.placed place (inScope (H.guarded (H.next (expr none e) fun _ =>
      H.after (H.temp _) fun _ => H.after (H.writing.splice _ _) fun _ => H.pure _)
        (stmt .inner body)))
  | .useResource _ none none body =>
    exact H.placed place (inScope (H.guarded (a := []) (H.pure _) (stmt .inner body)))
  | .empty _ => exact H.placed place (H.pure _)
  | .other id construct => exact H.placed place (H.throw _)

theorem stmts (ss : List Stmt) : P true (sites (Trace.stmts ss)) (env.stmts ss) := by
  rw [stmts.eq_def]
  match ss with
  | [] => exact H.pure _
  | s :: ss => exact H.andThen (stmt .line s) fun _ => stmts ss

end

theorem returningBody (b : Body) : P true (sites (Trace.body b)) (env.returningBody b) := by
  cases b with
  | block statements => exact H.stmts statements
  | expression e => exact H.next (H.expr none e) fun _ => H.bound _ _ _

theorem effectBody (b : Body) : P true (sites (Trace.body b)) (env.effectBody b) := by
  cases b with
  | block statements => exact H.stmts statements
  | expression e => exact H.next (H.expr none e) fun _ => H.writing.expressionStatement _

theorem chain (id : ClassId) (c : ConstructorChain) : P true (sites (Trace.arguments c.args))
      (env.chain id c) :=
  H.next (H.arguments c.args) fun _ => H.writing.splice _ _

theorem routineBody (id : ClassId) (f : Routine) :
    P true (sites (Trace.routine f)) (env.routineBody id f) := by
  have hbody (b : Body) : P true (sites (Trace.body b))
      (if f.returnType.isSome then env.returningBody b else env.effectBody b) := by
    split
    · exact H.returningBody b
    · exact H.effectBody b
  unfold Surroundings.routineBody Trace.routine
  cases f.chain with
  | none =>
    cases f.body with
    | none => exact H.pure ()
    | some b => exact hbody b
  | some c =>
    cases f.body with
    | none => exact H.andThen (H.chain id c) fun _ => H.pure ()
    | some b => exact H.andThen (H.chain id c) fun _ => hbody b

theorem accessorBody (v : Variable) (kind : AccessorKind) : P true (sites (Trace.accessor v kind))
      (env.accessorBody v kind) := by
  cases kind with
  | get =>
    unfold Surroundings.accessorBody Trace.accessor
    cases v.expressionBody with
    | some e => exact H.returningBody _
    | none =>
      cases v.getBody with
      | some b => exact H.returningBody b
      | none => exact H.pure ()
  | set | init =>
    unfold Surroundings.accessorBody Trace.accessor
    cases v.setBody with
    | some b => exact H.effectBody b
    | none => exact H.pure ()

theorem initialValue (e : Expr) : P true (sites (Trace.expr e)) (do
    let value ← env.expr none e
    env.refuse .fieldInitializer (value.hoists.before ++ value.hoists.after)
    env.emit value.code) :=
  H.next (H.expr none e) fun _ => H.after (H.refuse _ _) fun _ => H.emit _

end Traced

end Recast.Surroundings
