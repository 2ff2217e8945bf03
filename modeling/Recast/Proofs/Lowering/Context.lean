import Recast.Proofs.Lowering.Steps

/-! # Lowering keeps its context

Lowering gives back the scope, the indentation and the receiver it was called with, whether it
succeeds or fails, and only adds to what it counts and collects. If it succeeds, it has declared the
locals of the trace, in the order of the trace. Lowering an expression writes no lines at all.
-/
namespace Recast

theorem Scope.restore_depth (s : Scope) : s.restore s.depth = s := by
  simp [Scope.restore,Scope.depth]

theorem Scope.restore_push (s : Scope) (f : Frame) : (s.push f).restore s.depth = s := by
  simp [Scope.restore,Scope.push,Scope.depth]

theorem Scope.currentRoutine?_push_ofClass (s : Scope) (c : ClassRef) :
    (s.push (.ofClass c)).currentRoutine? = s.currentRoutine? := by
  simp only [currentRoutine?,innermost?,push,List.reverse_concat,List.findSome?_cons]

theorem Surroundings.routine?_push_ofClass (env : Surroundings) (s : Scope) (c : ClassRef) :
    env.routine? (s.push (.ofClass c)) = env.routine? s := by
  rw [routine?,Scope.currentRoutine?_push_ofClass,routine?]

/-- What a state may become: where lowering stands is the same, and what it collects has grown. -/
structure LowerState.Extends (s t : LowerState) : Prop where
  scope : t.scope = s.scope
  depth : t.depth = s.depth
  bindingReceiver : t.bindingReceiver = s.bindingReceiver
  callArity : s.callArity = none → t.callArity = none
  temps : s.temps ≤ t.temps
  declared : s.declared <+: t.declared
  imports : SortedSet.toList s.imports ⊆ SortedSet.toList t.imports
  referenced : s.referenced <+: t.referenced
  lines : s.lines <+: t.lines

namespace LowerState.Extends
variable {s t u : LowerState}

theorem refl (s : LowerState) : s.Extends s where
  scope := rfl
  depth := rfl
  bindingReceiver := rfl
  callArity h := h
  temps := Nat.le_refl _
  declared := List.prefix_rfl
  imports := List.Subset.refl _
  referenced := List.prefix_rfl
  lines := List.prefix_rfl

theorem trans (h : s.Extends t) (k : t.Extends u) : s.Extends u where
  scope := k.scope.trans h.scope
  depth := k.depth.trans h.depth
  bindingReceiver := k.bindingReceiver.trans h.bindingReceiver
  callArity hs := k.callArity (h.callArity hs)
  temps := Nat.le_trans h.temps k.temps
  declared := h.declared.trans k.declared
  imports := List.Subset.trans h.imports k.imports
  referenced := h.referenced.trans k.referenced
  lines := h.lines.trans k.lines

end LowerState.Extends

/-- What leaves the scope as it is needs no cutting back. -/
theorem Lower.isolated_of_scope_eq {α : Type} {m : Lower α} {s : LowerState}
    (h : (m s).2.scope = s.scope) : Lower.isolated m s = m s := by
  have hcut : (m s).2.scope.restore s.scope.depth = (m s).2.scope := by
    rw [h,Scope.restore_depth]
  change ((m s).1,{ (m s).2 with scope := (m s).2.scope.restore s.scope.depth }) = m s
  rw [hcut]
  rfl

/-- As far as the routine knows, the local may be written after it got its value. -/
def Routine.mayRewrite (f : Option Routine) (key : LocalKey) : Bool :=
  ((f.bind fun f => f.declaredLocal? key.1 key.2).map LocalVariable.reassigned).getD true

/-- The entry that a place adds to the declarations before it. -/
def Site.entry (f : Option Routine) (declared : List DeclaredLocal) (site : Site) :
    DeclaredLocal where
  name := site.name
  mutable := site.valued.map fun valued =>
    !valued || Routine.mayRewrite f (site.name,declared.countP fun v => v.name == site.name)

/-- The declarations after some more places in the routine. -/
def Site.log (f : Option Routine) (declared : List DeclaredLocal) (sites : List Site) :
    List DeclaredLocal :=
  sites.foldl (fun declared site => declared ++ [site.entry f declared]) declared

theorem Site.log_append (f : Option Routine) (declared : List DeclaredLocal) (a b : List Site) :
    log f declared (a ++ b) = log f (log f declared a) b := List.foldl_append

namespace Surroundings
open Lower LocalEvent
variable (env : Surroundings) {α β : Type} {m : Lower α} {f : α → Lower β} {A B : List Site}
  {w : Bool}

/-- If `m` succeeds, it declares the locals of the places. -/
def Declares (A : List Site) (m : Lower α) : Prop := ∀ s a t, m s = (.ok a,t) →
  t.declared = Site.log (env.routine? s.scope) s.declared A

/-- Whatever comes of it, `m` keeps its context, and it declares the locals of the places. -/
def Keeps (A : List Site) (m : Lower α) : Prop :=
  (∀ s : LowerState, s.Extends (m s).2) ∧ env.Declares A m

/-- `m` keeps its context, declares the locals of the places and writes nothing. -/
def Silent (A : List Site) (m : Lower α) : Prop :=
  env.Keeps A m ∧ ∀ s : LowerState, (m s).2.lines = s.lines

/-- `m` keeps its context, declares the locals of the places and writes nothing unless `w`. -/
def Follows (w : Bool) (A : List Site) (m : Lower α) : Prop :=
  env.Keeps A m ∧ (w = false → ∀ s : LowerState, (m s).2.lines = s.lines)

variable {env}

theorem Silent.keeps (h : env.Silent A m) : env.Keeps A m := h.1

theorem Silent.follows (h : env.Silent A m) : env.Follows w A m := ⟨h.1,fun _ => h.2⟩

theorem Follows.silent (h : env.Follows false A m) : env.Silent A m := ⟨h.1,h.2 rfl⟩

namespace Keeps

theorem bind (hm : env.Keeps A m) (hf : ∀ a, env.Keeps B (f a)) :
    env.Keeps (A ++ B) (m >>= f) := by
  constructor
  · intro s
    have h := hm.1 s
    match hms : m s with
    | (.ok a, t) =>
      rw [hms] at h
      rw [bind_of_ok hms]
      exact h.trans ((hf a).1 t)
    | (.error e, t) =>
      rw [hms] at h
      rw [bind_of_error hms]
      exact h
  · intro s b t h
    obtain ⟨a,u,h₁,h₂⟩ := ok_of_bind h
    have hs := (hm.1 s).scope
    rw [h₁] at hs
    rw [Site.log_append,(hf a).2 u b t h₂,hm.2 s a u h₁,show u.scope = s.scope from hs]

/-- Nothing is declared in the second step. -/
theorem next (hm : env.Keeps A m) (hf : ∀ a, env.Keeps [] (f a)) : env.Keeps A (m >>= f) := by
  have h := hm.bind hf
  rwa [List.append_nil] at h

theorem isolated (h : env.Keeps A m) : env.Keeps A (Lower.isolated m) := by
  constructor
  · intro s
    have k := h.1 s
    refine { k with scope := ?_ }
    change (m s).2.scope.restore s.scope.depth = s.scope
    rw [k.scope,Scope.restore_depth]
  · intro s a t hr
    obtain ⟨u,hu,rfl⟩ := ok_of_isolated hr
    exact h.2 s a u hu

theorem indented (h : env.Keeps A m) : env.Keeps A (Lower.indented m) := by
  constructor
  · intro s
    have k := h.1 { s with depth := s.depth + 1 }
    exact { k with depth := congrArg (· - 1) k.depth }
  · intro s a t hr
    obtain ⟨u,hu,rfl⟩ := ok_of_indented hr
    have hd := h.2 _ a u hu
    exact hd

theorem collected {m : Lower Unit} (h : env.Keeps A m) : env.Keeps A (Lower.collected m) := by
  constructor
  · intro s
    exact { h.1 { s with lines := [] } with lines := List.prefix_rfl }
  · intro s a t hr
    obtain ⟨u,hu,-,rfl⟩ := ok_of_collected hr
    have hd := h.2 _ () u hu
    exact hd

theorem withBinding (h : env.Keeps A m) (receiver : ClassRef) :
    env.Keeps A (Lower.withBinding receiver m) := by
  constructor
  · intro s
    exact { h.1 { s with bindingReceiver := some receiver } with bindingReceiver := rfl }
  · intro s a t hr
    obtain ⟨u,hu,rfl⟩ := ok_of_withBinding hr
    have hd := h.2 _ a u hu
    exact hd

theorem calling (h : env.Keeps A m) (arity : Option Nat) :
    env.Keeps A (Lower.calling arity m) := by
  constructor
  · intro s
    exact { h.1 { s with callArity := arity } with callArity := fun _ => rfl }
  · intro s a t hr
    obtain ⟨u,hu,rfl⟩ := ok_of_calling hr
    have hd := h.2 _ a u hu
    exact hd

/-- The frame of the receiver is dropped again, and it is in the same routine. -/
theorem memberOf (h : env.Keeps A m) (receiver : ClassRef) (arity : Option Nat) :
    env.Keeps A (Lower.memberOf receiver arity m) := by
  constructor
  · intro s
    have k := (h.calling arity).1 { s with scope := s.scope.push (.ofClass receiver) }
    refine { k with scope := ?_ }
    have hs := congrArg (Scope.restore · s.scope.depth) k.scope
    exact hs.trans (s.scope.restore_push _)
  · intro s a t hr
    obtain ⟨u,hu,rfl⟩ := ok_of_memberOf hr
    have hd := h.2 _ a u hu
    rwa [env.routine?_push_ofClass] at hd

end Keeps

theorem Follows.bind (hm : env.Follows w A m) (hf : ∀ a, env.Follows w B (f a)) :
    env.Follows w (A ++ B) (m >>= f) := by
  refine ⟨hm.1.bind fun a => (hf a).1,fun hw s => ?_⟩
  have h := hm.2 hw s
  match hms : m s with
  | (.ok a, t) =>
    rw [hms] at h
    rw [bind_of_ok hms]
    exact ((hf a).2 hw t).trans h
  | (.error e, t) =>
    rw [hms] at h
    rw [bind_of_error hms]
    exact h

namespace Silent

section
variable {s t : LowerState} {r : Except LowerError α} (hm : env.Silent A m) (h : m s = (r,t))
include hm h

theorem extends_of_run : s.Extends t := by
  have k := hm.1.1 s
  rwa [h] at k

theorem lines_eq : t.lines = s.lines := by
  have k := hm.2 s
  rwa [h] at k

theorem scope_eq : t.scope = s.scope := (hm.extends_of_run h).scope

theorem depth_eq : t.depth = s.depth := (hm.extends_of_run h).depth

theorem temps_le : s.temps ≤ t.temps := (hm.extends_of_run h).temps

end

/-- A step that always succeeds and adds something other than declarations and lines. -/
theorem of_step {g : LowerState → LowerState} {a : LowerState → α}
    (hm : ∀ s, m s = (.ok (a s),g s)) (he : ∀ s : LowerState, s.Extends (g s))
    (hd : ∀ s, (g s).declared = s.declared) (hl : ∀ s, (g s).lines = s.lines) :
    env.Silent [] m := by
  refine ⟨⟨fun s => ?_,fun s b t h => ?_⟩,fun s => ?_⟩
  · rw [hm]
    exact he s
  · rw [hm] at h
    cases h
    exact hd s
  · rw [hm]
    exact hl s

theorem pure (a : α) : env.Silent [] (Pure.pure a : Lower α) :=
  of_step (g := id) (fun _ => rfl) .refl (fun _ => rfl) fun _ => rfl

theorem get : env.Silent [] (MonadState.get : Lower LowerState) :=
  of_step (g := id) (fun _ => rfl) .refl (fun _ => rfl) fun _ => rfl

theorem throw (e : LowerError) : env.Silent A (MonadExcept.throw e : Lower α) :=
  ⟨⟨fun s => .refl s,nofun⟩,fun _ => rfl⟩

theorem bind (hm : env.Silent A m) (hf : ∀ a, env.Silent B (f a)) :
    env.Silent (A ++ B) (m >>= f) := (hm.follows.bind fun a => (hf a).follows).silent

theorem next (hm : env.Silent A m) (hf : ∀ a, env.Silent [] (f a)) : env.Silent A (m >>= f) := by
  have h := hm.bind hf
  rwa [List.append_nil] at h

theorem takeArity : env.Silent [] Lower.takeArity :=
  of_step (fun _ => rfl) (fun s => { LowerState.Extends.refl s with callArity := fun _ => rfl })
    (fun _ => rfl) fun _ => rfl

theorem temp (word : String) : env.Silent [] (Lower.temp word) :=
  of_step (fun _ => rfl) (fun s => { LowerState.Extends.refl s with temps := Nat.le_succ _ })
    (fun _ => rfl) fun _ => rfl

theorem addImports (lines : List String) : env.Silent []
    (modify fun s => { s with imports := SortedSet.addAll s.imports lines } : Lower PUnit) :=
  of_step (fun _ => rfl)
    (fun s => { LowerState.Extends.refl s with imports := SortedSet.subset_addAll s.imports lines })
    (fun _ => rfl) fun _ => rfl

/-- A declaration that has no line of its own. -/
theorem declare (name : String) : env.Silent [{ name }] (Lower.declare { name }) := by
  refine ⟨⟨fun s => ?_,fun s a t hr => ?_⟩,fun s => rfl⟩
  · exact { LowerState.Extends.refl s with declared := List.prefix_append _ _ }
  · cases hr
    rfl

end Silent

variable (env)

theorem silent_reference (name : String) : env.Silent [] (env.reference name) := by
  refine .of_step (fun _ => rfl) (fun s => ?_) (fun s => ?_) fun s => ?_
  all_goals dsimp only; split
  · exact { LowerState.Extends.refl s with referenced := List.prefix_append _ _ }
  · exact .refl s
  all_goals rfl

theorem silent_declareLocal (name : String) (hasValue : Bool) :
    env.Silent [{ name, valued := some hasValue }] (env.declareLocal name hasValue) := by
  refine ⟨⟨fun s => ?_,fun s a t hr => ?_⟩,fun s => rfl⟩
  · exact { LowerState.Extends.refl s with declared := List.prefix_append _ _ }
  · cases hr
    rfl

theorem keeps_emit (line : String) : env.Keeps [] (env.emit line) := by
  refine ⟨fun s => ?_,fun s a t hr => ?_⟩
  · exact { LowerState.Extends.refl s with lines := List.prefix_append _ _ }
  · cases hr
    rfl

/-- The steps that only note something are silent. -/
theorem silent : env.Noting (env.Silent []) where
  pure := .pure
  bind hm hf := hm.bind hf
  get := .get
  takeArity := .takeArity
  addImports := .addImports
  reference := env.silent_reference

/-- Lowering follows the trace of the body: it keeps its context, and it declares the locals of the
places. -/
theorem follows : env.Traced fun w A => env.Follows w A where
  pure a := (Silent.pure a).follows
  bind hm hf := hm.bind hf
  get := Silent.get.follows
  takeArity := Silent.takeArity.follows
  addImports lines := (Silent.addImports lines).follows
  reference name := (env.silent_reference name).follows
  emit line := ⟨env.keeps_emit line,nofun⟩
  throw e := (Silent.throw e).follows
  temp word := (Silent.temp word).follows
  declare name := (Silent.declare name).follows
  declareLocal name hasValue := (env.silent_declareLocal name hasValue).follows
  isolated h := ⟨h.1.isolated,fun hw s => h.2 hw s⟩
  indented h := ⟨h.1.indented,fun hw s => h.2 hw { s with depth := s.depth + 1 }⟩
  collected h := ⟨h.1.collected,fun _ _ => rfl⟩
  withBinding receiver h :=
    ⟨h.1.withBinding receiver,fun hw s => h.2 hw { s with bindingReceiver := some receiver }⟩
  calling arity h := ⟨h.1.calling arity,fun hw s => h.2 hw { s with callArity := arity }⟩
  memberOf receiver arity h := ⟨h.1.memberOf receiver arity,fun hw s =>
    h.2 hw { s with scope := s.scope.push (.ofClass receiver), callArity := arity }⟩

theorem silent_refuse (barrier : Barrier) (lines : List String) :
    env.Silent [] (env.refuse barrier lines) := (env.follows.refuse barrier lines).silent

theorem silent_outDeclaration (ty : Option SourceType) (name : String) :
    env.Silent [{ name, valued := some true }] (env.outDeclaration ty name) :=
  (env.follows.outDeclaration ty name).silent

theorem silent_boxed (l : Lowered) (withValue : Bool) : env.Silent [] (env.boxed l withValue) :=
  (env.follows.boxed l withValue).silent

theorem silent_expr (owner : Option ClassId) (e : Expr) :
    env.Silent (sites (Trace.expr e)) (env.expr owner e) := (env.follows.expr owner e).silent

theorem silent_exprs (es : List Expr) : env.Silent (sites (Trace.exprs es)) (env.exprs es) :=
  (env.follows.exprs es).silent

theorem silent_lambdaBody (body : LambdaBody) :
    env.Silent (sites (Trace.lambdaBody body)) (env.lambdaBody body) :=
  (env.follows.lambdaBody body).silent

theorem keeps_emitAll (lines : List String) : env.Keeps [] (env.emitAll lines) :=
  (env.follows.writing.emitAll lines).1

theorem keeps_stmt (place : Place) (st : Stmt) :
    env.Keeps (sites (Trace.stmt st)) (env.stmt place st) := (env.follows.stmt place st).1

theorem keeps_stmts (ss : List Stmt) : env.Keeps (sites (Trace.stmts ss)) (env.stmts ss) :=
  (env.follows.stmts ss).1

/-- After its first operand a binary expression goes on as its second one would from there. -/
theorem expr_binary (owner : Option ClassId) (id : NodeId) (op : BinaryOp) (left right : Expr)
    {s t : LowerState} {l : Lowered} (h : env.expr none left s = (.ok l,t)) :
    env.expr owner (.binary id op left right) s = (do
      let r ← env.expr none right
      return Lowered.join (env.dialect.binary l.code op r.code) (env.typeOf? id) [l,r]) t := by
  have hright := (env.silent_expr none right).next fun r =>
    Silent.pure (Lowered.join (env.dialect.binary l.code op r.code) (env.typeOf? id) [l,r])
  have hscope := (hright.1.1 t).scope.trans ((env.silent_expr none left).scope_eq h)
  have hrest := bind_of_ok (f := fun l => do
    let r ← env.expr none right
    return Lowered.join (env.dialect.binary l.code op r.code) (env.typeOf? id) [l,r]) h
  rw [← hrest] at hscope
  exact (isolated_of_scope_eq hscope).trans hrest

/-- Lowering leaks nothing, whether it succeeds or fails: of an expression as well as of statements,
and so the operands of a binary expression are lowered in the same scope. -/
theorem lowering_keeps_context (s : LowerState) :
    (∀ owner e, s.Extends (env.expr owner e s).2) ∧
    (∀ statements, s.Extends (env.stmts statements s).2) ∧
    ∀ owner id op left right l t, env.expr none left s = (.ok l,t) →
      t.scope = s.scope ∧ env.expr owner (.binary id op left right) s = (do
        let r ← env.expr none right
        return Lowered.join (env.dialect.binary l.code op r.code) (env.typeOf? id) [l,r]) t := by
  refine ⟨fun owner e => ?_,fun statements => ?_,?_⟩
  · exact (env.silent_expr owner e).keeps.1 s
  · exact (env.keeps_stmts statements).1 s
  · intro owner id op left right l t h
    have hscope := (env.silent_expr none left).scope_eq h
    exact ⟨hscope,env.expr_binary owner id op left right h⟩

end Surroundings

end Recast
