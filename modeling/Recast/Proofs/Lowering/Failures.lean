import Recast.Proofs.Lowering.Hoisting
import Recast.Proofs.Lowering.Hurdles
import Recast.Proofs.Lowering.Steps

/-! # Where lowering fails

Lowering fails at the first hurdle that stops it, and at nothing else. The lines that reach a
barrier are those of the boxes in it, so a barrier stops exactly if some argument in it is not lost.
-/
namespace Recast

/-- The error of a run. -/
def Lower.error? {α : Type} : Except LowerError α → Option LowerError
  | .ok _ => none
  | .error e => some e

namespace Surroundings
open Lower
variable (env : Surroundings) {α β : Type} {m : Lower α} {f : α → Lower β} {σ : Scope}
  {hs ks : List Hurdle}

/-- From a state in the scope, `m` fails at the first of the hurdles that stops, and if none does,
it succeeds. It comes back to the scope. -/
def Meets (σ : Scope) (hs : List Hurdle) (m : Lower α) : Prop := ∀ s : LowerState, s.scope = σ →
  (m s).2.scope = σ ∧ error? (m s).1 = Hurdle.failure? env.location hs

namespace Meets
variable {env}

/-- A step that always succeeds and stays in the scope. -/
theorem of_step {g : LowerState → LowerState} {a : LowerState → α}
    (hm : ∀ s, m s = (.ok (a s),g s)) (hg : ∀ s, (g s).scope = s.scope) : env.Meets σ [] m := by
  intro s hσ
  rw [hm]
  exact ⟨(hg s).trans hσ,rfl⟩

theorem pure (a : α) : env.Meets σ [] (Pure.pure a : Lower α) :=
  of_step (g := id) (fun _ => rfl) fun _ => rfl

theorem get : env.Meets σ [] (MonadState.get : Lower LowerState) :=
  of_step (g := id) (fun _ => rfl) fun _ => rfl

/-- What comes second may make use of how the first step went. -/
theorem bindRun (hm : env.Meets σ hs m)
    (hf : ∀ s a t, m s = (.ok a,t) → s.scope = σ → env.Meets σ ks (f a)) :
    env.Meets σ (hs ++ ks) (m >>= f) := by
  intro s hσ
  have h := hm s hσ
  rw [Hurdle.failure?_append]
  match hms : m s with
  | (.ok a, t) =>
    rw [hms] at h
    rw [bind_of_ok hms,← h.2]
    exact hf s a t hms hσ t h.1
  | (.error e, t) =>
    rw [hms] at h
    rw [bind_of_error hms,← h.2]
    exact ⟨h.1,rfl⟩

theorem bind (hm : env.Meets σ hs m) (hf : ∀ a, env.Meets σ ks (f a)) :
    env.Meets σ (hs ++ ks) (m >>= f) := hm.bindRun fun _ a _ _ _ => hf a

/-- The second step has no hurdles. -/
theorem next (hm : env.Meets σ hs m) (hf : ∀ a, env.Meets σ [] (f a)) :
    env.Meets σ hs (m >>= f) := List.append_nil hs ▸ hm.bind hf

/-- The first step has no hurdles. -/
theorem after (hm : env.Meets σ [] m) (hf : ∀ a, env.Meets σ ks (f a)) :
    env.Meets σ ks (m >>= f) := hm.bind hf

theorem isolated (h : env.Meets σ hs m) : env.Meets σ hs (Lower.isolated m) := by
  intro s hσ
  obtain ⟨hscope,hfail⟩ := h s hσ
  refine ⟨?_,hfail⟩
  change (m s).2.scope.restore s.scope.depth = σ
  rw [hscope,hσ,Scope.restore_depth]

theorem indented (h : env.Meets σ hs m) : env.Meets σ hs (Lower.indented m) :=
  fun s hσ => h { s with depth := s.depth + 1 } hσ

theorem calling (h : env.Meets σ hs m) (arity : Option Nat) :
    env.Meets σ hs (Lower.calling arity m) := fun s hσ => h { s with callArity := arity } hσ

theorem withBinding (h : env.Meets σ hs m) (receiver : ClassRef) :
    env.Meets σ hs (Lower.withBinding receiver m) :=
  fun s hσ => h { s with bindingReceiver := some receiver } hσ

/-- Behind a dot the scope has one more frame, which is dropped again. -/
theorem memberOf {receiver : ClassRef} (h : env.Meets (σ.push (.ofClass receiver)) hs m)
    (arity : Option Nat) : env.Meets σ hs (Lower.memberOf receiver arity m) := by
  intro s hσ
  let u : LowerState := { s with scope := s.scope.push (.ofClass receiver), callArity := arity }
  obtain ⟨hscope,hfail⟩ := h u (congrArg (Scope.push · _) hσ)
  refine ⟨?_,hfail⟩
  change (m u).2.scope.restore s.scope.depth = σ
  rw [hscope,hσ,Scope.restore_push]

theorem collected {m : Lower Unit} (h : env.Meets σ hs m) :
    env.Meets σ hs (Lower.collected m) := by
  intro s hσ
  obtain ⟨hscope,hfail⟩ := h { s with lines := [] } hσ
  refine ⟨hscope,Eq.trans ?_ hfail⟩
  change error? ((m { s with lines := [] }).1.map _) = error? (m { s with lines := [] }).1
  cases (m { s with lines := [] }).1 <;> rfl

theorem takeArity : env.Meets σ [] Lower.takeArity := of_step (fun _ => rfl) fun _ => rfl

theorem temp (word : String) : env.Meets σ [] (Lower.temp word) :=
  of_step (fun _ => rfl) fun _ => rfl

end Meets

/-- The elementary steps have no hurdles. -/
theorem unhindered : env.Elementary (env.Meets σ []) where
  pure a := .pure a
  bind hm hf := hm.next hf
  get := .get
  takeArity := .takeArity
  declare v := .of_step (fun _ => rfl) fun _ => rfl
  addImports lines := .of_step (fun _ => rfl) fun _ => rfl
  reference name := by
    refine .of_step (fun _ => rfl) fun s => ?_
    dsimp only
    split <;> rfl
  emit line := .of_step (fun _ => rfl) fun _ => rfl

theorem meets_unsupported (construct : String) (node : NodeId) :
    env.Meets σ [.unknown construct node] (env.unsupported construct node : Lower α) :=
  fun _ hσ => ⟨hσ,rfl⟩

theorem meets_refuse {barrier : Barrier} {lines : List String} {inside : List Passed}
    (h : lines = [] ↔ Passed.delivered inside = []) :
    env.Meets σ [.barrier barrier inside] (env.refuse barrier lines) := by
  intro s hσ
  unfold refuse Hurdle.failure?
  by_cases hd : Passed.delivered inside = []
  · rw [h.mpr hd,List.find?_cons_of_neg (by simp [Hurdle.stops,hd])]
    exact ⟨hσ,rfl⟩
  · have hlines : ¬ lines.isEmpty = true := by simpa using mt h.mp hd
    rw [if_neg hlines,List.find?_cons_of_pos (by simpa [Hurdle.stops] using hd)]
    exact ⟨hσ,rfl⟩

theorem meets_bind (word : String) (l : Lowered) : env.Meets σ [] (env.bind word l) := by
  refine (env.unhindered.emitAll _).next fun _ => ?_
  split
  · exact .pure _
  · exact (Meets.temp _).next fun _ => (env.unhindered.emit _).next fun _ =>
      (env.unhindered.emitAll _).next fun _ => .pure _

theorem meets_lambdaResult (l : Lowered) : env.Meets σ [] (env.lambdaResult l) := by
  unfold lambdaResult
  split
  · exact .pure _
  · have h : env.Meets σ [] (do
        let code ← env.bind "ret" l
        env.emit (env.dialect.returnStatement (some code))) :=
      (env.meets_bind "ret" l).next fun _ => env.unhindered.emit _
    exact h.indented.collected.next fun _ => env.unhindered.blockText _

theorem meets_bound (word : String) (l : Lowered) (line : String → String) :
    env.Meets σ [] (env.bound word l line) :=
  (env.meets_bind word l).next fun _ => env.unhindered.emit _

theorem meets_exitUnless (condition : Lowered) : env.Meets σ [] (env.exitUnless condition) :=
  (env.meets_bind _ _).next fun _ => (env.unhindered.emit _).next fun _ =>
    (env.unhindered.emit _).indented.next fun _ => env.unhindered.emit _

/-- A new local that gets the value of a box is no expression, and has no hurdles as one either. -/
theorem meets_argument (passing : Passing) (e : Expr) {lowered : Lower Lowered}
    {owned facing : Bool} (h : env.Meets σ (Hurdle.expr env.oracle owned facing e) lowered) :
    env.Meets σ (Hurdle.expr env.oracle owned facing e) (env.argument passing e lowered) := by
  have hboxed (l : Lowered) (withValue : Bool) : env.Meets σ [] (env.boxed l withValue) :=
    (Meets.temp _).next fun _ => .pure _
  unfold argument
  split
  · exact (Meets.temp _).next fun _ => (env.unhindered.spellType? _).next fun _ =>
      (env.unhindered.declareLocal _ _).next fun _ => .pure _
  · exact h.next fun _ => hboxed _ _
  · exact h.next fun _ => hboxed _ _
  · exact h.next fun _ => .pure _

/-- A name behind a dot, where `p` says that nothing is left of the target. -/
theorem meets_access (id : NodeId) (target name : Expr) {lowerTarget lowerName : Lower Lowered}
    {p : Bool} (ht : env.Meets σ hs lowerTarget)
    (hp : ∀ s l t, lowerTarget s = (.ok l,t) → s.scope = σ → l.processed = !p)
    (hn : p = true → env.Meets σ ks lowerName)
    (hm : p = false → ∀ c, env.Meets (σ.push (.ofClass c)) ks lowerName) :
    env.Meets σ (hs ++ ks) (env.access id target name lowerTarget lowerName) := by
  -- Where the name is looked up depends on what the target has come to.
  refine Meets.takeArity.after fun arity => ht.bindRun fun s l t hrun hσ => ?_
  have hl := hp s l t hrun hσ
  cases p with
  | true =>
    rw [if_pos (by rw [hl]; rfl)]
    exact (hn rfl).calling arity
  | false =>
    rw [if_neg (by rw [hl]; decide)]
    refine Meets.get.after fun _ => ((hm rfl _).memberOf arity).next fun member => ?_
    split
    · exact (env.unhindered.reference _).next fun _ => .pure _
    · exact .pure _

theorem meets_loopWithExit (condition : Lowered) (testLast : Bool) {body : Lower Unit}
    (h : env.Meets σ hs body) : env.Meets σ hs (env.loopWithExit condition testLast body) := by
  dsimp only [loopWithExit]
  split
  · refine (Meets.temp _).after fun _ => (env.unhindered.emit _).after fun _ =>
      (env.unhindered.emit _).after fun _ => .next (.indented ?_) fun _ => env.unhindered.emit _
    exact (env.unhindered.emit _).after fun _ => (env.meets_exitUnless _).indented.after fun _ =>
      (env.unhindered.emit _).after fun _ => (env.unhindered.emit _).after fun _ => h
  · exact (env.unhindered.emit _).after fun _ =>
      ((env.meets_exitUnless _).after fun _ => h).indented.next fun _ => env.unhindered.emit _

theorem meets_guarded {acquire : Lower (List String)} {body : Lower Unit}
    (ha : env.Meets σ hs acquire) (hb : env.Meets σ ks body) :
    env.Meets σ (hs ++ ks) (env.guarded acquire body) := by
  refine (env.unhindered.emit _).after fun _ => .next (.indented ?_) fun _ => env.unhindered.emit _
  exact ha.bind fun _ => (env.unhindered.emit _).after fun _ => hb.indented.next fun _ =>
    (env.unhindered.emit _).next fun _ => (env.unhindered.emitAll _).indented.next fun _ =>
      env.unhindered.emit _

theorem meets_placed (place : Place) {m : Lower Unit} (h : env.Meets σ hs m) :
    env.Meets σ hs (env.placed place m) := by
  unfold placed
  split
  · exact (env.unhindered.emit _).after fun _ => h.indented
  · exact h

theorem meets_branches (place : Place) (l : Lowered) {branches : Lower Unit}
    (h : env.Meets σ hs branches) :
    env.Meets σ hs (if place = .alternative ∧ l.hoists.isEmpty then do
        env.emit (env.dialect.elseIfHeader l.code)
        branches
      else env.placed place do
        env.bound "cond" l env.dialect.ifHeader
        branches
        env.emit env.dialect.blockClose) := by
  split
  · exact (env.unhindered.emit _).after fun _ => h
  · exact env.meets_placed place <| (env.meets_bound _ _ _).after fun _ => h.next fun _ =>
      env.unhindered.emit _

/-- An expression has lines before and after it exactly if some argument in it is not lost. -/
theorem hoists_eq_nil_iff {owner : Option ClassId} {e : Expr} {s t : LowerState} {l : Lowered}
    (h : env.expr owner e s = (.ok l,t)) (hσ : s.scope = σ) :
    let arguments := Passed.delivered (Passed.expr env.oracle σ.owned σ.facing e)
    (l.hoists.before = [] ↔ arguments = []) ∧ (l.hoists.after = [] ↔ arguments = []) := by
  have H := (env.lifts_expr owner e h hσ).1.hoisted
  simp only [← List.length_eq_zero_iff,H.length_before,H.length_after,and_self]

/-- An expression behind a barrier. Whether all lines are refused or only those after it makes no
difference, since there are either both or none. -/
theorem meets_barred {e : Expr} (b : Barrier) (lines : Hoists → List String)
    (hlines : ∀ h : Hoists, (h.before = [] ↔ h.after = []) → (lines h = [] ↔ h.after = []))
    {f : Lowered → Lower β} (he : env.Meets σ hs (env.expr none e))
    (hf : ∀ l, env.Meets σ ks (f l)) :
    env.Meets σ (hs ++ [.barrier b (Passed.expr env.oracle σ.owned σ.facing e)] ++ ks) (do
      let l ← env.expr none e
      env.refuse b (lines l.hoists)
      f l) := by
  rw [List.append_assoc]
  refine he.bindRun fun s l t hrun hσ => .bind (env.meets_refuse ?_) fun _ => hf l
  obtain ⟨hbefore,hafter⟩ := env.hoists_eq_nil_iff hrun hσ
  exact (hlines l.hoists (hbefore.trans hafter.symm)).trans hafter

theorem Hoists.all_eq_nil_iff (h : Hoists) (hsame : h.before = [] ↔ h.after = []) :
    h.before ++ h.after = [] ↔ h.after = [] := by
  rw [List.append_eq_nil_iff,hsame,and_self]

mutual

/-- Lowering an expression fails at its first hurdle that stops, if there is one. -/
theorem meets_expr {σ : Scope} (owner : Option ClassId) (e : Expr) :
    env.Meets σ (Hurdle.expr env.oracle σ.owned σ.facing e) (env.expr owner e) := by
  rw [expr.eq_def]
  refine .isolated ?_
  match e with
  | .assignment _ _ target value =>
    exact (meets_expr none target).bind fun _ => (meets_expr none value).next fun _ => .pure _
  | .identifier id name => exact env.unhindered.identifier id name
  | .genericName id name typeArgs =>
    exact (env.unhindered.identifier id name).next fun _ =>
      (env.unhindered.spellTypes typeArgs).next fun _ => .pure _
  | .memberAccess id target name | .qualifiedName id target name =>
    refine env.meets_access id target name (meets_expr none target)
      (fun _ _ _ hrun hσ => (env.lifts_expr none target hrun hσ).2) ?_ ?_
    · intro hv
      rw [if_pos hv]
      exact meets_expr none name
    · intro hv c
      have hn := meets_expr (σ := σ.push (.ofClass c)) none name
      rw [Scope.owned_push_ofClass,Scope.facing_push_ofClass] at hn
      rwa [if_neg (Bool.eq_false_iff.mp hv)]
  | .conditionalAccess _ target rest =>
    exact Meets.takeArity.after fun _ => (meets_expr none target).bind fun _ =>
      Meets.get.after fun _ => ((meets_expr none rest).withBinding _).next fun _ => .pure _
  | .memberBinding _ name =>
    refine Meets.takeArity.after fun _ => Meets.get.after fun s => ?_
    have hn := meets_expr (σ := σ.push (.ofClass (s.bindingReceiver.getD (.external "")))) none name
    rw [Scope.owned_push_ofClass,Scope.facing_push_ofClass] at hn
    exact (hn.memberOf _).next fun _ => .pure _
  | .invocation _ target args =>
    exact ((meets_expr none target).calling _).bind fun _ =>
      (meets_arguments args).next fun _ => .pure _
  | .elementAccess _ target args =>
    exact (meets_expr none target).bind fun _ => (meets_arguments args).next fun _ => .pure _
  | .objectCreation _ _ args (some init) =>
    exact (env.unhindered.spell _).after fun _ => (meets_arguments args).bind fun _ =>
      (meets_expr _ init).next fun _ => .pure _
  | .objectCreation _ _ args none =>
    exact (env.unhindered.spell _).after fun _ => (meets_arguments args).bind fun _ => .pure _
  | .this _ => exact Meets.get.next fun _ => .pure _
  | .base _ | .literal _ _ _ => exact .pure _
  | .binary _ _ left right =>
    exact (meets_expr none left).bind fun _ => (meets_expr none right).next fun _ => .pure _
  | .simpleLambda _ param body =>
    exact (env.unhindered.lambdaParams [param]).after fun _ =>
      (meets_lambdaBody body).next fun _ => .pure _
  | .parenthesizedLambda _ params body =>
    exact (env.unhindered.lambdaParams params).after fun _ =>
      (meets_lambdaBody body).next fun _ => .pure _
  | .conditional _ condition whenTrue whenFalse =>
    -- The barrier comes last: both branches are lowered before their lines are refused.
    refine (meets_expr none condition).bind fun _ =>
      (meets_expr none whenTrue).bindRun fun _ l _ hrun hσ =>
        (meets_expr none whenFalse).bindRun fun _ k _ hrun' hσ' =>
          (env.meets_refuse ?_).next fun _ => .pure _
    obtain ⟨hbefore,hafter⟩ := env.hoists_eq_nil_iff hrun hσ
    obtain ⟨hbefore',hafter'⟩ := env.hoists_eq_nil_iff hrun' hσ'
    change l.hoists.before ++ k.hoists.before ++ (l.hoists.after ++ k.hoists.after) = [] ↔ _
    simp only [Passed.delivered_append,List.append_eq_nil_iff,hbefore,hbefore',hafter,hafter',
      and_self]
  | .cast _ _ operand =>
    exact (env.unhindered.spell _).after fun _ => (meets_expr none operand).next fun _ => .pure _
  | .prefixUnary _ _ operand => exact (meets_expr none operand).next fun _ => .pure _
  | .postfixUnary _ _ operand => exact (meets_expr none operand).next fun _ => .pure _
  | .interpolatedString _ parts => exact (meets_interpolation parts).next fun _ => .pure _
  | .defaultValue _ (some _) | .defaultValue _ none => exact env.unhindered.defaultValue _
  | .predefinedType _ name => exact env.unhindered.predefinedType name
  | .tuple _ elements => exact (meets_arguments elements).next fun _ => .pure _
  | .initializer _ shape elements =>
    exact (meets_initializers owner shape elements).next fun _ => .pure _
  | .parenthesized _ inner => exact (meets_expr none inner).next fun _ => .pure _
  | .arrayCreation _ _ sizes (some init) =>
    exact (env.unhindered.spell _).after fun _ => (meets_exprs sizes).bind fun _ =>
      (meets_expr none init).next fun _ => .pure _
  | .arrayCreation _ _ sizes none =>
    exact (env.unhindered.spell _).after fun _ => (meets_exprs sizes).bind fun _ => .pure _
  | .typeOf _ _ => exact (env.unhindered.spell _).next fun _ => .pure _
  | .await _ operand => exact (meets_expr none operand).next fun _ => .pure _
  | .implicitArrayCreation _ init => exact (meets_expr none init).next fun _ => .pure _
  | .declaration _ _ name => exact (env.unhindered.declare _).next fun _ => .pure _
  | .other id construct => exact env.meets_unsupported construct id

theorem meets_exprs {σ : Scope} (es : List Expr) :
    env.Meets σ (Hurdle.exprs env.oracle σ.owned σ.facing es) (env.exprs es) := by
  rw [exprs.eq_def]
  match es with
  | [] => exact .pure _
  | e :: es => exact (meets_expr none e).bind fun _ => (meets_exprs es).next fun _ => .pure _

theorem meets_arguments {σ : Scope} (args : List Argument) :
    env.Meets σ (Hurdle.arguments env.oracle σ.owned σ.facing args) (env.arguments args) := by
  rw [arguments.eq_def]
  match args with
  | [] => exact .pure _
  | ⟨passing,e⟩ :: args =>
    exact (env.meets_argument passing e (meets_expr none e)).bind fun _ =>
      (meets_arguments args).next fun _ => .pure _

theorem meets_initializers {σ : Scope} (owner : Option ClassId) (shape : InitializerShape)
    (es : List Expr) :
    env.Meets σ (Hurdle.initializers env.oracle σ.owned σ.facing shape es)
      (env.initializers owner shape es) := by
  rw [initializers.eq_def]
  match es with
  | [] => exact .pure _
  | e :: es =>
    have hrest := meets_initializers (σ := σ) owner shape es
    have hvalue : ∀ {id op i name value}, e = .assignment id op (.identifier i name) value →
        env.Meets σ (Hurdle.expr env.oracle σ.owned σ.facing value) (env.expr none value) := by
      cases e with
      | assignment id op target value =>
        rintro _ _ _ _ _ ⟨⟩
        exact meets_expr none value
      | _ => nofun
    dsimp only
    split
    · exact (hvalue rfl).bind fun _ => (Meets.pure _).after fun _ => hrest.next fun _ => .pure _
    · next hx =>
      rw [Hurdle.initializers]
      · exact (meets_expr none e).bind fun _ => hrest.next fun _ => .pure _
      · exact hx

theorem meets_interpolation {σ : Scope} (parts : List InterpolationPart) :
    env.Meets σ (Hurdle.interpolation env.oracle σ.owned σ.facing parts)
      (env.interpolation parts) := by
  rw [interpolation.eq_def]
  match parts with
  | [] => exact .pure _
  | .text _ :: parts => exact (meets_interpolation parts).next fun _ => .pure _
  | .expression e _ :: parts =>
    exact (meets_expr none e).bind fun _ => (meets_interpolation parts).next fun _ => .pure _

theorem meets_lambdaBody {σ : Scope} (body : LambdaBody) :
    env.Meets σ (Hurdle.lambdaBody env.oracle σ.owned σ.facing body) (env.lambdaBody body) := by
  rw [lambdaBody.eq_def]
  match body with
  | .block statements =>
    exact (meets_stmts statements).indented.collected.next fun _ => env.unhindered.blockText _
  | .expression e => exact (meets_expr none e).next fun _ => env.meets_lambdaResult _

theorem meets_declarators {σ : Scope} (ty : Option String) (ds : List Declarator) :
    env.Meets σ (Hurdle.declarators env.oracle σ.owned σ.facing ds) (env.declarators ty ds) := by
  rw [declarators.eq_def]
  match ds with
  | [] => exact .pure _
  | ⟨_,name,some e⟩ :: ds =>
    exact (meets_expr none e).bind fun _ => (env.unhindered.declareLocal name true).after fun _ =>
      (env.unhindered.splice _ _).after fun _ => meets_declarators ty ds
  | ⟨_,name,none⟩ :: ds =>
    exact (env.unhindered.declareLocal name false).after fun _ =>
      (env.unhindered.emit _).after fun _ => meets_declarators ty ds

theorem meets_headDeclarators {σ : Scope} (ds : List Declarator) :
    env.Meets σ (Hurdle.headDeclarators env.oracle σ.owned σ.facing ds)
      (env.headDeclarators ds) := by
  rw [headDeclarators.eq_def]
  match ds with
  | [] => exact .pure _
  | ⟨_,name,some e⟩ :: ds =>
    exact (env.unhindered.declare _).after fun _ =>
      env.meets_barred .forInitializer Hoists.after (fun _ _ => .rfl) (meets_expr none e) fun _ =>
        (env.unhindered.emitAll _).after fun _ => (Meets.pure _).after fun _ =>
          (meets_headDeclarators ds).next fun _ => .pure _
  | ⟨_,name,none⟩ :: ds =>
    exact (env.unhindered.declare _).after fun _ => (Meets.pure _).after fun _ =>
      (meets_headDeclarators ds).next fun _ => .pure _

theorem meets_headInitializers {σ : Scope} (es : List Expr) :
    env.Meets σ (Hurdle.headExprs env.oracle σ.owned σ.facing .forInitializer es)
      (env.headInitializers es) := by
  rw [headInitializers.eq_def]
  match es with
  | [] => exact .pure _
  | e :: es =>
    exact env.meets_barred .forInitializer Hoists.after (fun _ _ => .rfl) (meets_expr none e)
      fun _ => (env.unhindered.emitAll _).after fun _ => (meets_headInitializers es).next fun _ =>
        .pure _

theorem meets_headIncrementors {σ : Scope} (es : List Expr) :
    env.Meets σ (Hurdle.headExprs env.oracle σ.owned σ.facing .forIncrementor es)
      (env.headIncrementors es) := by
  rw [headIncrementors.eq_def]
  match es with
  | [] => exact .pure _
  | e :: es =>
    exact env.meets_barred .forIncrementor (fun h => h.before ++ h.after) Hoists.all_eq_nil_iff
      (meets_expr none e) fun _ => (meets_headIncrementors es).next fun _ => .pure _

theorem meets_labels {σ : Scope} (ls : List SwitchLabel) :
    env.Meets σ (Hurdle.labels env.oracle σ.owned σ.facing ls) (env.labels ls) := by
  rw [labels.eq_def]
  match ls with
  | [] => exact .pure _
  | .case value :: ls =>
    exact env.meets_barred .caseLabel (fun h => h.before ++ h.after) Hoists.all_eq_nil_iff
      (meets_expr none value) fun _ => (env.unhindered.emit _).after fun _ => meets_labels ls
  | .default :: ls => exact (env.unhindered.emit _).after fun _ => meets_labels ls

theorem meets_switchSections {σ : Scope} (sections : List SwitchSection) :
    env.Meets σ (Hurdle.switchSections env.oracle σ.owned σ.facing sections)
      (env.switchSections sections) := by
  rw [switchSections.eq_def]
  match sections with
  | [] => exact .pure _
  | ⟨labels,statements⟩ :: sections =>
    exact (meets_labels labels).bind fun _ => (meets_stmts statements).indented.bind fun _ =>
      meets_switchSections sections

theorem meets_catchClauses {σ : Scope} (clauses : List CatchClause) :
    env.Meets σ (Hurdle.catchClauses env.oracle σ.owned σ.facing clauses)
      (env.catchClauses clauses) := by
  rw [catchClauses.eq_def]
  match clauses with
  | [] => exact .pure _
  | ⟨_,some name,block⟩ :: clauses =>
    exact (env.unhindered.declare _).after fun _ => (env.unhindered.spellType? _).after fun _ =>
      (env.unhindered.emit _).after fun _ => (meets_stmts block).indented.bind fun _ =>
        meets_catchClauses clauses
  | ⟨_,none,block⟩ :: clauses =>
    exact (env.unhindered.spellType? _).after fun _ => (env.unhindered.emit _).after fun _ =>
      (meets_stmts block).indented.bind fun _ => meets_catchClauses clauses

theorem meets_stmt {σ : Scope} (place : Place) (st : Stmt) :
    env.Meets σ (Hurdle.stmt env.oracle σ.owned σ.facing st) (env.stmt place st) := by
  rw [stmt.eq_def]
  match st with
  | .expression _ e =>
    exact env.meets_placed place <| (meets_expr none e).next fun _ =>
      env.unhindered.expressionStatement _
  | .ret _ (some e) | .throw _ (some e) =>
    exact env.meets_placed place <| (meets_expr none e).next fun _ => env.meets_bound _ _ _
  | .ret _ none | .throw _ none | .breakLoop _ | .continueLoop _ =>
    exact env.meets_placed place (env.unhindered.emit _)
  | .locals _ ⟨_,ds⟩ =>
    exact env.meets_placed place <| (env.unhindered.spellType? _).after fun _ =>
      meets_declarators _ ds
  | .switch _ subject sections =>
    exact env.meets_placed place <| (meets_expr none subject).bind fun _ =>
      (env.meets_bound _ _ _).after fun _ => (meets_switchSections sections).indented.next fun _ =>
        env.unhindered.emit _
  | .block _ statements =>
    match place with
    | .line =>
      exact (env.unhindered.emit _).after fun _ => (meets_stmts statements).indented.next fun _ =>
        env.unhindered.emit _
    | .inner => exact env.meets_placed .inner (meets_stmts statements)
    | .alternative => exact env.meets_placed .alternative (meets_stmts statements)
  | .ifElse _ condition thenBranch (some otherwise) =>
    exact (meets_expr none condition).bind fun _ => env.meets_branches place _ <|
      (meets_stmt .inner thenBranch).indented.bind fun _ => meets_stmt .alternative otherwise
  | .ifElse _ condition thenBranch none =>
    exact (meets_expr none condition).bind fun _ => env.meets_branches place _ <|
      (meets_stmt .inner thenBranch).indented.bind fun _ => .pure _
  | .forLoop _ declaration initializers condition incrementors body =>
    have hsteps (init condition : Option String) : env.Meets σ
        (Hurdle.headExprs env.oracle σ.owned σ.facing .forIncrementor incrementors ++
          Hurdle.stmt env.oracle σ.owned σ.facing body) (do
          let steps ← env.headIncrementors incrementors
          env.emit (env.dialect.forHeader init condition steps)
          Lower.indented (env.stmt .inner body)
          env.emit env.dialect.blockClose) :=
      (meets_headIncrementors incrementors).bind fun _ => (env.unhindered.emit _).after fun _ =>
        (meets_stmt .inner body).indented.next fun _ => env.unhindered.emit _
    match declaration, condition with
    | some ⟨_,ds⟩, some e =>
      exact env.meets_placed place <| (meets_headDeclarators ds).bind fun _ =>
        (Meets.pure _).after fun _ => env.meets_barred .forCondition
          (fun h => h.before ++ h.after) Hoists.all_eq_nil_iff (meets_expr none e) fun _ =>
            (Meets.pure _).after fun _ => hsteps _ _
    | some ⟨_,ds⟩, none =>
      exact env.meets_placed place <| (meets_headDeclarators ds).bind fun _ =>
        (Meets.pure _).after fun _ => (Meets.pure _).after fun _ => hsteps _ _
    | none, some e =>
      exact env.meets_placed place <| (meets_headInitializers initializers).bind fun _ =>
        (Meets.pure _).after fun _ => env.meets_barred .forCondition
          (fun h => h.before ++ h.after) Hoists.all_eq_nil_iff (meets_expr none e) fun _ =>
            (Meets.pure _).after fun _ => hsteps _ _
    | none, none =>
      exact env.meets_placed place <| (meets_headInitializers initializers).bind fun _ =>
        (Meets.pure _).after fun _ => (Meets.pure _).after fun _ => hsteps _ _
  | .whileLoop _ condition body | .doWhile _ body condition =>
    have hb := meets_stmt (σ := σ) .inner body
    refine env.meets_placed place <| (meets_expr none condition).bind fun _ => ?_
    split
    · exact (env.unhindered.emit _).after fun _ => hb.indented.next fun _ => env.unhindered.emit _
    · exact env.meets_loopWithExit _ _ hb
  | .forEach _ _ name iterable body =>
    exact env.meets_placed place <| (meets_expr none iterable).bind fun _ =>
      (env.meets_bind _ _).after fun _ => (env.unhindered.declare _).after fun _ =>
        (env.unhindered.spellType? _).after fun _ => (env.unhindered.emit _).after fun _ =>
          (meets_stmt .inner body).indented.next fun _ => env.unhindered.emit _
  | .tryCatch _ block catches (some statements) =>
    exact env.meets_placed place <| (env.unhindered.emit _).after fun _ =>
      (meets_stmts block).indented.bind fun _ => (meets_catchClauses catches).bind fun _ =>
        (env.unhindered.emit _).after fun _ => (meets_stmts statements).indented.next fun _ =>
          env.unhindered.emit _
  | .tryCatch _ block catches none =>
    exact env.meets_placed place <| (env.unhindered.emit _).after fun _ =>
      (meets_stmts block).indented.bind fun _ => (meets_catchClauses catches).bind fun _ =>
        env.unhindered.emit _
  | .lock _ target body =>
    have hb : env.Meets σ (Hurdle.stmt env.oracle σ.owned σ.facing body) (do
        env.emit env.dialect.blockOpen
        Lower.indented (env.stmt .inner body)
        env.emit env.dialect.blockClose) :=
      (env.unhindered.emit _).after fun _ => (meets_stmt .inner body).indented.next fun _ =>
        env.unhindered.emit _
    have he := meets_expr (σ := σ) none target
    refine env.meets_placed place ?_
    rw [Hurdle.stmt]
    dsimp only
    cases target.isPlainReference with
    | true => exact hb
    | false => exact he.bind fun _ => (env.unhindered.expressionStatement _).after fun _ => hb
  | .useResource _ (some ⟨_,ds⟩) target body =>
    exact env.meets_placed place <| env.meets_guarded
      ((env.unhindered.spellType? _).after fun _ => (meets_declarators _ ds).next fun _ => .pure _)
      (meets_stmt .inner body)
  | .useResource _ none (some e) body =>
    exact env.meets_placed place <| env.meets_guarded
      ((meets_expr none e).next fun _ => (Meets.temp _).next fun _ =>
        (env.unhindered.splice _ _).next fun _ => .pure _) (meets_stmt .inner body)
  | .useResource _ none none body =>
    exact env.meets_placed place <| env.meets_guarded (.pure _) (meets_stmt .inner body)
  | .empty _ => exact env.meets_placed place (.pure _)
  | .other id construct => exact env.meets_placed place (env.meets_unsupported _ _)

theorem meets_stmts {σ : Scope} (ss : List Stmt) :
    env.Meets σ (Hurdle.stmts env.oracle σ.owned σ.facing ss) (env.stmts ss) := by
  rw [stmts.eq_def]
  match ss with
  | [] => exact .pure _
  | s :: ss => exact (meets_stmt .line s).bind fun _ => meets_stmts ss

end

end Surroundings

end Recast
