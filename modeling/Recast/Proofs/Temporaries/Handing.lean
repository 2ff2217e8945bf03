import Recast.Proofs.Lowering.Failures
import Recast.Proofs.Lowering.Steps
import Recast.Proofs.Temporaries.Requests

/-! # How names are handed out

A body that is lowered gets a name for each of its requests, in order and for nothing else. All
names are numbered by one counter, so the number of a name is the place of its request, whatever the
word is and however deep in lambdas and blocks the request is made.
-/
namespace Recast

namespace Lower
variable {α β : Type} {m : Lower α} {f : α → Lower β} {σ : Scope} {ws vs : List String}

/-- The name of a temporary variable. -/
def tempName (word : String) (number : Nat) : String := word ++ "_" ++ toString number

/-- The names after some more requests, the last one first. -/
def handOut (names words : List String) : List String :=
  words.foldl (fun names word => tempName word (names.length + 1) :: names) names

theorem handOut_append (names ws vs : List String) :
    handOut names (ws ++ vs) = handOut (handOut names ws) vs := List.foldl_append

/-- If `m` succeeds in the scope, it hands out a name for each of the words, in order, and comes
back to the scope. -/
def Grants (σ : Scope) (ws : List String) (m : Lower α) : Prop := ∀ s a t, m s = (.ok a,t) →
  s.scope = σ → t.scope = σ ∧ t.handedOut = handOut s.handedOut ws

namespace Grants

/-- A step that stays in the scope and hands out nothing. -/
theorem of_step {g : LowerState → LowerState} {a : LowerState → α}
    (hm : ∀ s, m s = (.ok (a s),g s)) (hscope : ∀ s, (g s).scope = s.scope)
    (hnames : ∀ s, (g s).handedOut = s.handedOut) : Grants σ [] m := by
  intro s b t hrun hσ
  rw [hm] at hrun
  cases hrun
  exact ⟨(hscope s).trans hσ,hnames s⟩

theorem pure (a : α) : Grants σ [] (Pure.pure a : Lower α) :=
  of_step (g := id) (fun _ => rfl) (fun _ => rfl) fun _ => rfl

theorem get : Grants σ [] (MonadState.get : Lower LowerState) :=
  of_step (g := id) (fun _ => rfl) (fun _ => rfl) fun _ => rfl

theorem takeArity : Grants σ [] Lower.takeArity :=
  of_step (fun _ => rfl) (fun _ => rfl) fun _ => rfl

/-- Nothing is said about what fails. -/
theorem throw (e : LowerError) : Grants σ ws (MonadExcept.throw e : Lower α) := by
  intro s a t hrun
  cases hrun

theorem temp (word : String) : Grants σ [word] (Lower.temp word) := by
  intro s name t hrun hσ
  cases hrun
  exact ⟨hσ,rfl⟩

/-- What comes second may make use of how the first step went. -/
theorem bindRun (hm : Grants σ ws m)
    (hf : ∀ s a t, m s = (.ok a,t) → s.scope = σ → Grants σ vs (f a)) :
    Grants σ (ws ++ vs) (m >>= f) := by
  intro s b u hrun hσ
  obtain ⟨a,t,hfirst,hsecond⟩ := ok_of_bind hrun
  obtain ⟨ht,hnames⟩ := hm s a t hfirst hσ
  obtain ⟨hu,hmore⟩ := hf s a t hfirst hσ t b u hsecond ht
  refine ⟨hu,?_⟩
  rw [hmore,hnames,handOut_append]

theorem bind (hm : Grants σ ws m) (hf : ∀ a, Grants σ vs (f a)) : Grants σ (ws ++ vs) (m >>= f) :=
  hm.bindRun fun _ a _ _ _ => hf a

/-- The second step requests nothing. -/
theorem next (hm : Grants σ ws m) (hf : ∀ a, Grants σ [] (f a)) : Grants σ ws (m >>= f) :=
  List.append_nil ws ▸ hm.bind hf

/-- The first step requests nothing. -/
theorem after (hm : Grants σ [] m) (hf : ∀ a, Grants σ vs (f a)) : Grants σ vs (m >>= f) :=
  hm.bind hf

theorem isolated (h : Grants σ ws m) : Grants σ ws (Lower.isolated m) := by
  intro s a t hrun hσ
  obtain ⟨u,hu,rfl⟩ := ok_of_isolated hrun
  obtain ⟨hscope,hnames⟩ := h s a u hu hσ
  refine ⟨?_,hnames⟩
  change u.scope.restore s.scope.depth = σ
  rw [hscope,hσ,Scope.restore_depth]

theorem indented (h : Grants σ ws m) : Grants σ ws (Lower.indented m) := by
  intro s a t hrun hσ
  obtain ⟨u,hu,rfl⟩ := ok_of_indented hrun
  obtain ⟨hscope,hnames⟩ := h _ a u hu hσ
  exact ⟨hscope,hnames⟩

theorem calling (h : Grants σ ws m) (arity : Option Nat) : Grants σ ws (Lower.calling arity m) := by
  intro s a t hrun hσ
  obtain ⟨u,hu,rfl⟩ := ok_of_calling hrun
  obtain ⟨hscope,hnames⟩ := h _ a u hu hσ
  exact ⟨hscope,hnames⟩

theorem withBinding (h : Grants σ ws m) (receiver : ClassRef) :
    Grants σ ws (Lower.withBinding receiver m) := by
  intro s a t hrun hσ
  obtain ⟨u,hu,rfl⟩ := ok_of_withBinding hrun
  obtain ⟨hscope,hnames⟩ := h _ a u hu hσ
  exact ⟨hscope,hnames⟩

/-- Behind a dot the scope has one more frame, which is dropped again. -/
theorem memberOf {receiver : ClassRef} (h : Grants (σ.push (.ofClass receiver)) ws m)
    (arity : Option Nat) : Grants σ ws (Lower.memberOf receiver arity m) := by
  intro s a t hrun hσ
  obtain ⟨u,hu,rfl⟩ := ok_of_memberOf hrun
  obtain ⟨hscope,hnames⟩ := h _ a u hu (congrArg (Scope.push · _) hσ)
  refine ⟨?_,hnames⟩
  change u.scope.restore s.scope.depth = σ
  rw [hscope,hσ,Scope.restore_push]

theorem collected {m : Lower Unit} (h : Grants σ ws m) : Grants σ ws (Lower.collected m) := by
  intro s lines t hrun hσ
  obtain ⟨u,hu,-,rfl⟩ := ok_of_collected hrun
  obtain ⟨hscope,hnames⟩ := h _ () u hu hσ
  exact ⟨hscope,hnames⟩

end Grants

end Lower

namespace Requests
variable {o : Oracle} {owned facing : Bool} {e : Expr}

theorem kept_of_hoists (h : hoists o owned facing e = true) (word : String) :
    kept o owned facing word e = [word] := if_pos h

theorem kept_of_not_hoists (h : hoists o owned facing e = false) (word : String) :
    kept o owned facing word e = [] := if_neg (Bool.eq_false_iff.mp h)

theorem argument_byOut (hd : ∀ id ty name, e ≠ .declaration id ty name) (inner : List String) :
    argument .byOut e inner = inner ++ ["out"] := by
  cases e with
  | declaration id ty name => exact absurd rfl (hd id ty name)
  | _ => rfl

theorem argument_byValue {passing : Passing} (hout : passing ≠ .byOut) (href : passing ≠ .byRef)
    (e : Expr) (inner : List String) : argument passing e inner = inner := by
  cases passing with
  | value | byIn => rfl
  | byOut => exact absurd rfl hout
  | byRef => exact absurd rfl href

end Requests

namespace Surroundings
open Lower
variable (env : Surroundings) {α β : Type} {m : Lower α} {f : α → Lower β} {σ : Scope}
  {ws vs : List String}

/-- The elementary steps request nothing. -/
theorem idle : env.Elementary (Grants σ []) where
  pure a := .pure a
  bind hm hf := hm.next hf
  get := .get
  takeArity := .takeArity
  declare v := .of_step (fun _ => rfl) (fun _ => rfl) fun _ => rfl
  addImports lines := .of_step (fun _ => rfl) (fun _ => rfl) fun _ => rfl
  reference name := by
    refine .of_step (fun _ => rfl) (fun s => ?_) fun s => ?_
    · dsimp only
      split <;> rfl
    · dsimp only
      split <;> rfl
  emit line := .of_step (fun _ => rfl) (fun _ => rfl) fun _ => rfl

theorem grants_refuse (barrier : Barrier) (lines : List String) :
    Grants σ [] (env.refuse barrier lines) := by
  unfold refuse
  split
  · exact .pure _
  · exact .throw _

theorem grants_argument (passing : Passing) (e : Expr) {lowered : Lower Lowered}
    (h : Grants σ ws lowered) :
    Grants σ (Requests.argument passing e ws) (env.argument passing e lowered) := by
  have hboxed (l : Lowered) (withValue : Bool) : Grants σ ["out"] (env.boxed l withValue) :=
    (Grants.temp _).next fun _ => .pure _
  unfold argument
  split
  · exact (Grants.temp _).next fun _ => (env.idle.spellType? _).next fun _ =>
      (env.idle.declareLocal _ _).next fun _ => .pure _
  · next hd =>
    rw [Requests.argument_byOut hd]
    exact h.bind fun _ => hboxed _ _
  · exact h.bind fun _ => hboxed _ _
  · next hout href _ =>
    rw [Requests.argument_byValue hout href]
    exact h.next fun _ => .pure _

/-- A name behind a dot, where `p` says that nothing is left of the target. -/
theorem grants_access (id : NodeId) (target name : Expr) {lowerTarget lowerName : Lower Lowered}
    {p : Bool} (ht : Grants σ ws lowerTarget)
    (hp : ∀ s l t, lowerTarget s = (.ok l,t) → s.scope = σ → l.processed = !p)
    (hn : p = true → Grants σ vs lowerName)
    (hm : p = false → ∀ c, Grants (σ.push (.ofClass c)) vs lowerName) :
    Grants σ (ws ++ vs) (env.access id target name lowerTarget lowerName) := by
  -- Where the name is looked up depends on what the target has come to.
  refine Grants.takeArity.after fun arity => ht.bindRun fun s l t hrun hσ => ?_
  have hl := hp s l t hrun hσ
  cases p with
  | true =>
    rw [if_pos (by rw [hl]; rfl)]
    exact (hn rfl).calling arity
  | false =>
    rw [if_neg (by rw [hl]; decide)]
    refine Grants.get.after fun _ => ((hm rfl _).memberOf arity).next fun member => ?_
    split
    · exact (env.idle.reference _).next fun _ => .pure _
    · exact .pure _

theorem grants_guarded {acquire : Lower (List String)} {body : Lower Unit}
    (ha : Grants σ ws acquire) (hb : Grants σ vs body) :
    Grants σ (ws ++ vs) (env.guarded acquire body) := by
  refine (env.idle.emit _).after fun _ => .next (.indented ?_) fun _ => env.idle.emit _
  exact ha.bind fun _ => (env.idle.emit _).after fun _ => hb.indented.next fun _ =>
    (env.idle.emit _).next fun _ => (env.idle.emitAll _).indented.next fun _ => env.idle.emit _

theorem grants_placed (place : Place) {m : Lower Unit} (h : Grants σ ws m) :
    Grants σ ws (env.placed place m) := by
  unfold placed
  split
  · exact (env.idle.emit _).after fun _ => h.indented
  · exact h

/-- A block between a line that opens it and one that closes it. -/
theorem grants_between {body : Lower Unit} (first last : String) (h : Grants σ ws body) :
    Grants σ ws (do env.emit first; Lower.indented body; env.emit last) :=
  (env.idle.emit _).after fun _ => h.indented.next fun _ => env.idle.emit _

section kept
variable {env} {owner : Option ClassId} {e : Expr} {s t : LowerState} {l : Lowered}
  (hrun : env.expr owner e s = (.ok l,t)) (hσ : s.scope = σ)
include hrun hσ

/-- Lines are hoisted behind an expression exactly if some argument in it is not lost. -/
theorem isEmpty_after_eq :
    l.hoists.after.isEmpty = !Requests.hoists env.oracle σ.owned σ.facing e := by
  obtain ⟨-,hafter⟩ := env.hoists_eq_nil_iff hrun hσ
  rw [Requests.hoists,Bool.not_not,Bool.eq_iff_iff,List.isEmpty_iff,List.isEmpty_iff]
  exact hafter

theorem isEmpty_hoists_eq :
    l.hoists.isEmpty = !Requests.hoists env.oracle σ.owned σ.facing e := by
  obtain ⟨hbefore,hafter⟩ := env.hoists_eq_nil_iff hrun hσ
  rw [← isEmpty_after_eq hrun hσ,Hoists.isEmpty,Bool.eq_iff_iff,Bool.and_eq_true,List.isEmpty_iff,
    List.isEmpty_iff,hbefore,hafter,and_self]

theorem grants_bind (word : String) :
    Grants σ (Requests.kept env.oracle σ.owned σ.facing word e) (env.bind word l) := by
  have hempty := isEmpty_after_eq hrun hσ
  refine (env.idle.emitAll _).after fun _ => ?_
  cases hh : Requests.hoists env.oracle σ.owned σ.facing e with
  | false =>
    rw [Requests.kept_of_not_hoists hh,if_pos (by rw [hempty,hh]; rfl)]
    exact .pure _
  | true =>
    rw [Requests.kept_of_hoists hh,if_neg (by rw [hempty,hh]; decide)]
    exact (Grants.temp word).next fun _ => (env.idle.emit _).next fun _ =>
      (env.idle.emitAll _).next fun _ => .pure _

theorem grants_bound (word : String) (line : String → String) :
    Grants σ (Requests.kept env.oracle σ.owned σ.facing word e) (env.bound word l line) :=
  (grants_bind hrun hσ word).next fun _ => env.idle.emit _

theorem grants_lambdaResult :
    Grants σ (Requests.kept env.oracle σ.owned σ.facing "ret" e) (env.lambdaResult l) := by
  unfold lambdaResult
  rw [isEmpty_hoists_eq hrun hσ]
  cases hh : Requests.hoists env.oracle σ.owned σ.facing e with
  | false =>
    rw [Requests.kept_of_not_hoists hh]
    exact .pure _
  | true =>
    have hbound := grants_bound hrun hσ "ret" fun code => env.dialect.returnStatement (some code)
    exact hbound.indented.collected.next fun _ => env.idle.blockText _

theorem grants_exitUnless :
    Grants σ (Requests.kept env.oracle σ.owned σ.facing "cond" e) (env.exitUnless l) :=
  (grants_bind hrun hσ "cond").next fun _ => env.grants_between _ _ (env.idle.emit _)

/-- A loop in either of its forms. With lines, a loop that tests last has a flag. -/
theorem grants_loop {header last : String} (testLast : Bool) {body : Lower Unit}
    (hb : Grants σ ws body) :
    Grants σ ((if testLast then Requests.kept env.oracle σ.owned σ.facing "first" e else []) ++
        (Requests.kept env.oracle σ.owned σ.facing "cond" e ++ ws))
      (if l.hoists.isEmpty then do
        env.emit header
        Lower.indented body
        env.emit last
      else env.loopWithExit l testLast body) := by
  have hexit := grants_exitUnless hrun hσ
  rw [isEmpty_hoists_eq hrun hσ]
  cases hh : Requests.hoists env.oracle σ.owned σ.facing e with
  | false =>
    rw [Requests.kept_of_not_hoists hh,Requests.kept_of_not_hoists hh,ite_self]
    exact env.grants_between _ _ hb
  | true =>
    dsimp only [loopWithExit]
    cases testLast with
    | true =>
      rw [Requests.kept_of_hoists hh "first"]
      refine (Grants.temp _).bind fun _ => (env.idle.emit _).after fun _ =>
        env.grants_between _ _ ?_
      exact (env.idle.emit _).after fun _ => hexit.indented.bind fun _ =>
        (env.idle.emit _).after fun _ => (env.idle.emit _).after fun _ => hb
    | false => exact env.grants_between _ _ (hexit.bind fun _ => hb)

theorem grants_branches (place : Place) {branches : Lower Unit} (hb : Grants σ ws branches) :
    Grants σ (Requests.kept env.oracle σ.owned σ.facing "cond" e ++ ws)
      (if place = .alternative ∧ l.hoists.isEmpty then do
        env.emit (env.dialect.elseIfHeader l.code)
        branches
      else env.placed place do
        env.bound "cond" l env.dialect.ifHeader
        branches
        env.emit env.dialect.blockClose) := by
  split
  · next hplace =>
    have hh : Requests.hoists env.oracle σ.owned σ.facing e = false := by
      simpa [isEmpty_hoists_eq hrun hσ] using hplace.2
    rw [Requests.kept_of_not_hoists hh]
    exact (env.idle.emit _).after fun _ => hb
  · exact env.grants_placed place <| (grants_bound hrun hσ "cond" _).bind fun _ => hb.next fun _ =>
      env.idle.emit _

end kept

mutual

/-- Lowering an expression hands out the names that are requested in it. -/
theorem grants_expr {σ : Scope} (owner : Option ClassId) (e : Expr) :
    Grants σ (Requests.expr env.oracle σ.owned σ.facing e) (env.expr owner e) := by
  rw [expr.eq_def]
  refine .isolated ?_
  match e with
  | .assignment _ _ target value =>
    exact (grants_expr none target).bind fun _ => (grants_expr none value).next fun _ => .pure _
  | .identifier id name => exact env.idle.identifier id name
  | .genericName id name typeArgs =>
    exact (env.idle.identifier id name).next fun _ =>
      (env.idle.spellTypes typeArgs).next fun _ => .pure _
  | .memberAccess id target name | .qualifiedName id target name =>
    refine env.grants_access id target name (grants_expr none target)
      (fun _ _ _ hrun hσ => (env.lifts_expr none target hrun hσ).2) ?_ ?_
    · intro hv
      rw [if_pos hv]
      exact grants_expr none name
    · intro hv c
      have hn := grants_expr (σ := σ.push (.ofClass c)) none name
      rw [Scope.owned_push_ofClass,Scope.facing_push_ofClass] at hn
      rwa [if_neg (Bool.eq_false_iff.mp hv)]
  | .conditionalAccess _ target rest =>
    exact Grants.takeArity.after fun _ => (grants_expr none target).bind fun _ =>
      Grants.get.after fun _ => ((grants_expr none rest).withBinding _).next fun _ => .pure _
  | .memberBinding _ name =>
    refine Grants.takeArity.after fun _ => Grants.get.after fun s => ?_
    let receiver := s.bindingReceiver.getD (.external "")
    have hn := grants_expr (σ := σ.push (.ofClass receiver)) none name
    rw [Scope.owned_push_ofClass,Scope.facing_push_ofClass] at hn
    exact (hn.memberOf _).next fun _ => .pure _
  | .invocation _ target args =>
    exact ((grants_expr none target).calling _).bind fun _ =>
      (grants_arguments args).next fun _ => .pure _
  | .elementAccess _ target args =>
    exact (grants_expr none target).bind fun _ => (grants_arguments args).next fun _ => .pure _
  | .objectCreation _ _ args (some init) =>
    exact (env.idle.spell _).after fun _ => (grants_arguments args).bind fun _ =>
      (grants_expr _ init).next fun _ => .pure _
  | .objectCreation _ _ args none =>
    exact (env.idle.spell _).after fun _ => (grants_arguments args).bind fun _ => .pure _
  | .this _ => exact Grants.get.next fun _ => .pure _
  | .base _ | .literal _ _ _ => exact .pure _
  | .binary _ _ left right =>
    exact (grants_expr none left).bind fun _ => (grants_expr none right).next fun _ => .pure _
  | .simpleLambda _ param body =>
    exact (env.idle.lambdaParams [param]).after fun _ =>
      (grants_lambdaBody body).next fun _ => .pure _
  | .parenthesizedLambda _ params body =>
    exact (env.idle.lambdaParams params).after fun _ =>
      (grants_lambdaBody body).next fun _ => .pure _
  | .conditional _ condition whenTrue whenFalse =>
    exact (grants_expr none condition).bind fun _ => (grants_expr none whenTrue).bind fun _ =>
      (grants_expr none whenFalse).next fun _ => (env.grants_refuse _ _).next fun _ => .pure _
  | .cast _ _ operand =>
    exact (env.idle.spell _).after fun _ => (grants_expr none operand).next fun _ => .pure _
  | .prefixUnary _ _ operand => exact (grants_expr none operand).next fun _ => .pure _
  | .postfixUnary _ _ operand => exact (grants_expr none operand).next fun _ => .pure _
  | .interpolatedString _ parts => exact (grants_interpolation parts).next fun _ => .pure _
  | .defaultValue _ (some _) | .defaultValue _ none => exact env.idle.defaultValue _
  | .predefinedType _ name => exact env.idle.predefinedType name
  | .tuple _ elements => exact (grants_arguments elements).next fun _ => .pure _
  | .initializer _ shape elements =>
    exact (grants_initializers owner shape elements).next fun _ => .pure _
  | .parenthesized _ inner => exact (grants_expr none inner).next fun _ => .pure _
  | .arrayCreation _ _ sizes (some init) =>
    exact (env.idle.spell _).after fun _ => (grants_exprs sizes).bind fun _ =>
      (grants_expr none init).next fun _ => .pure _
  | .arrayCreation _ _ sizes none =>
    exact (env.idle.spell _).after fun _ => (grants_exprs sizes).bind fun _ => .pure _
  | .typeOf _ _ => exact (env.idle.spell _).next fun _ => .pure _
  | .await _ operand => exact (grants_expr none operand).next fun _ => .pure _
  | .implicitArrayCreation _ init => exact (grants_expr none init).next fun _ => .pure _
  | .declaration _ _ name => exact (env.idle.declare _).next fun _ => .pure _
  | .other id construct => exact .throw _

theorem grants_exprs {σ : Scope} (es : List Expr) :
    Grants σ (Requests.exprs env.oracle σ.owned σ.facing es) (env.exprs es) := by
  rw [exprs.eq_def]
  match es with
  | [] => exact .pure _
  | e :: es => exact (grants_expr none e).bind fun _ => (grants_exprs es).next fun _ => .pure _

theorem grants_arguments {σ : Scope} (args : List Argument) :
    Grants σ (Requests.arguments env.oracle σ.owned σ.facing args) (env.arguments args) := by
  rw [arguments.eq_def]
  match args with
  | [] => exact .pure _
  | ⟨passing,e⟩ :: args =>
    exact (env.grants_argument passing e (grants_expr none e)).bind fun _ =>
      (grants_arguments args).next fun _ => .pure _

theorem grants_initializers {σ : Scope} (owner : Option ClassId) (shape : InitializerShape)
    (es : List Expr) :
    Grants σ (Requests.initializers env.oracle σ.owned σ.facing shape es)
      (env.initializers owner shape es) := by
  rw [initializers.eq_def]
  match es with
  | [] => exact .pure _
  | e :: es =>
    have hrest := grants_initializers (σ := σ) owner shape es
    have hvalue : ∀ {id op i name value}, e = .assignment id op (.identifier i name) value →
        Grants σ (Requests.expr env.oracle σ.owned σ.facing value) (env.expr none value) := by
      cases e with
      | assignment id op target value =>
        rintro _ _ _ _ _ ⟨⟩
        exact grants_expr none value
      | _ => nofun
    dsimp only
    split
    · exact (hvalue rfl).bind fun _ => (Grants.pure _).after fun _ => hrest.next fun _ => .pure _
    · next hx =>
      rw [Requests.initializers]
      · exact (grants_expr none e).bind fun _ => hrest.next fun _ => .pure _
      · exact hx

theorem grants_interpolation {σ : Scope} (parts : List InterpolationPart) :
    Grants σ (Requests.interpolation env.oracle σ.owned σ.facing parts)
      (env.interpolation parts) := by
  rw [interpolation.eq_def]
  match parts with
  | [] => exact .pure _
  | .text _ :: parts => exact (grants_interpolation parts).next fun _ => .pure _
  | .expression e _ :: parts =>
    exact (grants_expr none e).bind fun _ => (grants_interpolation parts).next fun _ => .pure _

theorem grants_lambdaBody {σ : Scope} (body : LambdaBody) :
    Grants σ (Requests.lambdaBody env.oracle σ.owned σ.facing body) (env.lambdaBody body) := by
  rw [lambdaBody.eq_def]
  match body with
  | .block statements =>
    exact (grants_stmts statements).indented.collected.next fun _ => env.idle.blockText _
  | .expression e =>
    exact (grants_expr none e).bindRun fun _ _ _ hrun hσ => grants_lambdaResult hrun hσ

theorem grants_declarators {σ : Scope} (ty : Option String) (ds : List Declarator) :
    Grants σ (Requests.declarators env.oracle σ.owned σ.facing ds) (env.declarators ty ds) := by
  rw [declarators.eq_def]
  match ds with
  | [] => exact .pure _
  | ⟨_,name,some e⟩ :: ds =>
    exact (grants_expr none e).bind fun _ => (env.idle.declareLocal name true).after fun _ =>
      (env.idle.splice _ _).after fun _ => grants_declarators ty ds
  | ⟨_,name,none⟩ :: ds =>
    exact (env.idle.declareLocal name false).after fun _ => (env.idle.emit _).after fun _ =>
      grants_declarators ty ds

theorem grants_headDeclarators {σ : Scope} (ds : List Declarator) :
    Grants σ (Requests.declarators env.oracle σ.owned σ.facing ds) (env.headDeclarators ds) := by
  rw [headDeclarators.eq_def]
  match ds with
  | [] => exact .pure _
  | ⟨_,name,some e⟩ :: ds =>
    exact (env.idle.declare _).after fun _ => (grants_expr none e).bind fun _ =>
      (env.grants_refuse _ _).after fun _ => (env.idle.emitAll _).after fun _ =>
        (Grants.pure _).after fun _ => (grants_headDeclarators ds).next fun _ => .pure _
  | ⟨_,name,none⟩ :: ds =>
    exact (env.idle.declare _).after fun _ => (Grants.pure _).after fun _ =>
      (grants_headDeclarators ds).next fun _ => .pure _

theorem grants_headInitializers {σ : Scope} (es : List Expr) :
    Grants σ (Requests.exprs env.oracle σ.owned σ.facing es) (env.headInitializers es) := by
  rw [headInitializers.eq_def]
  match es with
  | [] => exact .pure _
  | e :: es =>
    exact (grants_expr none e).bind fun _ => (env.grants_refuse _ _).after fun _ =>
      (env.idle.emitAll _).after fun _ => (grants_headInitializers es).next fun _ => .pure _

theorem grants_headIncrementors {σ : Scope} (es : List Expr) :
    Grants σ (Requests.exprs env.oracle σ.owned σ.facing es) (env.headIncrementors es) := by
  rw [headIncrementors.eq_def]
  match es with
  | [] => exact .pure _
  | e :: es =>
    exact (grants_expr none e).bind fun _ => (env.grants_refuse _ _).after fun _ =>
      (grants_headIncrementors es).next fun _ => .pure _

theorem grants_labels {σ : Scope} (ls : List SwitchLabel) :
    Grants σ (Requests.labels env.oracle σ.owned σ.facing ls) (env.labels ls) := by
  rw [labels.eq_def]
  match ls with
  | [] => exact .pure _
  | .case value :: ls =>
    exact (grants_expr none value).bind fun _ => (env.grants_refuse _ _).after fun _ =>
      (env.idle.emit _).after fun _ => grants_labels ls
  | .default :: ls => exact (env.idle.emit _).after fun _ => grants_labels ls

theorem grants_switchSections {σ : Scope} (sections : List SwitchSection) :
    Grants σ (Requests.switchSections env.oracle σ.owned σ.facing sections)
      (env.switchSections sections) := by
  rw [switchSections.eq_def]
  match sections with
  | [] => exact .pure _
  | ⟨labels,statements⟩ :: sections =>
    exact (grants_labels labels).bind fun _ => (grants_stmts statements).indented.bind fun _ =>
      grants_switchSections sections

theorem grants_catchClauses {σ : Scope} (clauses : List CatchClause) :
    Grants σ (Requests.catchClauses env.oracle σ.owned σ.facing clauses)
      (env.catchClauses clauses) := by
  rw [catchClauses.eq_def]
  match clauses with
  | [] => exact .pure _
  | ⟨_,some name,block⟩ :: clauses =>
    exact (env.idle.declare _).after fun _ => (env.idle.spellType? _).after fun _ =>
      (env.idle.emit _).after fun _ => (grants_stmts block).indented.bind fun _ =>
        grants_catchClauses clauses
  | ⟨_,none,block⟩ :: clauses =>
    exact (env.idle.spellType? _).after fun _ => (env.idle.emit _).after fun _ =>
      (grants_stmts block).indented.bind fun _ => grants_catchClauses clauses

theorem grants_stmt {σ : Scope} (place : Place) (st : Stmt) :
    Grants σ (Requests.stmt env.oracle σ.owned σ.facing st) (env.stmt place st) := by
  rw [stmt.eq_def]
  match st with
  | .expression _ e =>
    exact env.grants_placed place <| (grants_expr none e).next fun _ =>
      env.idle.expressionStatement _
  | .ret _ (some e) | .throw _ (some e) =>
    exact env.grants_placed place <| (grants_expr none e).bindRun fun _ _ _ hrun hσ =>
      grants_bound hrun hσ "ret" _
  | .ret _ none | .throw _ none | .breakLoop _ | .continueLoop _ =>
    exact env.grants_placed place (env.idle.emit _)
  | .locals _ ⟨_,ds⟩ =>
    exact env.grants_placed place <| (env.idle.spellType? _).after fun _ => grants_declarators _ ds
  | .switch _ subject sections =>
    exact env.grants_placed place <| (grants_expr none subject).bindRun fun _ _ _ hrun hσ =>
      (grants_bound hrun hσ "cond" _).bind fun _ =>
        (grants_switchSections sections).indented.next fun _ => env.idle.emit _
  | .block _ statements =>
    match place with
    | .line => exact env.grants_between _ _ (grants_stmts statements)
    | .inner => exact env.grants_placed .inner (grants_stmts statements)
    | .alternative => exact env.grants_placed .alternative (grants_stmts statements)
  | .ifElse _ condition thenBranch (some otherwise) =>
    exact (grants_expr none condition).bindRun fun _ _ _ hrun hσ => grants_branches hrun hσ place <|
      (grants_stmt .inner thenBranch).indented.bind fun _ => grants_stmt .alternative otherwise
  | .ifElse _ condition thenBranch none =>
    exact (grants_expr none condition).bindRun fun _ _ _ hrun hσ => grants_branches hrun hσ place <|
      (grants_stmt .inner thenBranch).indented.bind fun _ => .pure _
  | .forLoop _ declaration initializers condition incrementors body =>
    have hsteps (init condition : Option String) : Grants σ
        (Requests.exprs env.oracle σ.owned σ.facing incrementors ++
          Requests.stmt env.oracle σ.owned σ.facing body) (do
          let steps ← env.headIncrementors incrementors
          env.emit (env.dialect.forHeader init condition steps)
          Lower.indented (env.stmt .inner body)
          env.emit env.dialect.blockClose) :=
      (grants_headIncrementors incrementors).bind fun _ =>
        env.grants_between _ _ (grants_stmt .inner body)
    match declaration, condition with
    | some ⟨_,ds⟩, some e =>
      exact env.grants_placed place <| (grants_headDeclarators ds).bind fun _ =>
        (Grants.pure _).after fun _ => (grants_expr none e).bind fun _ =>
          (env.grants_refuse _ _).after fun _ => (Grants.pure _).after fun _ => hsteps _ _
    | some ⟨_,ds⟩, none =>
      exact env.grants_placed place <| (grants_headDeclarators ds).bind fun _ =>
        (Grants.pure _).after fun _ => (Grants.pure _).after fun _ => hsteps _ _
    | none, some e =>
      exact env.grants_placed place <| (grants_headInitializers initializers).bind fun _ =>
        (Grants.pure _).after fun _ => (grants_expr none e).bind fun _ =>
          (env.grants_refuse _ _).after fun _ => (Grants.pure _).after fun _ => hsteps _ _
    | none, none =>
      exact env.grants_placed place <| (grants_headInitializers initializers).bind fun _ =>
        (Grants.pure _).after fun _ => (Grants.pure _).after fun _ => hsteps _ _
  | .whileLoop _ condition body =>
    have hb := grants_stmt (σ := σ) .inner body
    exact env.grants_placed place <| (grants_expr none condition).bindRun fun _ _ _ hrun hσ =>
      grants_loop hrun hσ false hb
  | .doWhile _ body condition =>
    have hb := grants_stmt (σ := σ) .inner body
    exact env.grants_placed place <| (grants_expr none condition).bindRun fun _ _ _ hrun hσ =>
      grants_loop hrun hσ true hb
  | .forEach _ _ name iterable body =>
    exact env.grants_placed place <| (grants_expr none iterable).bindRun fun _ _ _ hrun hσ =>
      (grants_bind hrun hσ "iter").bind fun _ => (env.idle.declare _).after fun _ =>
        (env.idle.spellType? _).after fun _ => env.grants_between _ _ (grants_stmt .inner body)
  | .tryCatch _ block catches (some statements) =>
    exact env.grants_placed place <| (env.idle.emit _).after fun _ =>
      (grants_stmts block).indented.bind fun _ => (grants_catchClauses catches).bind fun _ =>
        env.grants_between _ _ (grants_stmts statements)
  | .tryCatch _ block catches none =>
    exact env.grants_placed place <| (env.idle.emit _).after fun _ =>
      (grants_stmts block).indented.bind fun _ => (grants_catchClauses catches).bind fun _ =>
        env.idle.emit _
  | .lock _ target body =>
    have hb := env.grants_between env.dialect.blockOpen env.dialect.blockClose
      (grants_stmt (σ := σ) .inner body)
    have he := grants_expr (σ := σ) none target
    refine env.grants_placed place ?_
    rw [Requests.stmt]
    dsimp only
    cases target.isPlainReference with
    | true => exact hb
    | false => exact he.bind fun _ => (env.idle.expressionStatement _).after fun _ => hb
  | .useResource _ (some ⟨_,ds⟩) target body =>
    exact env.grants_placed place <| env.grants_guarded
      ((env.idle.spellType? _).after fun _ => (grants_declarators _ ds).next fun _ => .pure _)
      (grants_stmt .inner body)
  | .useResource _ none (some e) body =>
    exact env.grants_placed place <| env.grants_guarded
      ((grants_expr none e).bind fun _ => (Grants.temp _).next fun _ =>
        (env.idle.splice _ _).next fun _ => .pure _) (grants_stmt .inner body)
  | .useResource _ none none body =>
    exact env.grants_placed place <| env.grants_guarded (.pure _) (grants_stmt .inner body)
  | .empty _ => exact env.grants_placed place (.pure _)
  | .other id construct => exact env.grants_placed place (.throw _)

theorem grants_stmts {σ : Scope} (ss : List Stmt) :
    Grants σ (Requests.stmts env.oracle σ.owned σ.facing ss) (env.stmts ss) := by
  rw [stmts.eq_def]
  match ss with
  | [] => exact .pure _
  | s :: ss => exact (grants_stmt .line s).bind fun _ => grants_stmts ss

end

theorem grants_returningBody (b : Body) :
    Grants σ (Requests.body env.oracle σ.owned σ.facing true b) (env.returningBody b) := by
  cases b with
  | block statements => exact env.grants_stmts statements
  | expression e =>
    exact (env.grants_expr none e).bindRun fun _ _ _ hrun hσ => grants_bound hrun hσ "ret" _

theorem grants_effectBody (b : Body) :
    Grants σ (Requests.body env.oracle σ.owned σ.facing false b) (env.effectBody b) := by
  cases b with
  | block statements => exact env.grants_stmts statements
  | expression e =>
    exact (env.grants_expr none e).bind fun _ => env.idle.expressionStatement _

theorem grants_routineBody (id : ClassId) (f : Routine) :
    Grants σ (Requests.routine env.oracle σ.owned σ.facing f) (env.routineBody id f) := by
  have hchain (c : ConstructorChain) :
      Grants σ (Requests.arguments env.oracle σ.owned σ.facing c.args) (env.chain id c) :=
    (env.grants_arguments c.args).next fun _ => env.idle.splice _ _
  have hbody (b : Body) : Grants σ (Requests.body env.oracle σ.owned σ.facing f.returnType.isSome b)
      (if f.returnType.isSome then env.returningBody b else env.effectBody b) := by
    cases f.returnType.isSome with
    | true => exact env.grants_returningBody b
    | false => exact env.grants_effectBody b
  unfold routineBody Requests.routine
  cases f.chain with
  | some c =>
    cases f.body with
    | some b => exact (hchain c).bind fun _ => hbody b
    | none => exact (hchain c).bind fun _ => .pure _
  | none =>
    cases f.body with
    | some b => exact hbody b
    | none => exact .pure _

end Surroundings

end Recast
