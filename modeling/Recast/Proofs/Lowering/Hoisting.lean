import Recast.Proofs.Lowering.Boxes

/-! # Hoisting

The lines that travel up from the parts of an expression are the lines of its boxes, none lost and
none repeated, as long as no target of a member vanishes with arguments in it. The statement writes
them around its own line.
-/
namespace Recast

/-- A lowered expression of which something is left and which has no lines. -/
structure Lowered.Plain (l : Lowered) : Prop where
  hoists : l.hoists = {}
  processed : l.processed = true

namespace Surroundings
open Lower
variable (env : Surroundings)

theorem gives_member (owner : Option ClassId) (name : String) (arity : Option Nat)
    (isStatic : Option Bool) (declaredIn : Option String) :
    Gives Lowered.Plain (env.member owner name arity isStatic declaredIn) := by
  dsimp only [member]
  split
  · exact .bind fun _ => .pure ⟨rfl,rfl⟩
  · exact .pure ⟨rfl,rfl⟩

theorem gives_typeName (name : String) : Gives Lowered.Plain (env.typeName name) := by
  dsimp only [typeName]
  split
  · exact .bind fun _ => .pure ⟨rfl,rfl⟩
  · exact .bind fun _ => .pure ⟨rfl,rfl⟩

theorem plain_parameter (scope : Scope) (name : String) : (env.parameter scope name).Plain := by
  unfold parameter
  split
  · exact ⟨rfl,rfl⟩
  · exact ⟨rfl,rfl⟩

theorem gives_plainName (scope : Scope) (name : String) (arity : Option Nat) :
    Gives Lowered.Plain (env.plainName scope name arity) := by
  dsimp only [plainName]
  split
  · exact .pure (env.plain_parameter scope name)
  · split
    · exact env.gives_member _ _ _ _ _
    · split
      · exact env.gives_typeName name
      · exact .pure ⟨rfl,rfl⟩

theorem gives_defaultValue (ty : Option TypeDesc) :
    Gives Lowered.Plain (env.defaultValue ty) := by
  dsimp only [defaultValue]
  split
  · exact .bind fun _ => .pure ⟨rfl,rfl⟩
  · exact .bind fun _ => .pure ⟨rfl,rfl⟩
  · split
    · exact .bind fun _ => .pure ⟨rfl,rfl⟩
    · exact .bind fun _ => .pure ⟨rfl,rfl⟩

theorem gives_predefinedType (name : String) :
    Gives Lowered.Plain (env.predefinedType name) := by
  dsimp only [predefinedType]
  split
  · exact .bind fun _ => .pure ⟨rfl,rfl⟩
  · exact .bind fun _ => .pure ⟨rfl,rfl⟩

theorem plain_memberName (receiver : ClassRef) (name : String) (arity : Option Nat) :
    (env.memberName receiver name arity).Plain := by
  unfold memberName
  split
  · exact ⟨rfl,rfl⟩
  · split
    · exact ⟨rfl,rfl⟩
    · exact ⟨rfl,rfl⟩

/-- Of the names that are resolved only those of namespaces vanish. -/
theorem gives_symbolName (scope : Scope) (symbol : Symbol) (name : String)
    (arity : Option Nat) :
    Gives (fun l => l.hoists = {} ∧ l.processed = !(symbol.kind == .namespaceName))
      (env.symbolName scope symbol name arity) := by
  have hm := fun owner arity =>
    env.gives_member owner name arity (some symbol.isStatic) symbol.containingType
  intro s l t h
  dsimp only [symbolName] at h
  cases hk : symbol.kind with
  | localVar | constructor =>
    rw [hk] at h
    obtain ⟨rfl,-⟩ := ok_of_pure h
    exact ⟨rfl,rfl⟩
  | parameter =>
    rw [hk] at h
    obtain ⟨rfl,-⟩ := ok_of_pure h
    have hp := env.plain_parameter scope name
    exact ⟨hp.hoists,hp.processed⟩
  | namespaceName =>
    rw [hk] at h
    obtain ⟨rfl,-⟩ := ok_of_pure h
    exact ⟨rfl,rfl⟩
  | type =>
    rw [hk] at h
    have hp := env.gives_typeName name _ _ _ h
    exact ⟨hp.hoists,hp.processed⟩
  | field | property | event | method =>
    rw [hk] at h
    have hp := hm _ _ _ _ _ h
    exact ⟨hp.hoists,hp.processed⟩

theorem ok_of_identifier {id : NodeId} {name : String} {s t : LowerState} {l : Lowered}
    (h : env.identifier id name s = (.ok l,t)) :
    l.hoists = {} ∧
      l.processed = !(Expr.identifier id name).vanishes env.oracle s.scope.facing := by
  have typed (k : Lowered) (ty : Option TypeDesc) :
      (if k.processed then { k with ty } else k).hoists = k.hoists ∧
        (if k.processed then { k with ty } else k).processed = k.processed := by
    split <;> exact ⟨rfl,rfl⟩
  obtain ⟨arity,u,h₁,h₂⟩ := ok_of_bind h
  obtain ⟨_,_,h₃,h₄⟩ := ok_of_bind h₂
  cases h₁
  cases h₃
  dsimp only at h₄
  unfold Expr.vanishes Scope.facing
  cases hr : s.scope.receiver? with
  | some receiver =>
    rw [hr] at h₄
    obtain ⟨k,_,h₅,h₆⟩ := ok_of_bind h₄
    obtain ⟨rfl,-⟩ := ok_of_pure h₅
    obtain ⟨rfl,-⟩ := ok_of_pure h₆
    have hp := env.plain_memberName receiver name s.callArity
    exact ⟨(typed _ _).1.trans hp.hoists,(typed _ _).2.trans hp.processed⟩
  | none =>
    rw [hr] at h₄
    cases ho : env.oracle.symbolOf? id with
    | some symbol =>
      rw [ho] at h₄
      obtain ⟨k,_,h₅,h₆⟩ := ok_of_bind h₄
      obtain ⟨rfl,-⟩ := ok_of_pure h₆
      have hp := env.gives_symbolName _ _ _ _ _ _ _ h₅
      exact ⟨(typed _ _).1.trans hp.1,(typed _ _).2.trans hp.2⟩
    | none =>
      rw [ho] at h₄
      obtain ⟨k,_,h₅,h₆⟩ := ok_of_bind h₄
      obtain ⟨rfl,-⟩ := ok_of_pure h₆
      have hp := env.gives_plainName _ _ _ _ _ _ h₅
      exact ⟨(typed _ _).1.trans hp.hoists,(typed _ _).2.trans hp.processed⟩

/-- Since `lo` temporary variables were handed out, up to a state in the scope, lines were hoisted
for the arguments that are not lost. -/
structure Lifts (σ : Scope) (ps : List Passed) (lo : Nat) (t : LowerState) (h : Hoists) : Prop where
  scope : t.scope = σ
  hoisted : env.Hoisted (Passed.delivered ps) lo t.temps h

namespace Lifts
variable {env} {σ : Scope} {ps qs : List Passed} {lo : Nat} {s t u : LowerState} {h k : Hoists}
  {α : Type} {m : Lower α} {r : Except LowerError α} {A : List Site}

theorem append (H : env.Lifts σ ps lo t h) (K : env.Lifts σ qs t.temps u k) :
    env.Lifts σ (ps ++ qs) lo u (h ++ k) := by
  refine ⟨K.scope,?_⟩
  rw [Passed.delivered_append]
  exact H.hoisted.append K.hoisted

theorem silent (hm : env.Silent A m) (hr : m s = (r,t)) (hσ : s.scope = σ) :
    env.Lifts σ [] s.temps t {} :=
  ⟨(hm.scope_eq hr).trans hσ,.nil (hm.temps_le hr)⟩

theorem after (hm : env.Silent A m) (hr : m s = (r,t)) (H : env.Lifts σ ps t.temps u h) :
    env.Lifts σ ps s.temps u h :=
  ⟨H.scope,H.hoisted.widen (hm.temps_le hr) (Nat.le_refl _)⟩

theorem before (H : env.Lifts σ ps lo t h) (hm : env.Silent A m) (hr : m t = (r,u)) :
    env.Lifts σ ps lo u h :=
  ⟨(hm.scope_eq hr).trans H.scope,H.hoisted.widen (Nat.le_refl _) (hm.temps_le hr)⟩

theorem restore {depth : Nat} (H : env.Lifts σ ps lo t h) (hd : σ.depth = depth) :
    env.Lifts σ ps lo { t with scope := t.scope.restore depth } h := by
  refine ⟨?_,H.hoisted⟩
  change t.scope.restore depth = σ
  rw [H.scope,← hd,Scope.restore_depth]

/-- The frame of a receiver is dropped again. -/
theorem member {f : Frame} (H : env.Lifts (σ.push f) ps lo t h) (hs : s.scope = σ) :
    env.Lifts σ ps lo { t with callArity := none, scope := t.scope.restore s.scope.depth } h := by
  refine ⟨?_,H.hoisted⟩
  change t.scope.restore s.scope.depth = σ
  rw [H.scope,hs,Scope.restore_push]

end Lifts

theorem ok_of_spellType? {ty : Option SourceType} {s t : LowerState} {r : Option String}
    (h : env.spellType? ty s = (.ok r,t)) :
    r = ty.map fun ty => (env.tables.spell (.ofType ty)).text := by
  cases ty with
  | none =>
    obtain ⟨rfl,-⟩ := ok_of_pure h
    rfl
  | some ty =>
    obtain ⟨text,u,h₁,h₂⟩ := ok_of_bind h
    obtain ⟨rfl,-⟩ := ok_of_pure h₂
    obtain ⟨_,_,_,h₃⟩ := ok_of_bind h₁
    obtain ⟨_,_,_,h₄⟩ := ok_of_bind h₃
    obtain ⟨rfl,-⟩ := ok_of_pure h₄
    rfl

theorem lifts_outDeclaration {σ : Scope} {id : NodeId} {ty : Option SourceType} {name : String}
    {s t : LowerState} {a : LoweredArgs} (h : env.outDeclaration ty name s = (.ok a,t))
    (hσ : s.scope = σ) :
    env.Lifts σ [⟨⟨.byOut,.declaration id ty name⟩,true⟩] s.temps t a.hoists := by
  refine ⟨((env.silent_outDeclaration ty name).scope_eq h).trans hσ,?_⟩
  obtain ⟨temp,u,h₁,h₂⟩ := ok_of_bind h
  obtain ⟨spelled,v,h₃,h₄⟩ := ok_of_bind h₂
  obtain ⟨mutable,w,h₅,h₆⟩ := ok_of_bind h₄
  obtain ⟨rfl,rfl⟩ := ok_of_pure h₆
  cases h₁
  have hle := Nat.le_trans ((env.silent.spellType? _).temps_le h₃)
    ((env.silent_declareLocal _ _).temps_le h₅)
  rw [env.ok_of_spellType? h₃]
  exact ((Hoisted.nil (Nat.le_refl s.temps)).box (.declares (s.temps + 1) id ty name mutable)
    rfl).widen (Nat.le_refl _) hle

theorem lifts_boxed {σ : Scope} {ps : List Passed} {b : Box} {withValue : Bool}
    {lo : Nat} {u t : LowerState} {l : Lowered} {a : LoweredArgs}
    (H : env.Lifts σ ps lo u l.hoists)
    (h : env.boxed l withValue u = (.ok a,t)) (hb : env.Builds b) (hn : b.number = u.temps + 1)
    (ho : b.opening = env.dialect.boxDeclaration (Box.temp b.number)
      (if withValue then some l.code else none))
    (hc : b.closing = env.dialect.expressionStatement
      (env.dialect.assignment l.code .assign (env.dialect.boxValue (Box.temp b.number)))) :
    env.Lifts σ (ps ++ [⟨b.argument,true⟩]) lo t a.hoists := by
  refine ⟨((env.silent_boxed l withValue).scope_eq h).trans H.scope,?_⟩
  obtain ⟨temp,v,h₁,h₂⟩ := ok_of_bind h
  obtain ⟨rfl,rfl⟩ := ok_of_pure h₂
  cases h₁
  rw [Passed.delivered_append]
  have hbox := H.hoisted.box hb hn
  rw [ho,hc,hn] at hbox
  exact hbox

theorem lifts_argument {σ : Scope} {passing : Passing} {e : Expr} {ps : List Passed}
    {s t : LowerState} {a : LoweredArgs}
    (he : ∀ {s l t}, env.expr none e s = (.ok l,t) → s.scope = σ →
      env.Lifts σ ps s.temps t l.hoists)
    (h : env.argument passing e (env.expr none e) s = (.ok a,t)) (hσ : s.scope = σ) :
    env.Lifts σ (Passed.ofArgument passing e ps) s.temps t a.hoists := by
  unfold argument at h
  split at h
  · exact env.lifts_outDeclaration h hσ
  · next hd =>
    obtain ⟨l,u,h₁,h₂⟩ := ok_of_bind h
    rw [Passed.ofArgument_byOut hd]
    exact env.lifts_boxed (he h₁ hσ) h₂ (.writesBack h₁ hd) rfl rfl rfl
  · obtain ⟨l,u,h₁,h₂⟩ := ok_of_bind h
    exact env.lifts_boxed (he h₁ hσ) h₂ (.refers h₁) rfl rfl rfl
  · next hout href _ =>
    obtain ⟨l,h₁,rfl⟩ := ok_of_map h
    have hp : Passed.ofArgument passing e ps = ps := by
      cases passing with
      | value | byIn => rfl
      | byOut => exact absurd rfl hout
      | byRef => exact absurd rfl href
    rw [hp]
    exact he h₁ hσ

/-- Behind a target that vanishes the name stands alone, and the lines of the target are lost. -/
theorem lifts_access {σ : Scope} {id : NodeId} {target name : Expr}
    {lowerTarget lowerName : Lower Lowered} {ps qs rs : List Passed} {p q : Bool}
    {s t : LowerState} {l : Lowered}
    (ht : ∀ {s l t}, lowerTarget s = (.ok l,t) → s.scope = σ →
      env.Lifts σ ps s.temps t l.hoists ∧ l.processed = !p)
    (hn : ∀ {s l t}, lowerName s = (.ok l,t) → s.scope = σ →
      env.Lifts σ qs s.temps t l.hoists ∧ l.processed = !q)
    (hm : ∀ {c s l t}, lowerName s = (.ok l,t) → s.scope = σ.push (.ofClass c) →
      env.Lifts (σ.push (.ofClass c)) rs s.temps t l.hoists)
    (h : env.access id target name lowerTarget lowerName s = (.ok l,t)) (hσ : s.scope = σ) :
    env.Lifts σ (if p then ps.map Passed.lost ++ qs else ps ++ rs) s.temps t l.hoists ∧
      l.processed = !(p && q) := by
  obtain ⟨arity,u,h₁,h₂⟩ := ok_of_bind h
  obtain ⟨k,v,h₃,h₄⟩ := ok_of_bind h₂
  cases h₁
  obtain ⟨H,hp⟩ := ht h₃ hσ
  cases p with
  | true =>
    rw [if_pos (by rw [hp]; rfl)] at h₄
    obtain ⟨w,h₅,rfl⟩ := ok_of_calling h₄
    obtain ⟨K,hq⟩ := hn h₅ H.scope
    have H' : env.Lifts σ (ps.map Passed.lost) s.temps v {} := by
      refine ⟨H.scope,?_⟩
      rw [Passed.delivered_lost]
      exact .nil H.hoisted.le
    exact ⟨H'.append ⟨K.scope,K.hoisted⟩,hq⟩
  | false =>
    rw [if_neg (by rw [hp]; decide)] at h₄
    obtain ⟨_,_,h₅,h₆⟩ := ok_of_bind h₄
    cases h₅
    obtain ⟨member,x,h₇,h₈⟩ := ok_of_bind h₆
    obtain ⟨w,h₉,rfl⟩ := ok_of_memberOf h₇
    have K := (hm h₉ (congrArg (Scope.push · _) H.scope)).member H.scope
    split at h₈
    · obtain ⟨_,_,h₁₀,h₁₁⟩ := ok_of_bind h₈
      obtain ⟨rfl,rfl⟩ := ok_of_pure h₁₁
      exact ⟨(H.append K).before (env.silent_reference _) h₁₀,rfl⟩
    · obtain ⟨rfl,rfl⟩ := ok_of_pure h₈
      exact ⟨H.append K,rfl⟩

mutual

/-- The lines of an expression are those of the boxes in it. -/
theorem lifts_expr {σ : Scope} (owner : Option ClassId) (e : Expr) {s t : LowerState}
    {l : Lowered} (h : env.expr owner e s = (.ok l,t)) (hσ : s.scope = σ) :
    env.Lifts σ (Passed.expr env.oracle σ.owned σ.facing e) s.temps t l.hoists ∧
      l.processed = !e.vanishes env.oracle σ.facing := by
  rw [expr.eq_def] at h
  obtain ⟨u,hu,rfl⟩ := ok_of_isolated h
  have hd : σ.depth = s.scope.depth := by rw [hσ]
  suffices H : env.Lifts σ (Passed.expr env.oracle σ.owned σ.facing e) s.temps u l.hoists ∧
      l.processed = !e.vanishes env.oracle σ.facing from ⟨H.1.restore hd,H.2⟩
  match e with
  | .assignment _ _ target value =>
    obtain ⟨k,v,h₁,h₂⟩ := ok_of_bind hu
    obtain ⟨k',h₃,rfl⟩ := ok_of_map h₂
    have H := (lifts_expr none target h₁ hσ).1
    rw [Passed.expr]
    exact ⟨H.append (lifts_expr none value h₃ H.scope).1,rfl⟩
  | .identifier id name =>
    obtain ⟨hh,hp⟩ := env.ok_of_identifier hu
    rw [Passed.expr,hh,hp,hσ]
    exact ⟨.silent (env.silent.identifier id name) hu hσ,rfl⟩
  | .genericName id name typeArgs =>
    obtain ⟨k,v,h₁,h₂⟩ := ok_of_bind hu
    obtain ⟨args,h₃,rfl⟩ := ok_of_map h₂
    have hh := (env.ok_of_identifier h₁).1
    have H : env.Lifts σ [] s.temps v k.hoists := hh ▸ .silent (env.silent.identifier id name) h₁ hσ
    rw [Passed.expr]
    exact ⟨H.before (env.silent.spellTypes _) h₃,rfl⟩
  | .memberAccess id target name =>
    rw [Passed.expr,Expr.vanishes]
    refine env.lifts_access (lifts_expr none target) (lifts_expr none name) ?_ hu hσ
    intro c s l t hn hs
    have H := (lifts_expr none name hn hs).1
    rwa [Scope.owned_push_ofClass,Scope.facing_push_ofClass] at H
  | .qualifiedName id target name =>
    rw [Passed.expr,Expr.vanishes]
    refine env.lifts_access (lifts_expr none target) (lifts_expr none name) ?_ hu hσ
    intro c s l t hn hs
    have H := (lifts_expr none name hn hs).1
    rwa [Scope.owned_push_ofClass,Scope.facing_push_ofClass] at H
  | .conditionalAccess _ target rest =>
    obtain ⟨_,v,h₁,h₂⟩ := ok_of_bind hu
    obtain ⟨k,w,h₃,h₄⟩ := ok_of_bind h₂
    obtain ⟨_,_,h₅,h₆⟩ := ok_of_bind h₄
    obtain ⟨k',h₇,rfl⟩ := ok_of_map h₆
    obtain ⟨x,h₈,rfl⟩ := ok_of_withBinding h₇
    cases h₁
    cases h₅
    have H := (lifts_expr none target h₃ hσ).1
    have K := (lifts_expr none rest h₈ H.scope).1
    rw [Passed.expr]
    exact ⟨H.append ⟨K.scope,K.hoisted⟩,rfl⟩
  | .memberBinding _ name =>
    obtain ⟨_,v,h₁,h₂⟩ := ok_of_bind hu
    obtain ⟨_,_,h₃,h₄⟩ := ok_of_bind h₂
    obtain ⟨k,h₅,rfl⟩ := ok_of_map h₄
    obtain ⟨w,h₆,rfl⟩ := ok_of_memberOf h₅
    cases h₁
    cases h₃
    have H := (lifts_expr none name h₆ (congrArg (Scope.push · _) hσ)).1
    rw [Scope.owned_push_ofClass,Scope.facing_push_ofClass] at H
    rw [Passed.expr]
    exact ⟨H.member hσ,rfl⟩
  | .invocation _ target args =>
    obtain ⟨k,v,h₁,h₂⟩ := ok_of_bind hu
    obtain ⟨w,h₃,rfl⟩ := ok_of_calling h₁
    obtain ⟨rest,h₄,rfl⟩ := ok_of_map h₂
    obtain ⟨H,hp⟩ := lifts_expr none target h₃ hσ
    have K := lifts_arguments args h₄ H.scope
    rw [Passed.expr,Expr.vanishes]
    exact ⟨H.append K,hp⟩
  | .elementAccess _ target args =>
    obtain ⟨k,v,h₁,h₂⟩ := ok_of_bind hu
    obtain ⟨rest,h₃,rfl⟩ := ok_of_map h₂
    obtain ⟨H,hp⟩ := lifts_expr none target h₁ hσ
    rw [Passed.expr,Expr.vanishes]
    exact ⟨H.append (lifts_arguments args h₃ H.scope),hp⟩
  | .objectCreation _ _ args init =>
    obtain ⟨_,v,h₁,h₂⟩ := ok_of_bind hu
    obtain ⟨rest,w,h₃,h₄⟩ := ok_of_bind h₂
    have hs := (env.silent.spell _).scope_eq h₁
    have H := (lifts_arguments args h₃ (hs.trans hσ)).after (env.silent.spell _) h₁
    match init with
    | some init =>
      obtain ⟨k,h₅,rfl⟩ := ok_of_map h₄
      rw [Passed.expr]
      exact ⟨H.append (lifts_expr _ init h₅ H.scope).1,rfl⟩
    | none =>
      obtain ⟨rfl,rfl⟩ := ok_of_pure h₄
      rw [Passed.expr]
      exact ⟨H,rfl⟩
  | .this _ =>
    obtain ⟨_,h₁,rfl⟩ := ok_of_map hu
    rw [Passed.expr]
    exact ⟨.silent .get h₁ hσ,rfl⟩
  | .base _ =>
    obtain ⟨rfl,rfl⟩ := ok_of_pure hu
    rw [Passed.expr]
    exact ⟨⟨hσ,.nil (Nat.le_refl _)⟩,rfl⟩
  | .literal _ _ _ =>
    obtain ⟨rfl,rfl⟩ := ok_of_pure hu
    rw [Passed.expr]
    exact ⟨⟨hσ,.nil (Nat.le_refl _)⟩,rfl⟩
  | .binary _ _ left right =>
    obtain ⟨k,v,h₁,h₂⟩ := ok_of_bind hu
    obtain ⟨k',h₃,rfl⟩ := ok_of_map h₂
    have H := (lifts_expr none left h₁ hσ).1
    rw [Passed.expr]
    exact ⟨H.append (lifts_expr none right h₃ H.scope).1,rfl⟩
  | .simpleLambda _ param body =>
    have hl := (env.silent.lambdaParams [param]).bind fun params =>
      (env.silent_lambdaBody body).next fun body =>
        .pure ({ code := env.dialect.lambda params body } : Lowered)
    obtain ⟨_,v,h₁,h₂⟩ := ok_of_bind hu
    obtain ⟨_,h₃,rfl⟩ := ok_of_map h₂
    rw [Passed.expr]
    exact ⟨.silent hl hu hσ,rfl⟩
  | .parenthesizedLambda _ params body =>
    have hl := (env.silent.lambdaParams params).bind fun params =>
      (env.silent_lambdaBody body).next fun body =>
        .pure ({ code := env.dialect.lambda params body } : Lowered)
    obtain ⟨_,v,h₁,h₂⟩ := ok_of_bind hu
    obtain ⟨_,h₃,rfl⟩ := ok_of_map h₂
    rw [Passed.expr]
    exact ⟨.silent hl hu hσ,rfl⟩
  | .conditional _ condition whenTrue whenFalse =>
    obtain ⟨k,v,h₁,h₂⟩ := ok_of_bind hu
    obtain ⟨k',w,h₃,h₄⟩ := ok_of_bind h₂
    obtain ⟨k'',x,h₅,h₆⟩ := ok_of_bind h₄
    obtain ⟨_,h₇,rfl⟩ := ok_of_map h₆
    have H := (lifts_expr none condition h₁ hσ).1
    have K := H.append (lifts_expr none whenTrue h₃ H.scope).1
    have L := K.append (lifts_expr none whenFalse h₅ K.scope).1
    rw [Passed.expr]
    exact ⟨L.before (env.silent_refuse _ _) h₇,rfl⟩
  | .cast _ _ operand =>
    obtain ⟨_,v,h₁,h₂⟩ := ok_of_bind hu
    obtain ⟨k,h₃,rfl⟩ := ok_of_map h₂
    have hs := (env.silent.spell _).scope_eq h₁
    rw [Passed.expr]
    exact ⟨(lifts_expr none operand h₃ (hs.trans hσ)).1.after (env.silent.spell _) h₁,rfl⟩
  | .prefixUnary _ _ operand =>
    obtain ⟨k,h₁,rfl⟩ := ok_of_map hu
    rw [Passed.expr]
    exact ⟨(lifts_expr none operand h₁ hσ).1,rfl⟩
  | .postfixUnary _ _ operand =>
    obtain ⟨k,h₁,rfl⟩ := ok_of_map hu
    rw [Passed.expr]
    exact ⟨(lifts_expr none operand h₁ hσ).1,rfl⟩
  | .interpolatedString _ parts =>
    obtain ⟨⟨fragments,hoists⟩,h₁,rfl⟩ := ok_of_map hu
    rw [Passed.expr]
    exact ⟨lifts_interpolation parts h₁ hσ,rfl⟩
  | .defaultValue id ty =>
    rw [Passed.expr]
    match ty with
    | some ty =>
      have hp := env.gives_defaultValue _ _ _ _ hu
      exact ⟨hp.hoists ▸ .silent (env.silent.defaultValue _) hu hσ,hp.processed⟩
    | none =>
      have hp := env.gives_defaultValue _ _ _ _ hu
      exact ⟨hp.hoists ▸ .silent (env.silent.defaultValue _) hu hσ,hp.processed⟩
  | .predefinedType _ name =>
    have hp := env.gives_predefinedType name _ _ _ hu
    rw [Passed.expr]
    exact ⟨hp.hoists ▸ .silent (env.silent.predefinedType name) hu hσ,hp.processed⟩
  | .tuple _ elements =>
    obtain ⟨rest,h₁,rfl⟩ := ok_of_map hu
    rw [Passed.expr]
    exact ⟨lifts_arguments elements h₁ hσ,rfl⟩
  | .initializer _ shape elements =>
    obtain ⟨rest,h₁,rfl⟩ := ok_of_map hu
    rw [Passed.expr]
    exact ⟨lifts_initializers owner shape elements h₁ hσ,rfl⟩
  | .parenthesized _ inner =>
    obtain ⟨k,h₁,rfl⟩ := ok_of_map hu
    rw [Passed.expr]
    exact ⟨(lifts_expr none inner h₁ hσ).1,rfl⟩
  | .arrayCreation _ _ sizes init =>
    obtain ⟨_,v,h₁,h₂⟩ := ok_of_bind hu
    obtain ⟨rest,w,h₃,h₄⟩ := ok_of_bind h₂
    have hs := (env.silent.spell _).scope_eq h₁
    have H := (lifts_exprs sizes h₃ (hs.trans hσ)).after (env.silent.spell _) h₁
    match init with
    | some init =>
      obtain ⟨k,h₅,rfl⟩ := ok_of_map h₄
      rw [Passed.expr]
      exact ⟨H.append (lifts_expr none init h₅ H.scope).1,rfl⟩
    | none =>
      obtain ⟨rfl,rfl⟩ := ok_of_pure h₄
      rw [Passed.expr]
      exact ⟨H,rfl⟩
  | .typeOf _ _ =>
    obtain ⟨_,h₁,rfl⟩ := ok_of_map hu
    rw [Passed.expr]
    exact ⟨.silent (env.silent.spell _) h₁ hσ,rfl⟩
  | .await _ operand =>
    obtain ⟨k,h₁,rfl⟩ := ok_of_map hu
    rw [Passed.expr]
    exact ⟨(lifts_expr none operand h₁ hσ).1,rfl⟩
  | .implicitArrayCreation _ init =>
    obtain ⟨k,h₁,rfl⟩ := ok_of_map hu
    rw [Passed.expr]
    exact ⟨(lifts_expr none init h₁ hσ).1,rfl⟩
  | .declaration _ _ name =>
    obtain ⟨_,h₁,rfl⟩ := ok_of_map hu
    rw [Passed.expr]
    exact ⟨.silent (.declare _) h₁ hσ,rfl⟩
  | .other id construct => cases hu

theorem lifts_exprs {σ : Scope} (es : List Expr) {s t : LowerState} {a : LoweredArgs}
    (h : env.exprs es s = (.ok a,t)) (hσ : s.scope = σ) :
    env.Lifts σ (Passed.exprs env.oracle σ.owned σ.facing es) s.temps t a.hoists := by
  rw [exprs.eq_def] at h
  match es with
  | [] =>
    obtain ⟨rfl,rfl⟩ := ok_of_pure h
    rw [Passed.exprs]
    exact ⟨hσ,.nil (Nat.le_refl _)⟩
  | e :: es =>
    obtain ⟨k,v,h₁,h₂⟩ := ok_of_bind h
    obtain ⟨rest,h₃,rfl⟩ := ok_of_map h₂
    have H := (lifts_expr none e h₁ hσ).1
    rw [Passed.exprs]
    exact H.append (lifts_exprs es h₃ H.scope)

theorem lifts_arguments {σ : Scope} (args : List Argument) {s t : LowerState} {a : LoweredArgs}
    (h : env.arguments args s = (.ok a,t)) (hσ : s.scope = σ) :
    env.Lifts σ (Passed.arguments env.oracle σ.owned σ.facing args) s.temps t a.hoists := by
  rw [arguments.eq_def] at h
  match args with
  | [] =>
    obtain ⟨rfl,rfl⟩ := ok_of_pure h
    rw [Passed.arguments]
    exact ⟨hσ,.nil (Nat.le_refl _)⟩
  | ⟨passing,e⟩ :: args =>
    obtain ⟨first,v,h₁,h₂⟩ := ok_of_bind h
    obtain ⟨rest,h₃,rfl⟩ := ok_of_map h₂
    have H := env.lifts_argument (fun h hσ => (lifts_expr none e h hσ).1) h₁ hσ
    rw [Passed.arguments]
    exact H.append (lifts_arguments args h₃ H.scope)

theorem lifts_initializers {σ : Scope} (owner : Option ClassId) (shape : InitializerShape)
    (es : List Expr) {s t : LowerState} {a : LoweredArgs}
    (h : env.initializers owner shape es s = (.ok a,t)) (hσ : s.scope = σ) :
    env.Lifts σ (Passed.initializers env.oracle σ.owned σ.facing shape es) s.temps t a.hoists := by
  rw [initializers.eq_def] at h
  match es with
  | [] =>
    obtain ⟨rfl,rfl⟩ := ok_of_pure h
    rw [Passed.initializers]
    exact ⟨hσ,.nil (Nat.le_refl _)⟩
  | e :: es =>
    have hvalue : ∀ id op target value, e = .assignment id op target value →
        ∀ {l u}, env.expr none value s = (.ok l,u) →
          env.Lifts σ (Passed.expr env.oracle σ.owned σ.facing value) s.temps u l.hoists := by
      cases e with
      | assignment _ _ _ value =>
        rintro _ _ _ _ ⟨⟩ l u hu
        exact (lifts_expr none value hu hσ).1
      | _ => nofun
    dsimp only at h
    split at h
    · rw [Passed.initializers]
      obtain ⟨k,v,h₁,h₂⟩ := ok_of_bind h
      obtain ⟨_,_,h₃,h₄⟩ := ok_of_bind h₂
      obtain ⟨rest,h₅,rfl⟩ := ok_of_map h₄
      obtain ⟨rfl,rfl⟩ := ok_of_pure h₃
      have H := hvalue _ _ _ _ rfl h₁
      exact H.append (lifts_initializers owner _ es h₅ H.scope)
    · next hx =>
      obtain ⟨k,v,h₁,h₂⟩ := ok_of_bind h
      obtain ⟨rest,h₃,rfl⟩ := ok_of_map h₂
      have H := (lifts_expr none e h₁ hσ).1
      rw [Passed.initializers]
      · exact H.append (lifts_initializers owner shape es h₃ H.scope)
      · exact hx

theorem lifts_interpolation {σ : Scope} (parts : List InterpolationPart) {s t : LowerState}
    {a : List Fragment × Hoists} (h : env.interpolation parts s = (.ok a,t)) (hσ : s.scope = σ) :
    env.Lifts σ (Passed.interpolation env.oracle σ.owned σ.facing parts) s.temps t a.2 := by
  rw [interpolation.eq_def] at h
  match parts with
  | [] =>
    obtain ⟨rfl,rfl⟩ := ok_of_pure h
    rw [Passed.interpolation]
    exact ⟨hσ,.nil (Nat.le_refl _)⟩
  | .text _ :: parts =>
    obtain ⟨p,h₁,rfl⟩ := ok_of_map h
    have H := lifts_interpolation parts h₁ hσ
    rw [Passed.interpolation]
    exact H
  | .expression e _ :: parts =>
    obtain ⟨k,v,h₁,h₂⟩ := ok_of_bind h
    obtain ⟨p,h₃,rfl⟩ := ok_of_map h₂
    have H := (lifts_expr none e h₁ hσ).1
    rw [Passed.interpolation]
    exact H.append (lifts_interpolation parts h₃ H.scope)

end

end Surroundings

end Recast
