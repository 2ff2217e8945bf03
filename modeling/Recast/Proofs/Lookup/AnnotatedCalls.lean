import Recast.Proofs.Lookup.Inherited
import Recast.Proofs.Lowering.Accesses
import Recast.TypeScript.Dialect

/-! # Calls of resolved methods

The oracle knows which overload a call means: it gives the method's number of parameters, and a call
may write fewer arguments than that. A name that stands alone is looked up by the number the oracle
gives. Behind a dot the answer of the oracle is passed over and the written arguments are counted,
so there the overload that is meant is found exactly if the count leads to the same name.
-/
namespace Recast
open Routine Lower

structure CallName where
  node : NodeId
  name : String
  typeArgs : Option (List SourceType) := none

namespace CallName

def expr (n : CallName) : Expr :=
  match n.typeArgs with
  | none => .identifier n.node n.name
  | some tys => .genericName n.node n.name tys

def text (env : Surroundings) (n : CallName) (method : String) : String :=
  match n.typeArgs with
  | none => method
  | some tys =>
    env.dialect.genericName method (tys.map fun ty => (env.tables.spell (.ofType ty)).text)

end CallName

/-- The ways to write what a method is called on. -/
inductive CallForm where
  | bare
  /-- `receiver.M`. -/
  | on (node : NodeId) (receiver : Expr)
  /-- `receiver?.M`. -/
  | ifPresent (node binding : NodeId) (receiver : Expr)

namespace CallForm

def call (node : NodeId) (name : Expr) (args : List Argument) : CallForm → Expr
  | bare => .invocation node name args
  | on id receiver => .invocation node (.memberAccess id receiver name) args
  | ifPresent id binding receiver =>
    .conditionalAccess id receiver (.invocation node (.memberBinding binding name) args)

def callee (env : Surroundings) (name : Expr) (n : Nat) : CallForm → Lower Lowered
  | bare => Lower.calling (some n) (env.expr none name)
  | on id receiver => Lower.calling (some n) (env.expr none (.memberAccess id receiver name))
  | ifPresent _ binding receiver => do
    let _ ← Lower.takeArity
    let l ← env.expr none receiver
    Lower.withBinding (env.receiverFor (← get).scope receiver l)
      (Lower.calling (some n) (env.expr none (.memberBinding binding name)))

def text (env : Surroundings) (n : CallName) (receiver method : String) : CallForm → String
  | bare => n.text env (env.dialect.thisMember method)
  | on _ _ => env.dialect.memberAccess receiver (n.text env method)
  | ifPresent _ _ _ => env.dialect.memberBinding (n.text env method)

def callText (d : Dialect) (receiver callee : String) (args : List String) : CallForm → String
  | bare | on _ _ => d.invocation callee args
  | ifPresent _ _ _ => d.conditionalAccess receiver (d.invocation callee args)

/-- The method that a call comes to: the one that is meant, or behind a dot the one that is found
for the written arguments. -/
def reached (meant found : Routine) : CallForm → Routine
  | bare => meant
  | on _ _ | ifPresent _ _ _ => found

end CallForm

namespace Surroundings
variable (env : Surroundings)

/-- The oracle has resolved a name to an instance method of a class, which it tells from other
methods of the name by the number of its parameters. -/
structure Resolves (node : NodeId) (name : String) (owner : ClassId) (c : Class) (f : Routine) :
    Prop where
  symbol : ∃ symbol, env.oracle.symbolOf? node = some symbol ∧ symbol.kind = .method ∧
    symbol.isStatic = false ∧ symbol.containingType.bind env.program.find? = some owner ∧
    symbol.parameterCount.map UInt64.toNat = some f.arity
  owner : env.program.class? owner = some c
  declared : c.routines.find? (takes (isMethodNamed name) f.arity) = some f
  unshadowed : ∀ v ∈ c.vars, v.name ≠ name

/-- The receiver of a call lowers to the text, and its class is the given one. A bare name has no
receiver to look at. -/
inductive Stands (owner : ClassId) (s : LowerState) : CallForm → String → Prop
  | bare (h : s.scope.receiver? = none) : Stands owner s .bare ""
  | on (node : NodeId) {x : Expr} {l : Lowered} {u : LowerState}
    (h : env.expr none x { s with callArity := none } = (.ok l,u)) (hp : l.processed = true)
    (hr : env.receiverFor s.scope x l = .program owner) : Stands owner s (.on node x) l.code
  | ifPresent (node binding : NodeId) {x : Expr} {l : Lowered} {u : LowerState}
    (h : env.expr none x { s with callArity := none } = (.ok l,u))
    (hr : env.receiverFor s.scope x l = .program owner) :
    Stands owner s (.ifPresent node binding x) l.code

/-- The callee of the call lowers to the method of the given name, and this text is what is called
wherever the whole call is lowered. -/
def CallsAs (s : LowerState) (form : CallForm) (n : CallName) (args : List Argument)
    (receiver method : String) : Prop :=
  Yields s (fun l => l.code = form.text env n receiver method)
    (form.callee env n.expr args.length) ∧
  ∀ node l t, env.expr none (form.call node n.expr args) s = (.ok l,t) → ∃ codes,
    l.code = form.callText env.dialect receiver (form.text env n receiver method) codes

variable {env} {s : LowerState} {n : CallName} {owner : ClassId} {c : Class} {f g : Routine}
  {arity : Option Nat}

theorem memberInfo?_of_routine? {name : String} (hc : env.program.class? owner = some c)
    (hv : ∀ v ∈ c.vars, v.name ≠ name) (hf : c.routine? name arity = some f) :
    ∃ m, env.memberInfo? owner name arity = some m ∧ m.emitted = f.emittedName ∧
      m.remapClass = none := by
  obtain ⟨i,hi,hf⟩ := Option.bind_eq_some_iff.mp hf
  have hvar : ¬ env.program.HasVariable name owner := by
    rw [Program.hasVariable_iff hc]
    rintro ⟨v,hmem,hname⟩
    exact hv v hmem hname
  have hown : env.program.ownMember? name arity owner = some (.routine owner i) := by
    rw [Program.ownMember?_eq hvar,hc,Option.bind_some,hi]
    rfl
  have hat : env.program.routineAt? owner i = some f :=
    Program.routineAt?_eq_some_iff.mpr ⟨c,hc,hf⟩
  refine ⟨⟨f.emittedName,f.isStatic,none,env.className owner,f.effectiveReturnType?⟩,?_,rfl,rfl⟩
  rw [memberInfo?,Program.findMember?_of_ownMember? hown,Option.bind_some,infoOf?,hat]
  rfl

theorem yields_expr_of_identifier {code : String}
    (h : Yields s (fun l => l.code = code) (env.identifier n.node n.name)) :
    Yields s (fun l => l.code = n.text env code) (env.expr none n.expr) := by
  obtain ⟨node,name,typeArgs⟩ := n
  unfold expr CallName.expr CallName.text
  cases typeArgs with
  | none => exact h.isolated
  | some tys =>
    refine (h.bind ?_).isolated
    rintro l u - rfl
    refine (yields_spellTypes tys).bind ?_
    rintro texts v - rfl
    exact .pure rfl

/-- Behind a dot the callee is the method for the number of arguments that are written. -/
theorem yields_name_of_receiver (hc : env.program.class? owner = some c)
    (hv : ∀ v ∈ c.vars, v.name ≠ n.name) (hg : c.routine? n.name s.callArity = some g)
    (hr : s.scope.receiver? = some (.program owner)) :
    Yields s (fun l => l.code = n.text env g.emittedName) (env.expr none n.expr) := by
  obtain ⟨m,hm,hemitted,-⟩ := memberInfo?_of_routine? hc hv hg
  have hcode : (env.memberName (.program owner) n.name s.callArity).code = g.emittedName := by
    simp only [memberName,hm,hemitted]
  exact yields_expr_of_identifier
    ((yields_identifier_of_receiver hr).mono fun l hl => hl.1.trans hcode)

/-- A callee that stands alone is the method that the oracle means. -/
theorem yields_name_of_resolves (h : env.Resolves n.node n.name owner c f)
    (hr : s.scope.receiver? = none) :
    Yields s (fun l => l.code = n.text env (env.dialect.thisMember f.emittedName))
      (env.expr none n.expr) := by
  obtain ⟨symbol,hs,hkind,hstatic,howner,hcount⟩ := h.symbol
  have hf : c.routine? n.name (some f.arity) = some f := by
    rw [Class.routine?_some,choose?,h.declared]
    rfl
  obtain ⟨m,hm,hemitted,-⟩ := memberInfo?_of_routine? h.owner h.unshadowed hf
  have hcall : env.symbolName s.scope symbol n.name s.callArity =
      env.member (some owner) n.name (some f.arity) (some false) symbol.containingType := by
    simp only [symbolName,hkind,howner,hcount,hstatic]
    rfl
  have hinfo : ((some owner).bind fun id => env.memberInfo? id n.name (some f.arity)) = some m := hm
  have hmember : Yields { s with callArity := none }
      (fun l => l.code = env.dialect.thisMember f.emittedName)
      (env.symbolName s.scope symbol n.name s.callArity) := by
    rw [hcall]
    dsimp only [member]
    rw [hinfo]
    exact .pure (congrArg env.dialect.thisMember hemitted)
  refine yields_expr_of_identifier ((yields_identifier_of_symbol hr hs hmember).mono ?_)
  rintro _ ⟨k,hk,rfl⟩
  exact (typed_code _ _).trans hk

theorem Resolves.exists_routine? {node : NodeId} {name : String}
    (h : env.Resolves node name owner c f) (k : Nat) : ∃ g, c.routine? name (some k) = some g := by
  have hmem := List.mem_of_find?_eq_some h.declared
  have hkind := (takes_iff.mp (List.find?_some h.declared)).1
  refine Option.ne_none_iff_exists'.mp fun hnone => ?_
  rw [Class.routine?_some,choose?,Option.orElse_eq_none] at hnone
  exact List.find?_eq_none.mp hnone.2 f hmem hkind

theorem redirect?_of_routine? {target : Expr} {scope : Scope}
    (hc : env.program.class? owner = some c) (hv : ∀ v ∈ c.vars, v.name ≠ n.name)
    (hg : c.routine? n.name arity = some g) :
    env.redirect? scope (.program owner) target n.expr arity = none := by
  obtain ⟨m,hm,-,hremap⟩ := memberInfo?_of_routine? hc hv hg
  obtain ⟨node,name,typeArgs⟩ := n
  cases typeArgs with
  | some tys => rfl
  | none =>
    dsimp only [redirect?,CallName.expr]
    rw [hm,Option.bind_some,hremap,ite_self]

variable {form : CallForm} {args : List Argument} {receiver : String}

theorem yields_callee (h : env.Resolves n.node n.name owner c f)
    (hs : env.Stands owner s form receiver) (howned : s.scope.memberOwner?.isSome)
    (hg : c.routine? n.name (some args.length) = some g) :
    Yields s (fun l => l.code = form.text env n receiver (form.reached f g).emittedName)
      (form.callee env n.expr args.length) := by
  have hname (v : LowerState) (hv : v.scope = s.scope) :
      Yields v (fun m => m.code = n.text env g.emittedName)
        (Lower.memberOf (.program owner) (some args.length) (env.expr none n.expr)) :=
    (yields_name_of_receiver h.owner h.unshadowed hg
      (Scope.receiver?_push_ofClass (hv ▸ howned) _)).memberOf
  cases hs with
  | bare hr =>
    unfold CallForm.callee
    exact .calling (yields_name_of_resolves (s := { s with callArity := _ }) h hr)
  | @on node x l u hx hp hr =>
    have hu := (env.silent_expr none x).scope_eq hx
    dsimp only at hu
    rw [← hu] at hr
    unfold CallForm.callee
    refine Yields.calling ?_
    unfold expr
    refine ((yields_access (s := { s with callArity := some args.length }) hx hp
      (hr ▸ hname u hu)).mono ?_).isolated
    rintro r ⟨m,hm,hcode⟩
    rw [hcode,hr,redirect?_of_routine? h.owner h.unshadowed hg,hm]
    rfl
  | @ifPresent node binding x l u hx hr =>
    have hu := (env.silent_expr none x).scope_eq hx
    dsimp only at hu
    refine .after rfl (.after hx (.after rfl (.withBinding (.calling ?_))))
    unfold expr
    refine Yields.isolated (.after rfl (.after rfl ?_))
    dsimp only [Option.getD_some]
    rw [hu,hr]
    refine (hname { u with scope := s.scope, bindingReceiver := _, callArity := none } rfl).bind ?_
    exact fun m t _ hm => .pure (congrArg env.dialect.memberBinding hm)

theorem ok_of_invocation {node : NodeId} {target : Expr} {l : Lowered} {t : LowerState}
    (h : env.expr none (.invocation node target args) s = (.ok l,t)) :
    ∃ callee u codes, Lower.calling (some args.length) (env.expr none target) s = (.ok callee,u) ∧
      l.code = env.dialect.invocation callee.code codes := by
  unfold expr at h
  obtain ⟨u,h,-⟩ := ok_of_isolated h
  obtain ⟨callee,v,hc,h⟩ := ok_of_bind h
  obtain ⟨rest,w,-,h⟩ := ok_of_bind h
  obtain ⟨rfl,-⟩ := ok_of_pure h
  exact ⟨callee,v,rest.codes,hc,rfl⟩

/-- The callee of a call that is lowered is lowered in its place, and the code of the call is put
together from its code. -/
theorem callee_of_call {node : NodeId} {l : Lowered} {t : LowerState}
    (hs : env.Stands owner s form receiver)
    (h : env.expr none (form.call node n.expr args) s = (.ok l,t)) :
    ∃ callee u codes, form.callee env n.expr args.length s = (.ok callee,u) ∧
      l.code = form.callText env.dialect receiver callee.code codes := by
  cases hs with
  | bare _ => exact ok_of_invocation h
  | on _ _ _ _ => exact ok_of_invocation h
  | @ifPresent id binding x lx u hx hr =>
    unfold CallForm.call expr at h
    obtain ⟨v,h,-⟩ := ok_of_isolated h
    obtain ⟨_,_,ha,h⟩ := ok_of_bind h
    cases ha
    obtain ⟨_,_,hx',h⟩ := ok_of_bind h
    cases hx.symm.trans hx'
    obtain ⟨_,_,hget,h⟩ := ok_of_bind h
    cases hget
    obtain ⟨rest,w,hrest,h⟩ := ok_of_bind h
    obtain ⟨rfl,-⟩ := ok_of_pure h
    obtain ⟨w,hinv,-⟩ := ok_of_withBinding hrest
    obtain ⟨callee,z,codes,hc,hcode⟩ := ok_of_invocation hinv
    have hcallee : Yields s (· = callee)
        ((CallForm.ifPresent id binding x).callee env n.expr args.length) :=
      .after rfl (.after hx (.after rfl (.withBinding ⟨callee,z,hc,rfl⟩)))
    obtain ⟨_,t,hrun,rfl⟩ := hcallee
    exact ⟨_,t,codes,hrun,congrArg (env.dialect.conditionalAccess lx.code) hcode⟩

theorem callsAs_reached (h : env.Resolves n.node n.name owner c f)
    (hs : env.Stands owner s form receiver) (howned : s.scope.memberOwner?.isSome)
    (hg : c.routine? n.name (some args.length) = some g) :
    env.CallsAs s form n args receiver (form.reached f g).emittedName := by
  have hy := yields_callee h hs howned hg
  refine ⟨hy,fun node l t hl => ?_⟩
  obtain ⟨callee,u,codes,hc,hcode⟩ := callee_of_call hs hl
  exact ⟨codes,hcode.trans (congrArg (form.callText env.dialect receiver · codes) (hy.elim hc))⟩

theorem text_injective (hd : env.dialect = TypeScript.dialect) {a b : String}
    (h : form.text env n receiver a = form.text env n receiver b) : a = b := by
  have hname {a b : String} (h : n.text env a = n.text env b) : a = b := by
    obtain ⟨node,name,typeArgs⟩ := n
    cases typeArgs with
    | none => exact h
    | some tys =>
      simp only [CallName.text,hd,TypeScript.dialect,String.append_left_inj] at h
      exact h
  cases form with
  | bare =>
    have hthis := hname h
    simp only [hd,TypeScript.dialect,String.append_right_inj] at hthis
    exact hthis
  | on node x =>
    simp only [CallForm.text,hd,TypeScript.dialect,String.append_right_inj] at h
    exact hname h
  | ifPresent node binding x =>
    simp only [CallForm.text,hd,TypeScript.dialect,String.append_right_inj] at h
    exact hname h

/-- A call comes to the method that the oracle means exactly if the name of the method stands alone,
or if the class would choose a method of the same final name for the written arguments. -/
theorem callsAs_meant_iff (hd : env.dialect = TypeScript.dialect)
    (h : env.Resolves n.node n.name owner c f) (hs : env.Stands owner s form receiver)
    (howned : s.scope.memberOwner?.isSome) :
    env.CallsAs s form n args receiver f.emittedName ↔ form = .bare ∨
      (c.routine? n.name (some args.length)).map emittedName = some f.emittedName := by
  obtain ⟨g,hg⟩ := h.exists_routine? args.length
  have hreached := callsAs_reached h hs howned hg
  rw [hg,Option.map_some,Option.some_inj]
  constructor
  · rintro ⟨⟨l,t,hl,hcode⟩,-⟩
    have hname := text_injective hd ((hreached.1.elim hl).symm.trans hcode)
    cases form with
    | bare => exact .inl rfl
    | on node x => exact .inr hname
    | ifPresent node binding x => exact .inr hname
  · rintro (rfl | hsame)
    · exact hreached
    · cases form with
      | bare => exact hreached
      | on node x => exact hsame ▸ hreached
      | ifPresent node binding x => exact hsame ▸ hreached

def wide : Routine where
  name := "M"
  parameters := [{ name := "a", ty := .object "int" },{ name := "b", ty := .object "int" }]

/-- A method of the class, in a document in which a name is resolved to the second of them. -/
def overloaded : Surroundings where
  program := (Program.resolve {
    classes := [{ name := "K", routines := [{ name := "M" },wide,{ name := "m" }] }] }).1
  dialect := TypeScript.dialect
  known := {}
  oracle := { symbols := .ofList [(5,{
    kind := .method, name := "M", containingType := some "K", parameterCount := some 2 })] }
  location := "K.m"

def oneArgument : List Argument := [⟨.value,.literal 0 .numeric "1"⟩]

theorem overloaded_resolves : ∃ c, overloaded.Resolves 5 "M" 0 c (wide.rename "M2") := by
  refine ⟨_,⟨_,rfl,rfl,rfl,rfl,rfl⟩,rfl,rfl,?_⟩
  rintro _ ⟨⟩

theorem overloaded_callsAs_meant :
    overloaded.CallsAs (.inRoutine 0 2) .bare ⟨5,"M",none⟩ oneArgument "" "M2" := by
  obtain ⟨c,h⟩ := overloaded_resolves
  have hs : overloaded.Stands 0 (.inRoutine 0 2) .bare "" := .bare rfl
  have howned : (LowerState.inRoutine 0 2).scope.memberOwner?.isSome := rfl
  exact (callsAs_meant_iff (n := ⟨5,"M",none⟩) rfl h hs howned).mpr (.inl rfl)

theorem overloaded_not_callsAs_meant :
    overloaded.Stands 0 (.inRoutine 0 2) (.on 0 (.this 0)) "this" ∧
      ¬ overloaded.CallsAs (.inRoutine 0 2) (.on 0 (.this 0)) ⟨5,"M",none⟩ oneArgument "this"
        "M2" := by
  refine ⟨.on 0 (x := .this 0) (l := { code := "this", ty := some (.object "K") }) rfl rfl rfl,?_⟩
  rintro ⟨⟨l,t,hl,hcode⟩,-⟩
  have hrun : ((CallForm.on 0 (.this 0)).callee overloaded (.identifier 5 "M") 1
      (.inRoutine 0 2)).1.map Lowered.code = .ok "this.M" := by decide
  have hl : (CallForm.on 0 (.this 0)).callee overloaded (.identifier 5 "M") 1 (.inRoutine 0 2) =
      (.ok l,t) := hl
  rw [hl] at hrun
  exact absurd (Except.ok.inj hrun) (hcode ▸ by decide)

end Surroundings

end Recast
