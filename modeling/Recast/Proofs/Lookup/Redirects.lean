import Recast.Proofs.Lookup.Inherited
import Recast.Proofs.Lowering.Accesses
import Recast.TypeScript.Dialect

/-! # Redirected static variables

A rule may redirect the static variables of a class to another class. Naming notes the other class
with each variable, and an access takes it from there: by the name of the variable alone, and behind
the name of the class. Behind the name of the class in its namespace the note is not looked at,
since what stands before the dot is then no single name.
-/
namespace Recast
open Lower

namespace Program

/-- A static variable of a class for which there is a rule, in a program that is not named yet. -/
structure Redirected (p : Program) (id : ClassId) (c : Class) (v : Variable) (target : String) :
    Prop where
  classAt : p.class? id = some c
  found : p.find? c.name = some id
  unnamed : c.resolved = false
  rule : p.rules.staticRedirects.get? c.name = some target
  declared : c.vars.find? (fun w => w.name == v.name) = some v
  isStatic : v.isStatic = true

variable {p : Program} {id : ClassId} {c : Class} {v : Variable} {target : String}

/-- Naming notes the target with the variable and leaves its name and place as they are. -/
theorem Redirected.variableAt?_resolve (h : p.Redirected id c v target) (arity : Option Nat) :
    ∃ i, p.resolve.1.ownMember? v.name arity id = some (.variable id i) ∧
      p.resolve.1.variableAt? id i = some { v with remapClass := some target } := by
  let redirect := fun w : Variable =>
    if w.isStatic then { w with remapClass := some target } else w
  have hname (w : Variable) : (redirect w).name = w.name := by
    dsimp only [redirect]
    split <;> rfl
  have hclass : p.resolve.1.class? id = some (p.named id c) := by
    rw [class?_resolve,h.classAt,Option.map_some,settled,h.unnamed]
    rfl
  have hvars : (p.named id c).vars = c.vars.map redirect := by
    simp only [named,h.rule,redirect]
  have hfind := h.declared
  rw [List.find?_eq_bind_findIdx?_getElem?] at hfind
  obtain ⟨i,hi,hv⟩ := Option.bind_eq_some_iff.mp hfind
  have hindex : (p.named id c).variableIndex? v.name = some i := by
    rw [Class.variableIndex?,hvars,List.findIdx?_map,← hi]
    congr 1
    funext w
    exact congrArg (· == v.name) (hname w)
  refine ⟨i,?_,?_⟩
  · simp only [ownMember?,hclass,Option.bind_eq_bind,Option.bind_some,hindex]
  · have hat : (p.named id c).vars[i]? = some (redirect v) := by
      rw [hvars,List.getElem?_map,hv,Option.map_some]
    have hredirect : redirect v = { v with remapClass := some target } := if_pos h.isStatic
    simp only [variableAt?,hclass,Option.bind_eq_bind,Option.bind_some,hat,hredirect]

end Program

inductive StaticForm where
  | bare (node : NodeId)
  /-- `C.v`. -/
  | ofClass (node classNode member : NodeId)
  /-- `N.C.v`. -/
  | qualified (node inner classNode member : NodeId) (qualifier : Expr)

namespace StaticForm

def expr (className name : String) : StaticForm → Expr
  | bare node => .identifier node name
  | ofClass node classNode member =>
    .memberAccess node (.identifier classNode className) (.identifier member name)
  | qualified node inner classNode member qualifier =>
    .memberAccess node (.memberAccess inner qualifier (.identifier classNode className))
      (.identifier member name)

def isQualified : StaticForm → Bool
  | qualified .. => true
  | _ => false

end StaticForm

namespace Surroundings
variable (env : Surroundings)

/-- What is written for a class: the name of a class that is known from elsewhere, or its own. -/
def classText (name : String) : String := ((env.known.get? name 0).map KnownClass.target).getD name

/-- A name that stands for a class: the oracle says so, or nothing nearer has the name. A type that
the oracle gives to the name is that class. -/
structure NamesClass (σ : Scope) (node : NodeId) (name : String) : Prop where
  named : (∃ symbol, env.oracle.symbolOf? node = some symbol ∧ symbol.kind = .type) ∨
    env.oracle.symbolOf? node = none ∧ env.isLocalName σ name = false ∧
      (σ.memberOwner?.bind fun id => env.memberInfo? id name none) = none
  typed : ∀ ty, env.typeOf? node = some ty → ty.name = name

/-- A name that stands for a static variable of a class: the oracle says so, or the name is written
inside the class and no local has it. -/
def NamesStatic (id : ClassId) (σ : Scope) (node : NodeId) (name : String) : Prop :=
  (∃ symbol, env.oracle.symbolOf? node = some symbol ∧
    symbol.kind ∈ [SymbolKind.field,.property,.event] ∧ symbol.isStatic = true ∧
    (symbol.containingType.bind env.program.find? <|> σ.memberOwner?) = some id) ∨
  env.oracle.symbolOf? node = none ∧ env.isLocalName σ name = false ∧ σ.memberOwner? = some id

/-- Nothing shadows the names in an access. What qualifies a class leaves no code, as the names of
namespaces do. -/
inductive Unshadowed (id : ClassId) (className name : String) (s : LowerState) : StaticForm → Prop
  | bare {node : NodeId} (h : env.NamesStatic id s.scope node name) :
    Unshadowed id className name s (.bare node)
  | ofClass (node : NodeId) {classNode : NodeId} (member : NodeId)
    (h : env.NamesClass s.scope classNode className) :
    Unshadowed id className name s (.ofClass node classNode member)
  | qualified (node inner : NodeId) {classNode : NodeId} (member : NodeId) {q : Expr} {l : Lowered}
    {u : LowerState} (hq : env.expr none q { s with callArity := none } = (.ok l,u))
    (hp : l.processed = false) (h : env.NamesClass s.scope classNode className) :
    Unshadowed id className name s (.qualified node inner classNode member q)

variable {env} {s u : LowerState} {p : Program} {id : ClassId} {c : Class} {v : Variable}
  {target : String} {node : NodeId} {name : String}

theorem memberInfo?_of_redirected (hp : env.program = p.resolve.1)
    (h : p.Redirected id c v target) (arity : Option Nat) :
    ∃ m, env.memberInfo? id v.name arity = some m ∧ m.emitted = v.emittedName ∧
      m.isStatic = true ∧ m.remapClass = some target := by
  obtain ⟨i,hown,hat⟩ := h.variableAt?_resolve arity
  rw [← hp] at hown hat
  refine ⟨⟨v.emittedName,v.isStatic,some target,env.className id,some v.ty⟩,?_,rfl,h.isStatic,rfl⟩
  rw [memberInfo?,Program.findMember?_of_ownMember? hown,Option.bind_some,infoOf?,hat]
  rfl

theorem yields_typeName (name : String) : Yields s
    (fun l => l.processed = true ∧ l.code = env.dialect.typeReference (env.classText name) ∧
      l.ty = some (.object name)) (env.typeName name) := by
  unfold typeName classText
  cases env.known.get? name 0 with
  | none => exact .after rfl (.pure ⟨rfl,rfl,rfl⟩)
  | some known => exact .after rfl (.pure ⟨rfl,rfl,rfl⟩)

theorem yields_className (hr : s.scope.receiver? = none) (ha : s.callArity = none)
    (hf : (env.program.find? name).isSome) (h : env.NamesClass s.scope node name) : Yields s
    (fun l => l.processed = true ∧ l.code = env.dialect.typeReference (env.classText name) ∧
      ∃ ty, l.ty = some ty ∧ ty.name = name) (env.identifier node name) := by
  have hname : Yields s (fun l => ∃ k, (k.processed = true ∧
      k.code = env.dialect.typeReference (env.classText name) ∧ k.ty = some (.object name)) ∧
      l = env.typed node k) (env.identifier node name) := by
    obtain ⟨symbol,hs,hkind⟩ | ⟨hs,hlocal,hmember⟩ := h.named
    · refine yields_identifier_of_symbol hr hs ?_
      simp only [symbolName,hkind]
      exact yields_typeName name
    · refine yields_identifier_of_plain hr hs ?_
      simp only [plainName,hlocal,ha,hmember,hf]
      exact yields_typeName name
  refine hname.mono ?_
  rintro _ ⟨k,⟨hp,hcode,hty⟩,rfl⟩
  refine ⟨by rw [typed,if_pos hp]; exact hp,(typed_code _ _).trans hcode,?_⟩
  rw [typed,if_pos hp]
  cases ht : env.typeOf? node with
  | none => exact ⟨_,hty,rfl⟩
  | some ty => exact ⟨ty,rfl,h.typed ty ht⟩

theorem yields_bare (hp : env.program = p.resolve.1) (h : p.Redirected id c v target)
    (hr : s.scope.receiver? = none) (hn : env.NamesStatic id s.scope node v.name) :
    Yields s (fun l => l.code = env.dialect.staticMember target v.emittedName)
      (env.identifier node v.name) := by
  -- Whichever way the name is resolved, the member is looked up in the class and is static there.
  have hmember (arity : Option Nat) (isStatic : Option Bool) (declaredIn : Option String)
      (hs : isStatic.getD true = true) (w : LowerState) :
      Yields w (fun l => l.code = env.dialect.staticMember target v.emittedName)
        (env.member (some id) v.name arity isStatic declaredIn) := by
    obtain ⟨m,hm,hemitted,hstatic,hremap⟩ := memberInfo?_of_redirected hp h arity
    have hinfo : ((some id).bind fun id => env.memberInfo? id v.name arity) = some m := hm
    have htrue : (isStatic <|> some m.isStatic).getD false = true := by
      cases isStatic with
      | none => exact hstatic
      | some b => exact hs
    dsimp only [member]
    rw [hinfo,Option.map_some,if_pos htrue]
    refine .after rfl (.pure ?_)
    simp only [Option.map_some,hremap,Option.getD_some,hemitted]
    rfl
  obtain ⟨symbol,hs,hkind,hstatic,howner⟩ | ⟨hs,hlocal,howner⟩ := hn
  · refine (yields_identifier_of_symbol hr hs (P := fun l =>
      l.code = env.dialect.staticMember target v.emittedName) ?_).mono ?_
    · have hcall : ∃ arity, env.symbolName s.scope symbol v.name s.callArity =
          env.member (some id) v.name arity (some true) symbol.containingType := by
        simp only [List.mem_cons,List.not_mem_nil,or_false] at hkind
        obtain hkind | hkind | hkind := hkind
        all_goals
          simp only [symbolName,hkind,howner,hstatic]
          exact ⟨_,rfl⟩
      obtain ⟨arity,hcall⟩ := hcall
      rw [hcall]
      exact hmember _ _ _ rfl _
    · rintro _ ⟨k,hk,rfl⟩
      exact (typed_code _ _).trans hk
  · refine (yields_identifier_of_plain hr hs (P := fun l =>
      l.code = env.dialect.staticMember target v.emittedName) ?_).mono ?_
    · obtain ⟨m,hm,-⟩ := memberInfo?_of_redirected hp h s.callArity
      have hsome : (s.scope.memberOwner?.bind fun id =>
          env.memberInfo? id v.name s.callArity).isSome = true := by
        rw [howner,Option.bind_some,hm]
        rfl
      dsimp only [plainName]
      rw [hlocal,if_neg Bool.false_ne_true,if_pos hsome,howner]
      exact hmember _ _ _ rfl _
    · rintro _ ⟨k,hk,rfl⟩
      exact (typed_code _ _).trans hk

theorem yields_memberOf (hp : env.program = p.resolve.1) (h : p.Redirected id c v target)
    (ho : u.scope.memberOwner?.isSome) (arity : Option Nat) (member : NodeId) :
    Yields u (fun m => m.code = v.emittedName)
      (Lower.memberOf (.program id) arity (env.expr none (.identifier member v.name))) := by
  obtain ⟨m,hm,hemitted,-⟩ := memberInfo?_of_redirected hp h arity
  refine .memberOf ?_
  unfold expr
  refine ((yields_identifier_of_receiver (Scope.receiver?_push_ofClass ho _)).mono ?_).isolated
  rintro l ⟨hl,-⟩
  rw [hl]
  simp only [memberName,hm,hemitted]

theorem find?_resolve (hp : env.program = p.resolve.1) : env.program.find? = p.find? := by
  rw [hp]
  exact Program.find?_congr (Program.outline_resolve p)

theorem yields_ofClass (hp : env.program = p.resolve.1) (h : p.Redirected id c v target)
    (hr : s.scope.receiver? = none) (ho : s.scope.memberOwner?.isSome) {classNode : NodeId}
    (hn : env.NamesClass s.scope classNode c.name) (node member : NodeId) :
    Yields s (fun l => l.code = env.dialect.staticMember target v.emittedName)
      (env.expr none (.memberAccess node (.identifier classNode c.name)
        (.identifier member v.name))) := by
  have hfind : env.program.find? c.name = some id := (find?_resolve hp ▸ h.found)
  have hclass : Yields { s with callArity := none } (fun l => l.processed = true ∧
      l.code = env.dialect.typeReference (env.classText c.name) ∧
      ∃ ty, l.ty = some ty ∧ ty.name = c.name) (env.expr none (.identifier classNode c.name)) := by
    unfold expr
    exact (yields_className (s := { s with callArity := none }) hr rfl (by rw [hfind]; rfl)
      hn).isolated
  obtain ⟨l,u,hl,hlp,-,ty,hty,hname⟩ := hclass
  have hu := (env.silent_expr none _).scope_eq hl
  dsimp only at hu
  have hrec : env.receiverFor u.scope (.identifier classNode c.name) l = .program id := by
    simp only [receiverFor,hty,hname,hfind]
  have htype : env.isTypeExpr s.scope (.identifier classNode c.name) = true := by
    obtain ⟨symbol,hs,hkind⟩ | ⟨hs,hlocal,-⟩ := hn.named
    · simp only [isTypeExpr,hs,hkind]
      rfl
    · simp only [isTypeExpr,hs,hlocal,hfind]
      rfl
  obtain ⟨m,hm,-,-,hremap⟩ := memberInfo?_of_redirected hp h s.callArity
  have hredirect : env.redirect? u.scope (.program id) (.identifier classNode c.name)
      (.identifier member v.name) s.callArity = some target := by
    simp only [redirect?,hu,htype,if_true,hm,Option.bind_some,hremap]
  unfold expr
  refine ((yields_access hl hlp (hrec ▸ yields_memberOf hp h (hu ▸ ho) _ member)).mono ?_).isolated
  rintro r ⟨k,hk,hcode⟩
  rw [hcode,hrec,hredirect,hk]
  rfl

theorem yields_qualified (hp : env.program = p.resolve.1) (h : p.Redirected id c v target)
    (hr : s.scope.receiver? = none) (ho : s.scope.memberOwner?.isSome)
    {classNode : NodeId} {q : Expr} {l : Lowered}
    (hq : env.expr none q { s with callArity := none } = (.ok l,u)) (hlp : l.processed = false)
    (hn : env.NamesClass s.scope classNode c.name) (node inner member : NodeId) :
    Yields s (fun l => l.code = env.dialect.memberAccess
        (env.dialect.typeReference (env.classText c.name)) v.emittedName)
      (env.expr none (.memberAccess node (.memberAccess inner q (.identifier classNode c.name))
        (.identifier member v.name))) := by
  have hfind : env.program.find? c.name = some id := (find?_resolve hp ▸ h.found)
  have hu := (env.silent_expr none q).scope_eq hq
  dsimp only at hu
  have hclass : Yields { s with callArity := none } (fun l => l.processed = true ∧
      l.code = env.dialect.typeReference (env.classText c.name) ∧
      ∃ ty, l.ty = some ty ∧ ty.name = c.name)
      (env.expr none (.memberAccess inner q (.identifier classNode c.name))) := by
    unfold expr
    refine Yields.isolated (.after rfl (.after hq ?_))
    simp only [hlp,Bool.not_false,if_true]
    refine .calling ?_
    unfold expr
    exact (yields_className (s := { u with callArity := none }) (hu ▸ hr) rfl
      (by rw [hfind]; rfl) (hu ▸ hn)).isolated
  obtain ⟨k,w,hk,hkp,hkcode,ty,hty,hname⟩ := hclass
  have hw := (env.silent_expr none _).scope_eq hk
  dsimp only at hw
  have hrec : env.receiverFor w.scope (.memberAccess inner q (.identifier classNode c.name)) k =
      .program id := by
    simp only [receiverFor,hty,hname,hfind]
  -- What stands before the dot is no single name, so it does not count as the name of a class.
  have hredirect : env.redirect? w.scope (.program id)
      (.memberAccess inner q (.identifier classNode c.name)) (.identifier member v.name)
      s.callArity = none := rfl
  unfold expr
  refine ((yields_access hk hkp (hrec ▸ yields_memberOf hp h (hw ▸ ho) _ member)).mono ?_).isolated
  rintro r ⟨m,hm,hcode⟩
  rw [hcode,hrec,hredirect,hm,hkcode]
  rfl

/-- An access to a redirected variable becomes one to the variable of the target, unless the class
is written with its namespace; then it stays with the class, which may be the target itself. -/
theorem lowers_to_target_iff (hd : env.dialect = TypeScript.dialect)
    (hp : env.program = p.resolve.1) (h : p.Redirected id c v target)
    (hr : s.scope.receiver? = none) (ho : s.scope.memberOwner?.isSome) {form : StaticForm}
    (hs : env.Unshadowed id c.name v.name s form) :
    Yields s (fun l => l.code = env.dialect.staticMember target v.emittedName)
        (env.expr none (form.expr c.name v.name)) ↔
      form.isQualified = false ∨ env.classText c.name = target := by
  cases hs with
  | bare hn =>
    have hy := yields_bare hp h hr hn
    refine iff_of_true ?_ (.inl rfl)
    unfold StaticForm.expr expr
    exact hy.isolated
  | ofClass node member hn =>
    exact iff_of_true (yields_ofClass hp h hr ho hn node member) (.inl rfl)
  | qualified node inner member hq hlp hn =>
    have hy := yields_qualified hp h hr ho hq hlp hn node inner member
    rw [hd] at hy ⊢
    simp only [StaticForm.isQualified,Bool.true_eq_false,false_or]
    constructor
    · rintro ⟨l,t,hl,hcode⟩
      have htext := (hy.elim hl).symm.trans hcode
      simpa only [TypeScript.dialect,String.append_left_inj] using htext
    · rintro rfl
      exact hy

def counter : Variable where
  name := "v"
  ty := .object "int"
  isStatic := true

def counting : Class where
  name := "K"
  vars := [counter]
  routines := [{ name := "m" }]

def redirecting : Program where
  classes := [counting]
  rules := { staticRedirects := .ofList [("K","T")] }

/-- A method of the class, in a document with a namespace and the name of the class in it. -/
def besideNamespace : Surroundings where
  program := redirecting.resolve.1
  dialect := TypeScript.dialect
  known := {}
  oracle := { symbols := .ofList [(5,{ kind := .namespaceName, name := "N" }),
    (6,{ kind := .type, name := "K" })] }
  location := "K.m"

theorem redirecting_redirected : redirecting.Redirected 0 counting counter "T" := by
  refine ⟨rfl,rfl,rfl,?_,rfl,rfl⟩
  decide +kernel

/-- `K.v` becomes `T.v`. -/
theorem besideNamespace_lowers_to_target : Yields (.inRoutine 0 0) (fun l => l.code = "T.v")
    (besideNamespace.expr none
      (.memberAccess 0 (.identifier 6 "K") (.identifier 0 "v"))) := by
  have hn : besideNamespace.NamesClass (LowerState.inRoutine 0 0).scope 6 "K" :=
    ⟨.inl ⟨_,rfl,rfl⟩,by rintro ty ⟨⟩⟩
  have hs : besideNamespace.Unshadowed 0 counting.name counter.name (.inRoutine 0 0)
      (.ofClass 0 6 0) := .ofClass 0 0 hn
  exact (lowers_to_target_iff rfl rfl redirecting_redirected rfl rfl hs).mpr (.inl rfl)

/-- `N.K.v` stays `K.v`. -/
theorem besideNamespace_not_lowers_to_target :
    besideNamespace.Unshadowed 0 "K" "v" (.inRoutine 0 0)
        (.qualified 0 0 6 0 (.identifier 5 "N")) ∧
      ¬ Yields (.inRoutine 0 0) (fun l => l.code = "T.v") (besideNamespace.expr none
        (.memberAccess 0 (.memberAccess 0 (.identifier 5 "N") (.identifier 6 "K"))
          (.identifier 0 "v"))) := by
  constructor
  · exact .qualified 0 0 0 (q := .identifier 5 "N") (l := .nothing) rfl rfl
      ⟨.inl ⟨_,rfl,rfl⟩,by rintro ty ⟨⟩⟩
  · rintro ⟨l,t,hl,hcode⟩
    have hrun : (besideNamespace.expr none (.memberAccess 0
        (.memberAccess 0 (.identifier 5 "N") (.identifier 6 "K")) (.identifier 0 "v"))
        (.inRoutine 0 0)).1.map Lowered.code = .ok "K.v" := by decide +kernel
    rw [hl] at hrun
    exact absurd (Except.ok.inj hrun) (hcode ▸ by decide)

end Surroundings

end Recast
