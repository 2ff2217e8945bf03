import Recast.Proofs.Locals.Nesting
import Recast.Proofs.Lookup.Redirects
import Recast.Proofs.Lookup.WrittenNames

/-! # Names without an oracle

Where the oracle says nothing, a name is looked up among all parameters and locals of the routine,
wherever in the routine they are declared, and then among the members of the class. So a name means
what the scopes around it say unless something of its name is declared in another scope, or unless
the table does not have what binds it: it has no parameters of lambdas, and in an accessor nothing
at all. Lowering comes to every use of a name in the scope of the body, so what a name is lowered to
there is what the lines of the body have.
-/
namespace Recast
open Lower

namespace Surroundings

section
variable (env : Surroundings) (scope : Scope)

def isBoxed (name : String) : Bool :=
  ((env.routine? scope).bind (·.parameter? name)).any fun p => ParameterFlag.isByReference p.flags

/-- The member of the class at hand, or of what it extends, that a name alone can stand for. -/
def memberAt? (name : String) (arity : Option Nat) : Option MemberInfo :=
  scope.memberOwner?.bind fun id => env.memberInfo? id name arity

/-- What a name becomes by the scopes around it; none if it is bound by nothing and no instance
member has it. -/
def meaning? (arity : Option Nat) (u : Use) : Option String :=
  match u.binder with
  | some .parameter =>
    some (if env.isBoxed scope u.name then env.dialect.parameterValue u.name else u.name)
  | some _ => some u.name
  | none =>
    match env.memberAt? scope u.name arity with
    | some m => if m.isStatic then none else some (env.dialect.thisMember m.emitted)
    | none => none

/-- The name is lowered to what it means, whatever was lowered before it and however many arguments
it is called with. -/
def LowersAsMeant (u : Use) : Prop :=
  ∀ s code, s.scope = scope → env.meaning? scope s.callArity u = some code →
    Yields s (fun l => l.code = code) (env.identifier u.id u.name)

/-- The table of the routine has a name that the binder gives to something. -/
def Tabled (b : Binder) (name : String) : Prop :=
  b = .localVariable true ∧ (env.routine? scope).isSome ∨ env.isLocalName scope name = true

/-- Nothing stands in the way of what a name means. A parameter of the routine is always found. What
binds any other name must not have the name of a parameter in a box, and if the table does not have
it, no member may have its name, nor a class that is called otherwise. An instance member must not
have the name of a local in the table. -/
def Regular (u : Use) : Prop :=
  match u.binder with
  | some .parameter => True
  | some b => env.isBoxed scope u.name = false ∧ (env.Tabled scope b u.name ∨
    (∀ arity, env.memberAt? scope u.name arity = none) ∧ env.classText u.name = u.name)
  | none => ∀ arity m, env.memberAt? scope u.name arity = some m → m.isStatic = false →
    env.isLocalName scope u.name = false

def plainText (name : String) (arity : Option Nat) : String :=
  if env.isLocalName scope name then (env.parameter scope name).code
  else match env.memberAt? scope name arity with
    | some m =>
      if m.isStatic then env.dialect.staticMember (m.remapClass.getD m.owner) m.emitted
      else env.dialect.thisMember m.emitted
    | none =>
      if (env.program.find? name).isSome || (env.known.get? name 0).isSome then
        env.dialect.typeReference (env.classText name)
      else name

end

variable {env : Surroundings} {scope : Scope} {name : String} {s : LowerState} {u : Use}

theorem yields_member_of_some {owner : Option ClassId} {arity : Option Nat} {m : MemberInfo}
    (h : (owner.bind fun id => env.memberInfo? id name arity) = some m) :
    Yields s (fun l => l.code = if m.isStatic then
      env.dialect.staticMember (m.remapClass.getD m.owner) m.emitted
      else env.dialect.thisMember m.emitted) (env.member owner name arity none none) := by
  dsimp only [member]
  rw [h]
  cases hs : m.isStatic with
  | true =>
    simp only [Option.map_some, hs]
    exact .after rfl (.pure rfl)
  | false =>
    simp only [Option.map_some, hs]
    exact .pure rfl

theorem yields_plainName (name : String) (arity : Option Nat) :
    Yields s (fun l => l.code = env.plainText scope name arity)
      (env.plainName scope name arity) := by
  unfold plainName plainText memberAt?
  cases env.isLocalName scope name with
  | true => exact .pure rfl
  | false =>
    simp only [Bool.false_eq_true, if_false]
    cases hm : scope.memberOwner?.bind fun id => env.memberInfo? id name arity with
    | some m => exact yields_member_of_some hm
    | none =>
      simp only [Option.isSome_none, Bool.false_eq_true, if_false]
      split
      · exact (yields_typeName name).mono fun l hl => hl.2.1
      · exact .pure rfl

theorem yields_plainText {id : NodeId} (hr : s.scope.receiver? = none)
    (ho : env.oracle.symbolOf? id = none) :
    Yields s (fun l => l.code = env.plainText s.scope name s.callArity)
      (env.identifier id name) := by
  refine (yields_identifier_of_plain hr ho (yields_plainName name s.callArity)).mono ?_
  rintro _ ⟨l,hl,rfl⟩
  exact (typed_code _ _).trans hl

theorem lowersAsMeant_iff (hr : scope.receiver? = none) (ho : env.oracle.symbolOf? u.id = none) :
    env.LowersAsMeant scope u ↔ ∀ arity code, env.meaning? scope arity u = some code →
      env.plainText scope u.name arity = code := by
  constructor
  · intro h arity code hcode
    obtain ⟨l,t,hl,hlcode⟩ := h { scope, callArity := arity } code rfl hcode
    have hplain : Yields { scope, callArity := arity } _ (env.identifier u.id u.name) :=
      yields_plainText hr ho
    exact (hplain.elim hl).symm.trans hlcode
  · rintro h s code rfl hcode
    exact (yields_plainText hr ho).mono fun l hl => hl.trans (h _ _ hcode)

/-- A name of the table becomes itself, or what is in the box. -/
theorem plainText_of_isLocalName (h : env.isLocalName scope name = true) (arity : Option Nat) :
    env.plainText scope name arity =
      if env.isBoxed scope name then env.dialect.parameterValue name else name := by
  rw [plainText, if_pos h, parameter, isBoxed]
  cases (env.routine? scope).bind (·.parameter? name) with
  | none => rfl
  | some p => rfl

theorem isLocalName_of_parameter {f : Routine} (hf : env.routine? scope = some f)
    (h : (f.parameter? name).isSome) : env.isLocalName scope name = true := by
  simp [isLocalName, hf, h]

theorem isBoxed_of_not_isLocalName (h : env.isLocalName scope name = false) :
    env.isBoxed scope name = false := by
  unfold isLocalName at h
  unfold isBoxed
  cases hf : env.routine? scope with
  | none => rfl
  | some f =>
    rw [hf, Option.any_some, Bool.or_eq_false_iff] at h
    rw [Option.bind_some, Option.isSome_eq_false_iff.mp h.1 |> Option.isNone_iff_eq_none.mp]
    rfl

section
variable (hd : env.dialect = TypeScript.dialect) (hdot : '.' ∉ name.toList)
include hd hdot

theorem parameterValue_ne : env.dialect.parameterValue name ≠ name := by
  rw [hd]
  intro h
  have hmem : '.' ∈ (name ++ ".value").toList := by simp
  exact hdot (h ▸ hmem)

theorem thisMember_ne (emitted : String) : env.dialect.thisMember emitted ≠ name := by
  rw [hd]
  rintro rfl
  exact hdot (by simp [TypeScript.dialect])

theorem staticMember_ne (className emitted : String) :
    env.dialect.staticMember className emitted ≠ name := by
  rw [hd]
  rintro rfl
  exact hdot (by simp [TypeScript.dialect])

/-- A name that the table does not have stays as it is exactly if nothing else has it. -/
theorem plainText_eq_iff (h : env.isLocalName scope name = false) :
    (∀ arity, env.plainText scope name arity = name) ↔
      (∀ arity, env.memberAt? scope name arity = none) ∧ env.classText name = name := by
  have htext (arity : Option Nat) (hm : env.memberAt? scope name arity = none) :
      env.plainText scope name arity = env.classText name := by
    rw [plainText, h, hm, hd]
    simp only [Bool.false_eq_true, if_false]
    split
    · rfl
    · next hnone =>
      have hknown : env.known.get? name 0 = none := by
        cases hk : env.known.get? name 0 with
        | none => rfl
        | some c => simp [hk] at hnone
      rw [classText, hknown]
      rfl
  constructor
  · intro hall
    have hmember (arity : Option Nat) : env.memberAt? scope name arity = none := by
      cases hm : env.memberAt? scope name arity with
      | none => rfl
      | some m =>
        have heq := hall arity
        rw [plainText, h, hm] at heq
        simp only [Bool.false_eq_true, if_false] at heq
        split at heq
        · exact absurd heq (staticMember_ne hd hdot _ _)
        · exact absurd heq (thisMember_ne hd hdot _)
    exact ⟨hmember,(htext none (hmember none)).symm.trans (hall none)⟩
  · rintro ⟨hmember,hclass⟩ arity
    exact (htext arity (hmember arity)).trans hclass

theorem plainText_eq_iff_of_bound {b : Binder}
    (htable : b = .localVariable true → (env.routine? scope).isSome →
      env.isLocalName scope name = true) :
    (∀ arity, env.plainText scope name arity = name) ↔
      env.isBoxed scope name = false ∧ (env.Tabled scope b name ∨
        (∀ arity, env.memberAt? scope name arity = none) ∧ env.classText name = name) := by
  cases hl : env.isLocalName scope name with
  | true =>
    rw [and_iff_left (.inl (.inr hl))]
    constructor
    · intro hall
      cases hb : env.isBoxed scope name with
      | false => rfl
      | true =>
        have heq := hall none
        rw [plainText_of_isLocalName hl, hb, if_pos rfl] at heq
        exact absurd heq (parameterValue_ne hd hdot)
    · intro hb arity
      rw [plainText_of_isLocalName hl, hb]
      rfl
  | false =>
    have hnot : ¬ env.Tabled scope b name := by
      rintro (⟨hb,hr⟩ | htrue)
      · exact absurd (htable hb hr) (by simp [hl])
      · exact absurd htrue (by simp [hl])
    rw [and_iff_right (isBoxed_of_not_isLocalName hl), or_iff_right hnot]
    exact plainText_eq_iff hd hdot hl

theorem plainText_eq_iff_of_unbound (hfree : env.isBoxed scope name = false) :
    (∀ arity m, env.memberAt? scope name arity = some m → m.isStatic = false →
      env.plainText scope name arity = env.dialect.thisMember m.emitted) ↔
      ∀ arity m, env.memberAt? scope name arity = some m → m.isStatic = false →
        env.isLocalName scope name = false := by
  refine forall_congr' fun arity => forall_congr' fun m => forall_congr' fun hm =>
    forall_congr' fun hs => ?_
  cases hl : env.isLocalName scope name with
  | false =>
    refine iff_of_true ?_ rfl
    rw [plainText, hl, hm]
    simp [hs]
  | true =>
    refine iff_of_false (fun heq => ?_) (by simp)
    rw [plainText_of_isLocalName hl, hfree, if_neg Bool.false_ne_true] at heq
    exact absurd heq.symm (thisMember_ne hd hdot _)

end

/-- What a use must satisfy to be lowered as the scopes around it say, given what is known of its
binder: a parameter is one of the routine, a scanned local is in its table, and a name that is bound
by nothing is not that of a parameter. -/
theorem lowersAsMeant_iff_regular (hd : env.dialect = TypeScript.dialect)
    (hr : scope.receiver? = none) (ho : env.oracle.symbolOf? u.id = none)
    (hdot : '.' ∉ u.name.toList)
    (hparam : u.binder = some .parameter → env.isLocalName scope u.name = true)
    (htable : u.binder = some (.localVariable true) → (env.routine? scope).isSome →
      env.isLocalName scope u.name = true)
    (hfree : u.binder = none → env.isBoxed scope u.name = false) :
    env.LowersAsMeant scope u ↔ env.Regular scope u := by
  rw [lowersAsMeant_iff hr ho]
  obtain ⟨id,name,binder⟩ := u
  dsimp only at hdot hparam htable hfree
  unfold meaning? Regular
  dsimp only
  cases binder with
  | none =>
    rw [← plainText_eq_iff_of_unbound hd hdot (hfree rfl)]
    constructor
    · intro h arity m hm hs
      exact h arity _ (by simp [hm, hs])
    · intro h arity code hcode
      cases hm : env.memberAt? scope name arity with
      | none => simp [hm] at hcode
      | some m =>
        cases hs : m.isStatic with
        | true => simp [hm, hs] at hcode
        | false => exact (h arity m hm hs).trans (by simpa [hm, hs] using hcode)
  | some b =>
    have hbound : (∀ (arity : Option Nat) code, some name = some code →
        env.plainText scope name arity = code) ↔
        env.isBoxed scope name = false ∧ (env.Tabled scope b name ∨
          (∀ arity, env.memberAt? scope name arity = none) ∧ env.classText name = name) := by
      rw [← plainText_eq_iff_of_bound hd hdot fun hb hs => htable (congrArg some hb) hs]
      exact ⟨fun h arity => h arity name rfl,fun h arity code hcode =>
        (h arity).trans (Option.some.inj hcode)⟩
    cases b with
    | parameter =>
      refine iff_of_true (fun arity code hcode => ?_) trivial
      rw [plainText_of_isLocalName (hparam rfl)]
      exact Option.some.inj hcode
    | setterValue => exact hbound
    | lambdaParameter => exact hbound
    | localVariable scanned => exact hbound

end Surroundings

namespace Lowering
variable {l : Lowering} {c : Context} {visible : List (String × Binder)} {n : Nest} {u : Use}
  {m : Lower Unit} {roots : List Part} {id : ClassId} {index : Nat}

/-- The body of a method, constructor or accessor: what is visible in it from the start, the names
and scopes in it, how it is lowered and the expressions in it. -/
inductive HasBody (l : Lowering) :
    Context → List (String × Binder) → Nest → Lower Unit → List Part → Prop where
  | routine {id : ClassId} {index : Nat} {f : Routine} {c : Context}
    (h : l.routineContext id index = .ok (f,c)) :
    HasBody l c (f.parameters.map fun p => (p.name,.parameter)) (.routine f)
      (c.env.routineBody id f) (Part.routine c.env false f)
  | getter {id : ClassId} {index : Nat} {v : Variable} {c : Context}
    (h : l.variableContext id index = .ok (v,c)) :
    HasBody l c [] (.accessor v .get) (c.env.accessorBody v .get)
      (Part.accessor c.env false v .get)
  | setter {id : ClassId} {index : Nat} {v : Variable} {c : Context}
    (h : l.variableContext id index = .ok (v,c)) {kind : AccessorKind} (hk : kind ≠ .get) :
    HasBody l c [("value",.setterValue)] (.accessor v kind) (c.env.accessorBody v kind)
      (Part.accessor c.env false v kind)

theorem ok_of_routineContext {f : Routine} (h : l.routineContext id index = .ok (f,c)) :
    c.env.dialect = l.dialect ∧
      c.state = { scope := ⟨[.ofClass (.program id),.ofRoutine id index]⟩ } := by
  unfold routineContext at h
  split at h
  · cases h
    exact ⟨rfl,rfl⟩
  · cases h

theorem ok_of_variableContext {v : Variable} (h : l.variableContext id index = .ok (v,c)) :
    c.env.dialect = l.dialect ∧
      c.state = { scope := ⟨[.ofClass (.program id),.ofVariable id index]⟩ } := by
  unfold variableContext at h
  split at h
  · cases h
    exact ⟨rfl,rfl⟩
  · cases h

/-- In an accessor there is no table. -/
theorem routine?_of_variableContext {v : Variable} (h : l.variableContext id index = .ok (v,c)) :
    c.env.routine? c.state.scope = none := by
  rw [(ok_of_variableContext h).2]
  rfl

namespace HasBody

theorem dialect_eq (hb : l.HasBody c visible n m roots) : c.env.dialect = l.dialect := by
  cases hb with
  | routine h => exact (ok_of_routineContext h).1
  | getter h => exact (ok_of_variableContext h).1
  | setter h => exact (ok_of_variableContext h).1

/-- At the start nothing is written, and the place is in a member and not behind a dot. -/
theorem starts (hb : l.HasBody c visible n m roots) : c.state.lines = [] ∧
    c.state.scope.owned = true ∧ c.state.scope.receiver? = none := by
  cases hb with
  | routine h =>
    rw [(ok_of_routineContext h).2]
    exact ⟨rfl,rfl,rfl⟩
  | getter h =>
    rw [(ok_of_variableContext h).2]
    exact ⟨rfl,rfl,rfl⟩
  | setter h =>
    rw [(ok_of_variableContext h).2]
    exact ⟨rfl,rfl,rfl⟩

theorem isLocalName_of_parameter (hb : l.HasBody c visible n m roots) (hu : u ∈ n.uses visible)
    (hp : u.binder = some .parameter) : c.env.isLocalName c.state.scope u.name = true := by
  cases Nest.boundBy_of_mem_uses hu hp with
  | outside hmem =>
    cases hb with
    | getter => cases hmem
    | setter =>
      obtain ⟨-,hne⟩ := Prod.mk.inj (List.mem_singleton.mp hmem)
      cases hne
    | routine h =>
      obtain ⟨p,hp,heq⟩ := List.mem_map.mp hmem
      obtain ⟨hname,-⟩ := Prod.mk.inj heq
      refine Surroundings.isLocalName_of_parameter (routine?_of_routineContext h).1 ?_
      exact List.find?_isSome.mpr ⟨p,hp,beq_iff_eq.mpr hname⟩

/-- The table of a routine has every local that the scan comes to. -/
theorem isLocalName_of_scanned (hb : l.HasBody c visible n m roots) (hs : l.program.IsScanned)
    (hu : u ∈ n.uses visible) (hv : u.binder = some (.localVariable true))
    (hr : (c.env.routine? c.state.scope).isSome) :
    c.env.isLocalName c.state.scope u.name = true := by
  cases hb with
  | getter h =>
    rw [routine?_of_variableContext h] at hr
    cases hr
  | setter h =>
    rw [routine?_of_variableContext h] at hr
    cases hr
  | @routine id index f c h =>
    have hf := (routine?_of_routineContext h).1
    cases Nest.boundBy_of_mem_uses hu hv with
    | outside hmem =>
      obtain ⟨p,-,heq⟩ := List.mem_map.mp hmem
      obtain ⟨-,hne⟩ := Prod.mk.inj heq
      cases hne
    | scanned hmem =>
      obtain ⟨v,hv,hname⟩ := List.mem_map.mp
        (Routine.mem_locals_of_mem_scanned (isScanned_of_routineContext hs h).2 hmem)
      have hlast : (f.lastLocal? u.name).isSome :=
        List.find?_isSome.mpr ⟨v,List.mem_reverse.mpr hv,beq_iff_eq.mpr hname⟩
      simp [Surroundings.isLocalName, hf, hlast]

theorem isBoxed_of_unbound (hb : l.HasBody c visible n m roots) (hu : u ∈ n.uses visible)
    (hn : u.binder = none) : c.env.isBoxed c.state.scope u.name = false := by
  have hne := Nest.ne_of_mem_uses hu hn
  unfold Surroundings.isBoxed
  cases hb with
  | getter h =>
    rw [routine?_of_variableContext h]
    rfl
  | setter h =>
    rw [routine?_of_variableContext h]
    rfl
  | @routine id index f c h =>
    have hnone : f.parameter? u.name = none := by
      refine List.find?_eq_none.mpr fun p hp => ?_
      simpa using hne _ (List.mem_map.mpr ⟨p,hp,rfl⟩)
    rw [(routine?_of_routineContext h).1, Option.bind_some, hnone]
    rfl

/-- Every use is a part of the body. -/
theorem hasUse (hb : l.HasBody c visible n m roots) (hu : u ∈ n.uses visible) :
    Part.HasUse c.env roots (u.id,u.name) := by
  have hname := Nest.mem_names_of_mem_uses hu
  cases hb with
  | routine => exact Part.hasUse_routine _ hname
  | getter => exact Part.hasUse_accessor _ _ hname
  | setter => exact Part.hasUse_accessor _ _ hname

theorem allShown (hb : l.HasBody c visible n m roots) (H : c.env.dialect.ShowsOperands)
    {t : LowerState} (hrun : m c.state = (.ok (),t)) :
    Part.AllShown c.env c.state.scope t.lines roots := by
  have hshows : Shows c.env c.state.scope false roots m := by
    cases hb with
    | routine => exact Surroundings.shows_routineBody H _ _
    | getter => exact Surroundings.shows_accessorBody H _ _
    | setter => exact Surroundings.shows_accessorBody H _ _
  obtain ⟨hlines,-,hreceiver⟩ := hb.starts
  have hplace : c.state.scope.InBody false c.state.scope :=
    ⟨fun _ _ => rfl,rfl,by rw [Scope.facing, hreceiver]; rfl⟩
  obtain ⟨-,lines,hwritten,hshown⟩ := hshows c.state () t hrun hplace
  rwa [hwritten, hlines]

end HasBody

/-- In a body about which the oracle says nothing, a name is lowered as the scopes around it say
exactly if it is regular. Every use is a part of the body, and where the part is written, the lines
of the body have what the name is lowered to in its scope, unless a class of the program has the
name: in front of a static member, it may be replaced by the name of another class. -/
theorem lowers_lexically_iff (hd : l.dialect = TypeScript.dialect) (hs : l.program.IsScanned)
    (hb : l.HasBody c visible n m roots) (ho : ∀ id, c.env.oracle.symbolOf? id = none)
    (hu : u ∈ n.uses visible) (hdot : '.' ∉ u.name.toList) :
    (c.env.LowersAsMeant c.state.scope u ↔ c.env.Regular c.state.scope u) ∧
      Part.HasUse c.env roots (u.id,u.name) ∧
      ∀ t q, m c.state = (.ok (),t) → Part.IsUse c.env roots (u.id,u.name) q → 0 < q.copies →
        c.env.program.find? u.name = none →
          c.env.ShowsName c.state.scope t.lines (u.id,u.name) := by
  have hdialect := hb.dialect_eq.trans hd
  obtain ⟨-,howned,hreceiver⟩ := hb.starts
  refine ⟨?_,hb.hasUse hu,fun t q hrun hq hcopies hfind => ?_⟩
  · exact Surroundings.lowersAsMeant_iff_regular hdialect hreceiver (ho u.id) hdot
      (hb.isLocalName_of_parameter hu) (hb.isLocalName_of_scanned hs hu) (hb.isBoxed_of_unbound hu)
  · have H : c.env.dialect.ShowsOperands := hdialect ▸ TypeScript.dialect_showsOperands
    exact Surroundings.showsName_of_isUse H (hb.allShown H hrun) howned hq hcopies
      (Surroundings.canNameClass_eq_false hq.name (ho u.id) hfind)

def method (statements : List Stmt) : Routine :=
  .scanned {} { name := "m", body := some (.block statements) }

def withFields (statements : List Stmt) : Lowering where
  program := { classes := [{
    name := "K"
    vars := [{ name := "x", ty := .object "int" },{ name := "y", ty := .object "int" }]
    routines := [method statements] }] }
  dialect := TypeScript.dialect
  known := {}

theorem isScanned_withFields (statements : List Stmt) :
    (withFields statements).program.IsScanned := by
  intro c hc f hf
  obtain rfl := List.mem_singleton.mp hc
  obtain rfl := List.mem_singleton.mp hf
  exact Routine.isScanned_scanned _ _

def inMethod (statements : List Stmt) : Context :=
  (withFields statements).contextIn { name := "K" } "m" [.ofClass (.program 0),.ofRoutine 0 0]

theorem hasBody_withFields (statements : List Stmt) :
    (withFields statements).HasBody (inMethod statements) [] (.routine (method statements))
      ((inMethod statements).env.routineBody 0 (method statements))
      (Part.routine (inMethod statements).env false (method statements)) := by
  have h : (withFields statements).routineContext 0 0 =
      .ok (method statements,inMethod statements) := rfl
  exact HasBody.routine h

theorem symbolOf?_inMethod (statements : List Stmt) (id : NodeId) :
    (inMethod statements).env.oracle.symbolOf? id = none := by
  unfold Oracle.symbolOf?
  split
  · rfl
  · rfl

/-- The call `F(x)`, given the argument. -/
def callF (arg : Expr) : Stmt := .expression 0 (.invocation 0 (.identifier 0 "F") [⟨.value,arg⟩])

/-- A block with a local `x`, and then a use of the field `y`. -/
def localInBlock : List Stmt := [
  .block 0 [
    .locals 0 ⟨none,[⟨0,"x",some (.literal 0 .numeric "1")⟩]⟩,
    callF (.identifier 1 "x")],
  callF (.identifier 2 "y")]

/-- The local is lowered to its name and the field to one of `this`, and so they are written. -/
theorem localInBlock_lowers_lexically :
    ⟨1,"x",some (.localVariable true)⟩ ∈ (Nest.routine (method localInBlock)).uses [] ∧
      ⟨2,"y",none⟩ ∈ (Nest.routine (method localInBlock)).uses [] ∧
      (inMethod localInBlock).env.LowersAsMeant (inMethod localInBlock).state.scope
        ⟨1,"x",some (.localVariable true)⟩ ∧
      (inMethod localInBlock).env.LowersAsMeant (inMethod localInBlock).state.scope
        ⟨2,"y",none⟩ ∧
      ∃ t, (inMethod localInBlock).env.routineBody 0 (method localInBlock)
          (inMethod localInBlock).state = (.ok (),t) ∧
        (inMethod localInBlock).env.ShowsName (inMethod localInBlock).state.scope t.lines
          (2,"y") := by
  have hx : ⟨1,"x",some (.localVariable true)⟩ ∈ (Nest.routine (method localInBlock)).uses [] := by
    decide
  have hy : ⟨2,"y",none⟩ ∈ (Nest.routine (method localInBlock)).uses [] := by decide
  have hlocal := lowers_lexically_iff rfl (isScanned_withFields _) (hasBody_withFields _)
    (symbolOf?_inMethod _) hx (by decide)
  have hfield := lowers_lexically_iff rfl (isScanned_withFields _) (hasBody_withFields _)
    (symbolOf?_inMethod _) hy (by decide)
  have hok : ((inMethod localInBlock).env.routineBody 0 (method localInBlock)
      (inMethod localInBlock).state).1.map id = .ok () := by decide +kernel
  obtain ⟨⟨⟩,t,hrun,-⟩ := Yields.of_fst hok
  have huse : Part.IsUse (inMethod localInBlock).env
      (Part.routine (inMethod localInBlock).env false (method localInBlock)) (2,"y")
      ⟨1,1,false,.identifier 2 "y"⟩ :=
    ⟨⟨_,.tail _ (.tail _ (.head _)),.inside (.tail _ (.head _)) (.here _)⟩,rfl,rfl⟩
  refine ⟨hx,hy,?_,?_,t,hrun,?_⟩
  · exact hlocal.1.mpr ⟨by decide,.inl (.inl ⟨rfl,rfl⟩)⟩
  · exact hfield.1.mpr fun _ _ _ _ => by decide
  · exact hfield.2.2 t _ hrun huse Nat.one_pos (by decide)

/-- A lambda whose parameter has the name of a field. -/
def lambdaOverField : List Stmt := [
  callF (.simpleLambda 0 { name := "x", ty := none } (.expression (.identifier 1 "x")))]

/-- The parameter is lowered as if it was the field. -/
theorem lambdaOverField_not_lowers_lexically :
    ⟨1,"x",some .lambdaParameter⟩ ∈ (Nest.routine (method lambdaOverField)).uses [] ∧
      ¬ (inMethod lambdaOverField).env.LowersAsMeant (inMethod lambdaOverField).state.scope
        ⟨1,"x",some .lambdaParameter⟩ := by
  refine ⟨by decide,fun h => ?_⟩
  have hrun : ((inMethod lambdaOverField).env.identifier 1 "x"
      (inMethod lambdaOverField).state).1.map Lowered.code = .ok "this.x" := by decide
  obtain ⟨l,t,hl,hcode⟩ := h (inMethod lambdaOverField).state "x" rfl rfl
  have hthis := (Yields.of_fst hrun).elim hl
  exact absurd (hcode.symm.trans hthis) (by decide)

end Lowering

end Recast
