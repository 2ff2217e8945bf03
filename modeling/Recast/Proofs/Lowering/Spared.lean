import Mathlib.Data.Option.Basic
import Recast.Proofs.Lookup.DepthFirst
import Recast.Proofs.Lowering.Forms
import Recast.Proofs.Lowering.Hoisting
import Recast.Proofs.Lowering.Sheets

/-! # Lowered names

If nothing else has the name that is looked for, then a name is lowered to a text with its marks: a
local stands for itself, a member that is looked for keeps its name, and anything else is spelled
otherwise.
-/
namespace Recast

/-- Neither a member nor what it is renamed to has the name, or the member is looked for and keeps
the name. -/
def SoughtName.SparesMember (k : SoughtName) (name : String) (remap : Option String) : Prop :=
  (k.Clear name ∧ ∀ t ∈ remap, k.Clear t) ∨ (k.sought = .members ∧ name = k.name ∧ remap = none)

/-- The class does not have the name, and its members only if they are looked for. -/
structure Class.Spares (c : Class) (k : SoughtName) : Prop where
  name : k.sought ≠ .classes → k.Clear c.name
  vars : ∀ v ∈ c.vars, k.SparesMember v.name v.remap ∧ ∀ t ∈ v.remapClass, k.Clear t
  routines : ∀ f ∈ c.routines, f.isConstructor = false → k.SparesMember f.name f.remap
  constructors : ∀ f ∈ c.constructors, ∀ t ∈ f.remap, k.Clear t

namespace SoughtName.SparesMember
variable {k : SoughtName} {name : String} {remap : Option String}

/-- A member is written with the marks of its name. -/
theorem shows (h : k.SparesMember name remap) : k.Shows (k.accessed name) (remap.getD name) := by
  obtain ⟨hname,hremap⟩ | ⟨-,-,rfl⟩ := h
  · rw [accessed_of_clear hname]
    cases remap with
    | none => exact .clear hname
    | some t => exact .clear (hremap t rfl)
  · exact k.shows_accessed name

/-- Where a member has the name it is looked for. -/
theorem accessed_eq (h : k.SparesMember name remap) : k.accessed name = k.mentioned name := by
  obtain ⟨hname,-⟩ | ⟨hmembers,-⟩ := h
  · rw [accessed_of_clear hname, mentioned_of_clear hname]
  · rw [accessed, if_pos hmembers]

end SoughtName.SparesMember

/-- What the names of temporary variables start with. -/
def Lower.tempWords : List String := ["ret", "out", "cond", "first", "iter", "using"]

/-- Nothing that lowering looks up or makes up has the name. -/
structure Surroundings.Spares (env : Surroundings) (k : SoughtName) : Prop where
  dialect : env.dialect.Transparent k
  classes : ∀ c ∈ env.program.classes, c.Spares k
  known : ∀ c ∈ env.known.entries, k.Clear c.name ∧ k.Clear c.target
  oracle : k.sought ≠ .classes → ∀ id symbol, env.oracle.symbolOf? id = some symbol →
    ∀ t ∈ symbol.containingType, k.Clear t
  temps : ∀ word ∈ Lower.tempWords, ∀ n : Nat, k.name ≠ word ++ "_" ++ toString n

/-- What is found under a name is written with the marks of the name. -/
structure MemberInfo.Spares (m : MemberInfo) (k : SoughtName) (name : String) : Prop where
  marks : k.accessed name = k.mentioned name
  emitted : k.Shows (k.accessed name) m.emitted
  remapClass : ∀ t ∈ m.remapClass, k.Clear t
  owner : k.sought ≠ .classes → k.Clear m.owner

namespace Surroundings.Spares
open Lower
variable {env : Surroundings} {k : SoughtName} (H : env.Spares k)
include H

theorem clear_temp {word : String} (hword : word ∈ Lower.tempWords) (n : Nat) :
    k.Clear (word ++ "_" ++ toString n) := by
  have hwords : (Lower.tempWords.all fun w => w.toList.all Text.isLetter) = true := by decide
  have hdigits : (toString n).toList.all Text.isLetter = true := by
    rw [List.all_eq_true]
    intro c hc
    simp [Text.isLetter, Char.isAlphanum, isDigits_toString n c hc]
  refine SoughtName.clear_of_letters ?_ ?_ (H.temps word hword n)
  · intro h
    simpa using congrArg String.toList h
  · rw [String.toList_append, String.toList_append, List.all_append, List.all_append,
      List.all_eq_true.mp hwords word hword, hdigits]
    decide

theorem class? {id : ClassId} {c : Class} (h : env.program.class? id = some c) : c.Spares k :=
  H.classes c (List.mem_of_getElem? h)

theorem className (hk : k.sought ≠ .classes) (id : ClassId) : k.Clear (env.className id) := by
  unfold Surroundings.className
  cases h : env.program.class? id with
  | none => exact k.clear_empty
  | some c => exact (H.class? h).name hk

theorem find? (hk : k.sought ≠ .classes) {name : String} (h : (env.program.find? name).isSome) :
    k.Clear name := by
  rw [Program.find?, List.findIdx?_isSome, List.any_eq_true] at h
  obtain ⟨c,hc,heq⟩ := h
  rw [← beq_iff_eq.mp heq]
  exact (H.classes c hc).name hk

theorem get? {name : String} {n : Nat} {c : KnownClass} (h : env.known.get? name n = some c) :
    k.Clear name ∧ k.Clear c.target := by
  have hfound {p : KnownClass → Bool} (hp : ∀ d, p d = true → d.name = name)
      (h : env.known.entries.find? p = some c) : k.Clear name ∧ k.Clear c.target := by
    rw [← hp c (List.find?_some h)]
    exact H.known c (List.mem_of_find?_eq_some h)
  obtain h | ⟨-,h⟩ := (Option.orElse_eq_some _ _ _).mp h
  · exact hfound (fun d hd => by simp_all) h
  · exact hfound (fun d hd => by simp_all) h

theorem member_spares {name : String} {remap remapClass : Option String}
    (h : k.SparesMember name remap) (hclass : ∀ t ∈ remapClass, k.Clear t) (owner : ClassId)
    (isStatic : Bool) (ty : Option TypeDesc) :
    MemberInfo.Spares ⟨remap.getD name,isStatic,remapClass,env.className owner,ty⟩ k name :=
  ⟨h.accessed_eq,h.shows,hclass,fun hk => H.className hk owner⟩

theorem ownMember? {name : String} {arity : Option Nat} {id : ClassId} {ref : MemberRef}
    {m : MemberInfo} (h : env.program.ownMember? name arity id = some ref)
    (hm : env.infoOf? ref = some m) : m.Spares k name := by
  cases Program.answers_of_ownMember? h with
  | ofVariable hv hname =>
    rw [infoOf?, hv] at hm
    cases hm
    obtain ⟨c,hc,hv⟩ := Option.bind_eq_some_iff.mp hv
    obtain ⟨hmember,hclass⟩ := (H.class? hc).vars _ (List.mem_of_getElem? hv)
    rw [← hname]
    exact H.member_spares hmember hclass id _ _
  | ofRoutine _ hf hname hmethod =>
    rw [infoOf?, hf] at hm
    cases hm
    obtain ⟨c,hc,hf⟩ := Program.routineAt?_eq_some_iff.mp hf
    have hmember := (H.class? hc).routines _ (List.mem_of_getElem? hf) hmethod
    rw [← hname]
    exact H.member_spares hmember (by simp) id _ _

theorem memberInfo? {id : ClassId} {name : String} {arity : Option Nat} {m : MemberInfo}
    (h : env.memberInfo? id name arity = some m) : m.Spares k name := by
  obtain ⟨ref,href,hm⟩ := Option.bind_eq_some_iff.mp h
  obtain ⟨b,-,hb⟩ := List.exists_of_findSome?_eq_some href
  exact H.ownMember? hb hm

theorem constructorName? {owner : Option ClassId} {arity : Nat} :
    ∀ name ∈ env.constructorName? owner arity, k.Clear name := by
  intro name h
  obtain ⟨id,-,h⟩ := Option.bind_eq_some_iff.mp h
  obtain ⟨c,hc,h⟩ := Option.bind_eq_some_iff.mp h
  obtain ⟨f,hf,h⟩ := Option.bind_eq_some_iff.mp h
  have hmem : f ∈ c.constructors := by
    obtain h | ⟨-,h⟩ := (Option.orElse_eq_some _ _ _).mp hf
    · exact List.mem_of_find?_eq_some h
    · exact List.mem_of_head? h
  exact (H.class? hc).constructors f hmem name h

/-- Whether a member is found or not, its name is written with the marks of a member. -/
theorem emitted (owner : Option ClassId) (name : String) (arity : Option Nat) :
    k.Shows (k.accessed name) (((owner.bind fun id => env.memberInfo? id name arity).map
      MemberInfo.emitted).getD name) := by
  cases h : owner.bind fun id => env.memberInfo? id name arity with
  | none => exact k.shows_accessed name
  | some m =>
    obtain ⟨id,-,hm⟩ := Option.bind_eq_some_iff.mp h
    exact (H.memberInfo? hm).emitted

/-- A class stands in front of a static member. -/
theorem member {owner : Option ClassId} {name : String} {arity : Option Nat}
    {isStatic : Option Bool} {declaredIn : Option String}
    (h : isStatic = some false ∨ k.sought ≠ .classes ∧ ∀ t ∈ declaredIn, k.Clear t) :
    Gives (fun l => k.Shows (k.accessed name) l.code)
      (env.member owner name arity isStatic declaredIn) := by
  have hemitted := H.emitted owner name arity
  dsimp only [Surroundings.member]
  split
  · next hstatic =>
    obtain rfl | ⟨hk,hd⟩ := h
    · cases hstatic
    refine .bind fun _ => .pure (H.dialect.staticMember (.clear ?_) hemitted)
    cases hi : owner.bind fun id => env.memberInfo? id name arity with
    | some m =>
      obtain ⟨id,-,hm⟩ := Option.bind_eq_some_iff.mp hi
      have hspares := H.memberInfo? hm
      change k.Clear (m.remapClass.getD m.owner)
      cases hc : m.remapClass with
      | none => exact hspares.owner hk
      | some t => exact hspares.remapClass t hc
    | none =>
      cases declaredIn with
      | some t => exact hd t rfl
      | none =>
        cases owner with
        | none => exact k.clear_empty
        | some id => exact H.className hk id
  · exact .pure (H.dialect.thisMember hemitted)

theorem typeName {name : String} (hname : k.Clear name) :
    Gives (fun l => k.Shows [] l.code) (env.typeName name) := by
  dsimp only [Surroundings.typeName]
  split
  · next c hc => exact .bind fun _ => .pure (H.dialect.typeReference (.clear (H.get? hc).2))
  · exact .bind fun _ => .pure (H.dialect.typeReference (.clear hname))

theorem parameter (scope : Scope) (name : String) :
    k.Shows (k.mentioned name) (env.parameter scope name).code := by
  have hname := k.shows_mentioned name
  unfold Surroundings.parameter
  split
  · dsimp only
    split
    · exact H.dialect.parameterValue hname
    · exact hname
  · exact hname

theorem plainName (hk : k.sought ≠ .classes) (scope : Scope) (name : String) (arity : Option Nat) :
    Gives (fun l => k.Shows (k.mentioned name) l.code) (env.plainName scope name arity) := by
  dsimp only [Surroundings.plainName]
  split
  · exact .pure (H.parameter scope name)
  · split
    · next hm =>
      obtain ⟨m,hm⟩ := Option.isSome_iff_exists.mp hm
      obtain ⟨id,-,hm⟩ := Option.bind_eq_some_iff.mp hm
      rw [← (H.memberInfo? hm).marks]
      exact H.member (.inr ⟨hk,by simp⟩)
    · split
      · next hc =>
        have hname : k.Clear name := by
          obtain hc | hc := Bool.or_eq_true_iff.mp hc
          · exact H.find? hk hc
          · obtain ⟨c,hc⟩ := Option.isSome_iff_exists.mp hc
            exact (H.get? hc).1
        rw [SoughtName.mentioned_of_clear hname]
        exact H.typeName hname
      · exact .pure (k.shows_mentioned name)

theorem memberName (receiver : ClassRef) (name : String) (arity : Option Nat) :
    k.Shows (k.accessed name) (env.memberName receiver name arity).code := by
  unfold Surroundings.memberName
  split
  · exact k.shows_accessed name
  · split
    · next hm => exact (H.memberInfo? hm).emitted
    · exact k.shows_accessed name

omit H in
/-- Behind a dot a name is that of a member, or nothing is said about it. -/
theorem nameMarks_facing {id : NodeId} {name code : String} (h : k.Shows (k.accessed name) code) :
    k.Shows (env.nameMarks k true id name) code := by
  unfold nameMarks
  cases env.oracle.symbolOf? id with
  | none => exact h
  | some symbol =>
    change k.Shows (symbolMarks k true symbol name) code
    unfold symbolMarks
    cases symbol.kind with
    | localVar | parameter => exact h
    | constructor | namespaceName | type => exact h.of_accessed
    | field | property | event | method =>
      dsimp only
      split
      · exact SoughtName.shows_qualified fun _ => h
      · exact h

theorem symbolName (scope : Scope) {id : NodeId} {symbol : Symbol} {name : String}
    (arity : Option Nat) (hs : env.oracle.symbolOf? id = some symbol) :
    Gives (fun l => k.Shows (env.nameMarks k false id name) l.code)
      (env.symbolName scope symbol name arity) := by
  have hclash {m : Lower Lowered} (hm : k.Clear name → Gives (fun l => k.Shows [] l.code) m) :
      Gives (fun l => k.Shows (k.clashes name) l.code) m :=
    fun s l t h => SoughtName.shows_clashes fun hname => hm hname s l t h
  rw [nameMarks, hs]
  dsimp only [Surroundings.symbolName, symbolMarks]
  cases symbol.kind with
  | localVar => exact .pure (k.shows_mentioned name)
  | parameter => exact .pure (H.parameter scope name)
  | constructor => exact hclash fun hname => .pure (.clear hname)
  | namespaceName => exact hclash fun _ => .pure (.clear k.clear_empty)
  | type => exact hclash H.typeName
  | field | property | event | method =>
    dsimp only
    cases symbol.isStatic with
    | false => exact H.member (.inl rfl)
    | true =>
      exact fun s l t h => SoughtName.shows_qualified fun hk =>
        H.member (.inr ⟨hk,H.oracle hk id symbol hs⟩) s l t h

/-- A name is lowered to a text with its marks. -/
theorem identifier {id : NodeId} {name : String} {s t : LowerState} {l : Lowered}
    (h : env.identifier id name s = (.ok l,t)) :
    k.Shows (env.nameMarks k s.scope.facing id name) l.code := by
  have typed (l : Lowered) (ty : Option TypeDesc) :
      (if l.processed then { l with ty } else l).code = l.code := by
    split <;> rfl
  obtain ⟨arity,u,h₁,h₂⟩ := ok_of_bind h
  obtain ⟨_,_,h₃,h₄⟩ := ok_of_bind h₂
  cases h₁
  cases h₃
  dsimp only at h₄
  unfold Scope.facing
  cases hr : s.scope.receiver? with
  | some receiver =>
    rw [hr] at h₄
    obtain ⟨m,_,h₅,h₆⟩ := ok_of_bind h₄
    obtain ⟨rfl,-⟩ := ok_of_pure h₅
    obtain ⟨rfl,-⟩ := ok_of_pure h₆
    rw [typed]
    exact nameMarks_facing (H.memberName receiver name s.callArity)
  | none =>
    rw [hr] at h₄
    cases ho : env.oracle.symbolOf? id with
    | some symbol =>
      rw [ho] at h₄
      obtain ⟨m,_,h₅,h₆⟩ := ok_of_bind h₄
      obtain ⟨rfl,-⟩ := ok_of_pure h₆
      rw [typed]
      exact H.symbolName _ _ ho _ _ _ h₅
    | none =>
      rw [ho] at h₄
      obtain ⟨m,_,h₅,h₆⟩ := ok_of_bind h₄
      obtain ⟨rfl,-⟩ := ok_of_pure h₆
      rw [typed, Option.isSome_none, nameMarks, ho]
      exact SoughtName.shows_qualified fun hk => H.plainName hk _ _ _ _ _ _ h₅

end Surroundings.Spares

end Recast
