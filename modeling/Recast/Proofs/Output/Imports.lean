import Recast.Output
import Recast.Proofs.Lowering.References
import Recast.Proofs.Ordering.StableSort
import Recast.Proofs.Output.Paths
import Recast.Proofs.Sorted.Lookups

/-! # What pages import

The page of a class starts with the imports that its types and bodies need. Names are noted in two
ways, by the writer for the types that it spells and by lowering for the bodies that it is given,
and both come together in the sheet of the page. What a sheet asks for is followed through every
part of the page, up to the header.
-/
namespace Recast

namespace TypeDesc

/-- A descriptor that stands in another one, or is that one. -/
inductive NodeOf (x : TypeDesc) : TypeDesc → Prop where
  | self : NodeOf x x
  | arg {d e : TypeDesc} (he : e ∈ d.args) (hx : NodeOf x e) : NodeOf x d
  | generic {d e : TypeDesc} (he : e ∈ d.genericArgs) (hx : NodeOf x e) : NodeOf x d

theorem namesOf_eq_flatMap (ds : List TypeDesc) : namesOf ds = ds.flatMap names := by
  induction ds with
  | nil => rfl
  | cons d ds ih => rw [namesOf, ih, List.flatMap_cons]

theorem names_eq (d : TypeDesc) :
    d.names = d.name :: (d.args.flatMap names ++ d.genericArgs.flatMap names) := by
  cases d
  rw [names, namesOf_eq_flatMap, namesOf_eq_flatMap]

mutual

theorem exists_nodeOf_of_mem_names {name : String} :
    (d : TypeDesc) → name ∈ d.names → ∃ x : TypeDesc, x.NodeOf d ∧ x.name = name
  | ⟨kind,own,args,generics,nullable⟩, h => by
    rw [names, List.mem_cons, List.mem_append] at h
    rcases h with rfl | h | h
    · exact ⟨_,.self,rfl⟩
    · obtain ⟨e,he,x,hx,hname⟩ := exists_nodeOf_of_mem_namesOf args h
      exact ⟨x,.arg he hx,hname⟩
    · obtain ⟨e,he,x,hx,hname⟩ := exists_nodeOf_of_mem_namesOf generics h
      exact ⟨x,.generic he hx,hname⟩

theorem exists_nodeOf_of_mem_namesOf {name : String} :
    (ds : List TypeDesc) → name ∈ namesOf ds →
      ∃ e ∈ ds, ∃ x : TypeDesc, x.NodeOf e ∧ x.name = name
  | [], h => absurd h List.not_mem_nil
  | d :: ds, h => by
    rw [namesOf, List.mem_append] at h
    rcases h with h | h
    · exact ⟨d,List.mem_cons_self,exists_nodeOf_of_mem_names d h⟩
    · obtain ⟨e,he,hx⟩ := exists_nodeOf_of_mem_namesOf ds h
      exact ⟨e,List.mem_cons_of_mem d he,hx⟩

end

theorem mem_names_iff {name : String} {d : TypeDesc} :
    name ∈ d.names ↔ ∃ x : TypeDesc, x.NodeOf d ∧ x.name = name := by
  refine ⟨exists_nodeOf_of_mem_names d,?_⟩
  rintro ⟨x,hx,rfl⟩
  induction hx with
  | self => simp [names_eq x]
  | @arg d e he hx ih =>
    rw [names_eq]
    simp only [List.mem_cons, List.mem_append, List.mem_flatMap]
    exact .inr (.inl ⟨e,he,ih⟩)
  | @generic d e he hx ih =>
    rw [names_eq]
    simp only [List.mem_cons, List.mem_append, List.mem_flatMap]
    exact .inr (.inr ⟨e,he,ih⟩)

end TypeDesc

namespace TypeScript

/-- What a text can ask for: that a type is in scope, or that a line imports something. -/
inductive Need where
  | type (name : String)
  | line (text : String)

/-- What a type asks for: the names at all its nodes, and the imports of its spelling. -/
def TypeAsks (t : TypeTables) (d : TypeDesc) : Need → Prop
  | .type name => ∃ x : TypeDesc, x.NodeOf d ∧ x.name = name
  | .line text => text ∈ (t.spell d).imports

def BodyAsks (b : LoweredBody) : Need → Prop
  | .type name => name ∈ b.referenced
  | .line text => text ∈ SortedSet.toList b.imports

namespace Sheet
variable {t : TypeTables} {a b : Sheet} {n : Need}

def Asks (s : Sheet) : Need → Prop
  | .type name => name ∈ s.mentions
  | .line text => text ∈ s.imports

@[simp]
theorem asks_append : (a ++ b).Asks n ↔ a.Asks n ∨ b.Asks n := by
  cases n <;> exact List.mem_append

@[simp]
theorem asks_empty : ({} : Sheet).Asks n ↔ False := by
  cases n <;> exact List.mem_nil_iff _

@[simp]
theorem asks_line {level : Nat} {text : String} : (line level text).Asks n ↔ False := by
  cases n <;> exact List.mem_nil_iff _

@[simp]
theorem asks_concat {sheets : List Sheet} : (concat sheets).Asks n ↔ ∃ s ∈ sheets, s.Asks n := by
  induction sheets using List.reverseRecOn with
  | nil => simp [concat]
  | append_singleton sheets s ih =>
    have hconcat : concat (sheets ++ [s]) = concat sheets ++ s := by
      simp [concat, List.foldl_append]
    rw [hconcat, asks_append, ih]
    simp [or_and_right, exists_or]

@[simp]
theorem asks_uses {types : List TypeDesc} :
    (uses t types).Asks n ↔ ∃ d ∈ types, TypeAsks t d n := by
  cases n with
  | type name =>
    show name ∈ types.flatMap TypeDesc.names ↔ _
    simp only [List.mem_flatMap, TypeDesc.mem_names_iff, TypeAsks]
  | line text => exact List.mem_flatMap

@[simp]
theorem asks_mention {names : List String} :
    (mention names).Asks n ↔ ∃ name ∈ names, n = .type name := by
  cases n with
  | type name => simp [mention, Asks]
  | line text => simp [mention, Asks]

@[simp]
theorem asks_needs {b : LoweredBody} : (needs b).Asks n ↔ BodyAsks b n := by
  cases n <;> exact Iff.rfl

@[simp]
theorem asks_body {level : Nat} {b : LoweredBody} : (body level b).Asks n ↔ BodyAsks b n := by
  simp [body]

end Sheet

/-- The bodies that a variable of a class is written with. -/
inductive VariableHolds (l : Lowering) (id : ClassId) (index : Nat) (v : Variable) :
    LoweredBody → Prop where
  | initializer {b : LoweredBody} (hplain : v.isPlain = true) (hliteral : v.assignment = none)
    (hb : l.initializer id index = .ok (some b)) : VariableHolds l id index v b
  | getter {b : LoweredBody} (hbody : v.expressionBody.isSome = true ∨ v.getBody.isSome = true)
    (hb : l.accessor id index .get = .ok b) : VariableHolds l id index v b
  | setter {b : LoweredBody} (hbody : v.setBody.isSome = true)
    (hb : l.accessor id index .set = .ok b) : VariableHolds l id index v b

/-- The body that a routine of a class is written with. -/
structure RoutineHolds (l : Lowering) (id : ClassId) (index : Nat) (f : Routine)
    (b : LoweredBody) : Prop where
  hasBody : f.isConstructor = true ∨ f.body.isSome = true
  lowered : l.routine id index = .ok b

/-- The bodies that a class is written with. An interface has none. -/
inductive Holds (l : Lowering) (id : ClassId) (c : Class) : LoweredBody → Prop where
  | ofVariable {i : Nat} {v : Variable} {b : LoweredBody} (hclass : c.declaration ≠ .interface)
    (hv : c.vars[i]? = some v) (hb : VariableHolds l id i v b) : Holds l id c b
  | ofRoutine {i : Nat} {f : Routine} {b : LoweredBody} (hclass : c.declaration ≠ .interface)
    (hf : c.routines[i]? = some f) (hb : RoutineHolds l id i f b) : Holds l id c b

/-- The types that a class is written with: those of its variables, parameters and results. -/
inductive Writes (c : Class) : TypeDesc → Prop where
  | ofVariable {v : Variable} (hv : v ∈ c.vars) : Writes c v.ty
  | ofParameter {f : Routine} {p : Parameter} (hf : f ∈ c.routines) (hp : p ∈ f.parameters) :
    Writes c p.ty
  | ofResult {f : Routine} {ty : TypeDesc} (hf : f ∈ c.routines)
    (hmethod : c.declaration = .interface ∨ f.isConstructor = false)
    (hty : f.effectiveReturnType? = some ty) : Writes c ty

/-- What the page of a class has to ask for. -/
inductive ClassAsks (l : Lowering) (id : ClassId) (c : Class) : Need → Prop where
  | extension {name : String} (hname : name ∈ c.extensions) : ClassAsks l id c (.type name)
  | type {d : TypeDesc} {n : Need} (hd : Writes c d) (hn : TypeAsks (tables l) d n) :
    ClassAsks l id c n
  | body {b : LoweredBody} {n : Need} (hb : Holds l id c b) (hn : BodyAsks b n) :
    ClassAsks l id c n

theorem classAsks_type_iff {l : Lowering} {id : ClassId} {c : Class} {name : String} :
    ClassAsks l id c (.type name) ↔ name ∈ c.extensions ∨
      (∃ ty, Writes c ty ∧ ∃ x : TypeDesc, x.NodeOf ty ∧ x.name = name) ∨
      ∃ b, Holds l id c b ∧ name ∈ b.referenced := by
  constructor
  · rintro (hname | ⟨hd,hn⟩ | ⟨hb,hn⟩)
    · exact .inl hname
    · exact .inr (.inl ⟨_,hd,hn⟩)
    · exact .inr (.inr ⟨_,hb,hn⟩)
  · rintro (hname | ⟨ty,hty,hn⟩ | ⟨b,hb,hn⟩)
    · exact .extension hname
    · exact .type hty hn
    · exact .body hb hn

theorem classAsks_line_iff {l : Lowering} {id : ClassId} {c : Class} {text : String} :
    ClassAsks l id c (.line text) ↔
      (∃ ty, Writes c ty ∧ text ∈ ((tables l).spell ty).imports) ∨
      ∃ b, Holds l id c b ∧ text ∈ SortedSet.toList b.imports := by
  constructor
  · rintro (_ | ⟨hd,hn⟩ | ⟨hb,hn⟩)
    · exact .inl ⟨_,hd,hn⟩
    · exact .inr ⟨_,hb,hn⟩
  · rintro (⟨ty,hty,hn⟩ | ⟨b,hb,hn⟩)
    · exact .type hty hn
    · exact .body hb hn

theorem ite_bind_bind {α β : Type} {condition : Bool} {x y : Except LowerError α}
    {f : α → Except LowerError β} :
    (if condition then x >>= f else y >>= f) = (if condition then x else y) >>= f := by
  cases condition <;> rfl

theorem exists_getElem?_cons {α : Type} {P : Nat → α → Prop} {x : α} {xs : List α} {k : Nat} :
    (∃ i y, (x :: xs)[i]? = some y ∧ P (k + i) y) ↔
      P k x ∨ ∃ i y, xs[i]? = some y ∧ P (k + 1 + i) y := by
  constructor
  · rintro ⟨i,y,hy,hp⟩
    cases i with
    | zero =>
      cases hy
      exact .inl hp
    | succ i => exact .inr ⟨i,y,hy,by rwa [Nat.add_right_comm]⟩
  · rintro (hp | ⟨i,y,hy,hp⟩)
    · exact ⟨0,x,rfl,hp⟩
    · exact ⟨i + 1,y,hy,by rwa [Nat.add_right_comm] at hp⟩

section bodies
variable {l : Lowering} {id : ClassId} {c : Class} {b : LoweredBody}

/-- What a body refers to, when nothing was noted before. -/
theorem foreign_of_finish {context : Lowering.Context} {m : Lower Unit}
    (hm : context.env.RefersAbroad m) (hnone : context.state.referenced = [])
    (h : Lowering.finish context m = .ok b) {name : String} (hname : name ∈ b.referenced) :
    context.env.Foreign context.state.scope name := by
  have hnames := (hm context.state).2
  unfold Lowering.finish at h
  split at h
  · next s hrun =>
    cases h
    rw [hrun] at hnames
    exact (hnames name hname).resolve_left (hnone ▸ List.not_mem_nil)
  · cases h

theorem routineContext_eq (hc : l.program.class? id = some c) {index : Nat} {f : Routine}
    {context : Lowering.Context} (h : l.routineContext id index = .ok (f,context)) :
    context = l.contextIn c f.name [.ofClass (.program id),.ofRoutine id index] := by
  unfold Lowering.routineContext at h
  rw [hc] at h
  split at h
  · next hclass _ =>
    cases hclass
    cases h
    rfl
  · cases h

theorem variableContext_eq (hc : l.program.class? id = some c) {index : Nat} {v : Variable}
    {context : Lowering.Context} (h : l.variableContext id index = .ok (v,context)) :
    context = l.contextIn c v.name [.ofClass (.program id),.ofVariable id index] := by
  unfold Lowering.variableContext at h
  rw [hc] at h
  split at h
  · next hclass _ =>
    cases hclass
    cases h
    rfl
  · cases h

/-- The bodies of a class refer to other classes only. -/
theorem foreign_of_holds (hc : l.program.class? id = some c) (hb : Holds l id c b) {name : String}
    (hname : name ∈ b.referenced) : name ≠ c.name ∧ (l.program.find? name).isSome = true := by
  have hforeign : ∀ {memberName : String} {frames : List Frame} {m : Lower Unit},
      Scope.memberOwner? ⟨frames⟩ = some id →
      (l.contextIn c memberName frames).env.RefersAbroad m →
      Lowering.finish (l.contextIn c memberName frames) m = .ok b →
      name ≠ c.name ∧ (l.program.find? name).isSome = true := by
    intro memberName frames m howner hm hfinish
    obtain ⟨hne,hfind⟩ := foreign_of_finish hm rfl hfinish hname
    refine ⟨?_,hfind⟩
    rintro rfl
    have hown : (l.contextIn c memberName frames).state.scope.memberOwner? = some id := howner
    have hclassName : (l.contextIn c memberName frames).env.className id = c.name := by
      rw [Surroundings.className, show (l.contextIn c memberName frames).env.program.class? id =
        some c from hc]
      rfl
    exact hne (by rw [hown, Option.map_some, hclassName])
  have haccessor : ∀ {i kind}, l.accessor id i kind = .ok b →
      name ≠ c.name ∧ (l.program.find? name).isSome = true := by
    intro i kind h
    obtain ⟨⟨v,context⟩,hcontext,hfinish⟩ := exists_of_bind_eq_ok h
    cases variableContext_eq hc hcontext
    exact hforeign rfl ((Surroundings.traced_refersAbroad _).accessorBody v kind) hfinish
  cases hb with
  | ofRoutine _ hf hb =>
    obtain ⟨⟨f,context⟩,hcontext,hfinish⟩ := exists_of_bind_eq_ok hb.lowered
    cases routineContext_eq hc hcontext
    exact hforeign rfl ((Surroundings.traced_refersAbroad _).routineBody id f) hfinish
  | ofVariable _ hv hb =>
    cases hb with
    | getter _ h => exact haccessor h
    | setter _ h => exact haccessor h
    | initializer _ _ h =>
      obtain ⟨⟨v,context⟩,hcontext,h⟩ := exists_of_bind_eq_ok h
      cases variableContext_eq hc hcontext
      dsimp only at h
      split at h
      · cases h
      · next e _ =>
        obtain ⟨body,hfinish,hbody⟩ := exists_of_bind_eq_ok h
        cases hbody
        exact hforeign rfl ((Surroundings.traced_refersAbroad _).initialValue e) hfinish

end bodies

section sheets
variable {l : Lowering} {id : ClassId} {index : Nat} {v : Variable} {f : Routine} {s : Sheet}
  {n : Need}

theorem asks_plainVariable (hplain : v.isPlain = true) (h : plainVariable l id index v = .ok s) :
    s.Asks n ↔ ∃ b, VariableHolds l id index v b ∧ BodyAsks b n := by
  simp only [Variable.isPlain, Bool.and_eq_true, Option.isNone_iff_eq_none] at hplain
  obtain ⟨⟨hget,hset⟩,hexpression⟩ := hplain
  have hholds : ∀ b, VariableHolds l id index v b ↔
      v.assignment = none ∧ l.initializer id index = .ok (some b) := by
    intro b
    constructor
    · rintro (⟨-,hliteral,hb⟩ | ⟨hbody,-⟩ | ⟨hbody,-⟩)
      · exact ⟨hliteral,hb⟩
      · simp [hget, hexpression] at hbody
      · simp [hset] at hbody
    · rintro ⟨hliteral,hb⟩
      exact .initializer (by simp [Variable.isPlain, hget, hset, hexpression]) hliteral hb
  simp only [hholds]
  unfold plainVariable at h
  dsimp only at h
  split at h
  · next hliteral =>
    cases h
    simp [hliteral]
  · next hliteral =>
    obtain ⟨initial,hinitial,h⟩ := exists_of_bind_eq_ok h
    cases initial with
    | none =>
      cases h
      simp [hinitial]
    | some b =>
      cases h
      simp [hinitial, hliteral]

/-- An accessor that is written only on a condition. -/
theorem asks_accessor {kind : AccessorKind} {head : String} {condition : Bool}
    (h : (if condition then accessor l id index kind head else pure {}) = .ok s) :
    s.Asks n ↔ condition = true ∧ ∃ b, l.accessor id index kind = .ok b ∧ BodyAsks b n := by
  split at h
  · next hcondition =>
    obtain ⟨b,hb,hs⟩ := exists_of_bind_eq_ok h
    cases hs
    simp [hcondition, hb]
  · next hcondition =>
    cases h
    simp [hcondition]

theorem asks_property (hplain : v.isPlain = false) (h : property l id index v = .ok s) :
    s.Asks n ↔ ∃ b, VariableHolds l id index v b ∧ BodyAsks b n := by
  obtain ⟨getHead,setHead,getter,setter,hgetter,hsetter,rfl⟩ : ∃ getHead setHead getter setter,
      (if v.expressionBody.isSome || v.getBody.isSome then accessor l id index .get getHead
        else pure {}) = .ok getter ∧
      (if v.setBody.isSome then accessor l id index .set setHead else pure {}) = .ok setter ∧
      s = getter ++ setter := by
    unfold property at h
    dsimp only at h
    rw [ite_bind_bind] at h
    obtain ⟨getter,hgetter,h⟩ := exists_of_bind_eq_ok h
    rw [ite_bind_bind] at h
    obtain ⟨setter,hsetter,hs⟩ := exists_of_bind_eq_ok h
    cases hs
    exact ⟨_,_,getter,setter,hgetter,hsetter,rfl⟩
  rw [Sheet.asks_append, asks_accessor hgetter, asks_accessor hsetter, Bool.or_eq_true]
  constructor
  · rintro (⟨hbody,b,hb,hn⟩ | ⟨hbody,b,hb,hn⟩)
    · exact ⟨b,.getter hbody hb,hn⟩
    · exact ⟨b,.setter hbody hb,hn⟩
  · rintro ⟨b,(⟨hplain',-⟩ | ⟨hbody,hb⟩ | ⟨hbody,hb⟩),hn⟩
    · rw [hplain] at hplain'
      cases hplain'
    · exact .inl ⟨hbody,b,hb,hn⟩
    · exact .inr ⟨hbody,b,hb,hn⟩

theorem asks_variableSheet (h : variableSheet l id index v = .ok s) :
    s.Asks n ↔ TypeAsks (tables l) v.ty n ∨
      ∃ b, VariableHolds l id index v b ∧ BodyAsks b n := by
  unfold variableSheet at h
  dsimp only at h
  split at h
  · next hplain =>
    obtain ⟨members,hmembers,hs⟩ := exists_of_bind_eq_ok h
    cases hs
    rw [Sheet.asks_append, asks_plainVariable hplain hmembers]
    simp
  · next hplain =>
    obtain ⟨members,hmembers,hs⟩ := exists_of_bind_eq_ok h
    cases hs
    rw [Sheet.asks_append, asks_property (Bool.eq_false_iff.mpr hplain) hmembers]
    simp

theorem asks_constructorSheet {className : String} {b : LoweredBody} :
    (constructorSheet l className f b).Asks n ↔ BodyAsks b n := by
  unfold constructorSheet
  dsimp only
  split
  · simp
  · split <;> simp

theorem asks_routineSheet {className : String} (h : routineSheet l id className index f = .ok s) :
    s.Asks n ↔ (∃ d ∈ signatureTypes f, TypeAsks (tables l) d n) ∨
      ∃ b, RoutineHolds l id index f b ∧ BodyAsks b n := by
  have hholds : ∀ b, RoutineHolds l id index f b ↔
      (f.isConstructor = true ∨ f.body.isSome = true) ∧ l.routine id index = .ok b :=
    fun b => ⟨fun h => ⟨h.hasBody,h.lowered⟩,fun h => ⟨h.1,h.2⟩⟩
  simp only [hholds]
  unfold routineSheet at h
  dsimp only at h
  split at h
  · next hconstructor =>
    obtain ⟨b,hb,hs⟩ := exists_of_bind_eq_ok h
    cases hs
    simp [asks_constructorSheet, hconstructor, hb]
  · next hconstructor =>
    split at h
    · next hbody =>
      cases h
      simp [hconstructor, Option.isNone_iff_eq_none.mp hbody]
    · next hbody =>
      obtain ⟨b,hb,hs⟩ := exists_of_bind_eq_ok h
      cases hs
      simp [Option.isSome_iff_ne_none, mt Option.isNone_iff_eq_none.mpr hbody, hb]

theorem asks_variableSheets {k : Nat} {vs : List Variable} (h : variableSheets l id k vs = .ok s) :
    s.Asks n ↔ ∃ i v, vs[i]? = some v ∧ (TypeAsks (tables l) v.ty n ∨
      ∃ b, VariableHolds l id (k + i) v b ∧ BodyAsks b n) := by
  induction vs generalizing k s with
  | nil =>
    cases h
    simp
  | cons v vs ih =>
    obtain ⟨first,hfirst,h⟩ := exists_of_bind_eq_ok h
    obtain ⟨rest,hrest,hs⟩ := exists_of_bind_eq_ok h
    cases hs
    rw [Sheet.asks_append, asks_variableSheet hfirst, ih hrest, exists_getElem?_cons
      (P := fun i v => TypeAsks (tables l) v.ty n ∨ ∃ b, VariableHolds l id i v b ∧ BodyAsks b n)]

theorem asks_routineSheets {c : Class} {k : Nat} {fs : List Routine}
    (h : routineSheets l id c k fs = .ok s) :
    s.Asks n ↔ ∃ i f, fs[i]? = some f ∧ ((∃ d ∈ signatureTypes f, TypeAsks (tables l) d n) ∨
      ∃ b, RoutineHolds l id (k + i) f b ∧ BodyAsks b n) := by
  induction fs generalizing k s with
  | nil =>
    cases h
    simp
  | cons f fs ih =>
    obtain ⟨first,hfirst,h⟩ := exists_of_bind_eq_ok h
    obtain ⟨rest,hrest,hs⟩ := exists_of_bind_eq_ok h
    cases hs
    have hgap : (if (decide (0 < k) || !c.vars.isEmpty) = true then Sheet.line 1 ""
        else {}).Asks n ↔ False := by
      split <;> simp
    rw [Sheet.asks_append, Sheet.asks_append, hgap, false_or, asks_routineSheet hfirst, ih hrest,
      exists_getElem?_cons (P := fun i f => (∃ d ∈ signatureTypes f, TypeAsks (tables l) d n) ∨
        ∃ b, RoutineHolds l id i f b ∧ BodyAsks b n)]

theorem mem_signatureTypes {d : TypeDesc} : d ∈ signatureTypes f ↔
    (∃ p ∈ f.parameters, p.ty = d) ∨ f.isConstructor = false ∧ f.effectiveReturnType? = some d := by
  unfold signatureTypes
  rw [List.mem_append, List.mem_map]
  cases f.isConstructor <;> simp

/-- The page of a class or a structure asks for what the class asks for. -/
theorem asks_classSheet {c : Class} (hclass : c.declaration ≠ .interface)
    (h : classSheet l id c = .ok s) : s.Asks n ↔ ClassAsks l id c n := by
  obtain ⟨fields,hvars,h⟩ := exists_of_bind_eq_ok h
  obtain ⟨routines,hroutines,hs⟩ := exists_of_bind_eq_ok h
  cases hs
  simp only [Sheet.asks_append, Sheet.asks_line, Sheet.asks_mention, asks_variableSheets hvars,
    asks_routineSheets hroutines, Nat.zero_add, or_false]
  constructor
  · rintro ((⟨name,hname,rfl⟩ | ⟨i,v,hv,hn | ⟨b,hb,hn⟩⟩) | ⟨i,f,hf,⟨d,hd,hn⟩ | ⟨b,hb,hn⟩⟩)
    · exact .extension hname
    · exact .type (.ofVariable (List.mem_of_getElem? hv)) hn
    · exact .body (.ofVariable hclass hv hb) hn
    · rcases mem_signatureTypes.mp hd with ⟨p,hp,rfl⟩ | ⟨hmethod,hd⟩
      · exact .type (.ofParameter (List.mem_of_getElem? hf) hp) hn
      · exact .type (.ofResult (List.mem_of_getElem? hf) (.inr hmethod) hd) hn
    · exact .body (.ofRoutine hclass hf hb) hn
  · rintro (hname | ⟨hd,hn⟩ | ⟨hb,hn⟩)
    · exact .inl (.inl ⟨_,hname,rfl⟩)
    · cases hd with
      | ofVariable hv =>
        obtain ⟨i,hi⟩ := List.mem_iff_getElem?.mp hv
        exact .inl (.inr ⟨i,_,hi,.inl hn⟩)
      | ofParameter hf hp =>
        obtain ⟨i,hi⟩ := List.mem_iff_getElem?.mp hf
        exact .inr ⟨i,_,hi,.inl ⟨_,mem_signatureTypes.mpr (.inl ⟨_,hp,rfl⟩),hn⟩⟩
      | ofResult hf hmethod hty =>
        obtain ⟨i,hi⟩ := List.mem_iff_getElem?.mp hf
        have hmethod := hmethod.resolve_left hclass
        exact .inr ⟨i,_,hi,.inl ⟨_,mem_signatureTypes.mpr (.inr ⟨hmethod,hty⟩),hn⟩⟩
    · cases hb with
      | ofVariable _ hv hb => exact .inl (.inr ⟨_,_,hv,.inr ⟨_,hb,hn⟩⟩)
      | ofRoutine _ hf hb => exact .inr ⟨_,_,hf,.inr ⟨_,hb,hn⟩⟩

theorem asks_interfaceSheet {c : Class} (hinterface : c.declaration = .interface) :
    (interfaceSheet (tables l) c).Asks n ↔ ClassAsks l id c n := by
  simp only [interfaceSheet, Sheet.asks_append, Sheet.asks_line, Sheet.asks_mention,
    Sheet.asks_concat, List.mem_map, exists_exists_and_eq_and, interfaceVariable, interfaceRoutine,
    Sheet.asks_uses, List.mem_singleton, exists_eq_left, or_false, List.mem_append,
    Option.mem_toList]
  constructor
  · rintro ((⟨name,hname,rfl⟩ | ⟨v,hv,hn⟩) | ⟨f,hf,d,⟨p,hp,rfl⟩ | hd,hn⟩)
    · exact .extension hname
    · exact .type (.ofVariable hv) hn
    · exact .type (.ofParameter hf hp) hn
    · exact .type (.ofResult hf (.inl hinterface) hd) hn
  · rintro (hname | ⟨hd,hn⟩ | ⟨hb,hn⟩)
    · exact .inl (.inl ⟨_,hname,rfl⟩)
    · cases hd with
      | ofVariable hv => exact .inl (.inr ⟨_,hv,hn⟩)
      | ofParameter hf hp => exact .inr ⟨_,hf,_,.inl ⟨_,hp,rfl⟩,hn⟩
      | ofResult hf _ hty => exact .inr ⟨_,hf,_,.inr hty,hn⟩
    · cases hb with
      | ofVariable hclass => exact absurd hinterface hclass
      | ofRoutine hclass => exact absurd hinterface hclass

end sheets

section header
variable {p : Program} {c : Class} {s : Sheet} {name text : String}

theorem references_concat (p : Program) (c : Class) (names : List String) (name : String) :
    references p c (names ++ [name]) =
      if name != c.name && (p.find? name).isSome && !(references p c names).contains name then
        references p c names ++ [name]
      else references p c names := by
  rw [references, List.foldl_append]
  rfl

theorem mem_references {names : List String} :
    name ∈ references p c names ↔ name ∈ names ∧ name ≠ c.name ∧ (p.find? name).isSome = true := by
  induction names using List.reverseRecOn with
  | nil => simp [references]
  | append_singleton names last ih =>
    have hmem : name ∈ names ++ [last] ↔ name ∈ names ∨ name = last := by simp
    rw [references_concat, hmem]
    split
    · next hlast =>
      simp only [Bool.and_eq_true, bne_iff_ne] at hlast
      rw [List.mem_append, ih, List.mem_singleton]
      constructor
      · rintro (⟨hname,hrest⟩ | rfl)
        · exact ⟨.inl hname,hrest⟩
        · exact ⟨.inr rfl,hlast.1⟩
      · rintro ⟨hname | rfl,hrest⟩
        · exact .inl ⟨hname,hrest⟩
        · exact .inr rfl
    · next hlast =>
      constructor
      · intro hname
        exact ⟨.inl (ih.mp hname).1,(ih.mp hname).2⟩
      · rintro ⟨hname | rfl,hrest⟩
        · exact ih.mpr ⟨hname,hrest⟩
        · simpa [hrest.1, hrest.2] using hlast

theorem nodup_references (p : Program) (c : Class) (names : List String) :
    (references p c names).Nodup := by
  induction names using List.reverseRecOn with
  | nil => exact .nil
  | append_singleton names last ih =>
    rw [references_concat]
    split
    · next hlast =>
      have hnew : last ∉ references p c names := by
        simp only [Bool.and_eq_true] at hlast
        simpa using hlast.2
      refine List.nodup_append.mpr ⟨ih,List.nodup_singleton last,?_⟩
      rintro name hname _ hlast rfl
      exact hnew (List.mem_singleton.mp hlast ▸ hname)
    · exact ih

theorem find?_isSome_iff : (p.find? name).isSome = true ↔ ∃ d ∈ p.classes, d.name = name := by
  simp [Program.find?]

theorem endLines_cons (line : String) (lines : List String) :
    endLines (line :: lines) = line ++ "\n" ++ endLines lines := by
  simp [endLines, String.join_cons]

theorem endLines_ne_empty {lines : List String} (h : lines ≠ []) : endLines lines ≠ "" := by
  cases lines with
  | nil => exact absurd rfl h
  | cons line lines =>
    rw [endLines_cons]
    intro hempty
    simpa using congrArg String.toList hempty

/-- Importing lines of a page: the imports that are asked for and those of the referenced classes,
each in increasing order. -/
theorem assemble_header (p : Program) (c : Class) (s : Sheet) :
    ∃ imports names : List String,
      imports.Pairwise (· < ·) ∧ (∀ text, text ∈ imports ↔ s.Asks (.line text)) ∧
      names.Pairwise (· < ·) ∧ names.Perm (assemble p c s).referenced ∧
      (assemble p c s).contents = endLines (imports ++ names.map importLine) ++
        (if imports = [] ∧ names = [] then "" else "\n") ++ endLines s.lines := by
  let imports := SortedSet.toList (SortedSet.addAll SortedMap.empty s.imports)
  let names := sortBy (fun a b => decide (a ≤ b)) (references p c s.mentions)
  have hperm : names.Perm (references p c s.mentions) := perm_sortBy _ _
  have hnames : names.Pairwise (· < ·) := by
    have hle := pairwise_sortBy (SortOrder.byName (@id String)) (references p c s.mentions)
    have hne := hperm.nodup_iff.mpr (nodup_references p c s.mentions)
    apply (hle.and hne).imp
    rintro a b ⟨hab,hne⟩
    exact String.not_le.mp fun hba => hne (String.le_antisymm (of_decide_eq_true hab) hba)
  have hblank : (if imports = [] ∧ names = [] then "" else "\n") =
      when (endLines (imports ++ names.map importLine) != "") "\n" := by
    split
    · next hempty =>
      rw [hempty.1, hempty.2]
      rfl
    · next hany =>
      have hlines : imports ++ names.map importLine ≠ [] := by simpa using hany
      simp [when, endLines_ne_empty hlines]
  refine ⟨imports,names,SortedSet.pairwise_toList _,?_,hnames,hperm,?_⟩
  · intro text
    rw [SortedSet.mem_addAll_iff]
    exact or_iff_left List.not_mem_nil
  · rw [hblank]
    rfl

end header

section declaration
variable {l : Lowering} {id : ClassId} {c : Class} {s : Sheet}

/-- The lines start with a declaration. -/
def Sheet.Declares (s : Sheet) : Prop := ∃ rest, endLines s.lines = "export " ++ rest

theorem Sheet.lines_append (a b : Sheet) : (a ++ b).lines = a.lines ++ b.lines := rfl

theorem Sheet.Declares.append {a : Sheet} (h : a.Declares) (b : Sheet) : (a ++ b).Declares := by
  obtain ⟨rest,hrest⟩ := h
  have happend : endLines (a ++ b).lines = endLines a.lines ++ endLines b.lines := by
    simp [endLines, lines_append, String.join_append]
  exact ⟨rest ++ endLines b.lines,by rw [happend, hrest, String.append_assoc]⟩

theorem declares_head (names : List String) (header : String) :
    (Sheet.mention names ++ Sheet.line 0 ("export " ++ header)).Declares := by
  have hne : ("export " ++ header == "") = false := by
    rw [beq_eq_false_iff_ne]
    intro hempty
    simpa using congrArg String.toList hempty
  have hline : (Sheet.mention names ++ Sheet.line 0 ("export " ++ header)).lines =
      ["export " ++ header] := by
    simp [Sheet.lines_append, Sheet.mention, Sheet.line, hne, Text.times]
  exact ⟨header ++ "\n" ++ endLines [],by
    rw [hline, endLines_cons, String.append_assoc, String.append_assoc, String.append_assoc]⟩

theorem declares_classSheet (h : classSheet l id c = .ok s) : s.Declares := by
  obtain ⟨fields,-,h⟩ := exists_of_bind_eq_ok h
  obtain ⟨routines,-,hs⟩ := exists_of_bind_eq_ok h
  cases hs
  have hheader : ∃ header, classHeader l.program c = "export " ++ header := by
    simp only [classHeader, String.append_assoc]
    exact ⟨_,rfl⟩
  obtain ⟨header,hheader⟩ := hheader
  rw [hheader]
  exact (((declares_head _ _).append _).append _).append _

theorem declares_interfaceSheet (t : TypeTables) (c : Class) : (interfaceSheet t c).Declares := by
  have hword (rest : String) :
      "export interface " ++ rest = "export " ++ ("interface " ++ rest) := by
    rw [← String.append_assoc]
    rfl
  simp only [interfaceSheet, String.append_assoc, hword]
  exact (((declares_head _ _).append _).append _).append _

end declaration

/-- A page that is no enumeration and no delegate comes from a sheet with the declaration and with
what the class asks for. -/
theorem exists_sheet_of_page {l : Lowering} {id : ClassId} {c : Class} {page : Page}
    (h : TypeScript.page l id c = .ok page) (henum : c.declaration ≠ .enumDecl)
    (hdelegate : c.declaration ≠ .delegate) :
    ∃ s : Sheet, page = assemble l.program c s ∧ s.Declares ∧
      ∀ n, s.Asks n ↔ ClassAsks l id c n := by
  unfold TypeScript.page at h
  dsimp only at h
  split at h
  · next heq => exact absurd heq henum
  · next heq => exact absurd heq hdelegate
  · next heq =>
    cases h
    exact ⟨_,rfl,declares_interfaceSheet _ c,fun n => asks_interfaceSheet heq⟩
  · next hclass =>
    obtain ⟨s,hs,h⟩ := exists_of_bind_eq_ok h
    cases h
    exact ⟨s,rfl,declares_classSheet hs,fun n => asks_classSheet hclass hs⟩

end TypeScript

namespace Target

/-- If some page cannot be written, there are no pages. -/
theorem pages_eq_error {t : Target} {l : Lowering} {k i : ClassId} {classes : List Class}
    {c : Class} {e : LowerError} (hc : classes[i]? = some c) (h : t.page l (k + i) c = .error e) :
    ∃ e, t.pages l k classes = .error e := by
  induction classes generalizing k i with
  | nil => cases hc
  | cons d classes ih =>
    unfold Target.pages
    cases i with
    | zero =>
      cases hc
      rw [show t.page l k c = .error e from h]
      exact ⟨e,rfl⟩
    | succ i =>
      have hrest : t.page l (k + 1 + i) c = .error e := by rwa [Nat.add_right_comm]
      obtain ⟨e,he⟩ := ih hc hrest
      cases hpage : t.page l k d with
      | error e => exact ⟨e,rfl⟩
      | ok page =>
        rw [he]
        exact ⟨e,rfl⟩

end Target

namespace TypeScript

/-- A class with a base, a list of another class, and a body that makes instances of a third one
and of a known one. -/
def kennel : Class where
  name := "Kennel"
  extensions := ["Shelter"]
  vars := [{
    name := "dogs"
    ty := { kind := .list, name := "List", genericArgs := [.object "Dog"] } }]
  routines := [{
    name := "Open"
    body := some (.expression (.objectCreation 0 (.named "Cat" [])
      [⟨.value,.objectCreation 0 (.named "Clock" []) [] none⟩] none)) }]

def kennels : Lowering where
  program := { classes := [{ name := "Cat" },{ name := "Dog" },kennel,{ name := "Shelter" }] }
  dialect := dialect
  known := .ofList [{ name := "Clock", target := "Time", importLine := some "import * as Time;" }]

/-- A session with a class that has no page. -/
def leaps : Session :=
  { Target.typescript.session {} with
    sources := [.parsed {
      name := "leaps"
      members := [.typeDecl { keyword := .classKind, name := "Leap" } [
        .method {
          name := "Run", returns := .predefined "void"
          body := some (.block [.other 0 "goto"]) }]] }] }

end TypeScript

end Recast
