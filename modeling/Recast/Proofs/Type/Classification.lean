import Mathlib.Logic.Relation
import Recast.Proofs.Output.Imports
import Recast.Proofs.Type.Tracking

/-! # What a classified type looks like

The kind of a node says how many arguments it has, so the form of a container always finds the
arguments that it takes. A qualifier plays no part in the classification, and both ways to write a
type that may be null give the same descriptor.
-/
namespace Recast

namespace SourceType

/-- A written type around a place for another one. -/
inductive Shell where
  | named (name : String) (before after : List SourceType)
  | qualified (qualifier name : String) (before after : List SourceType)
  | array (rank : UInt32)
  | nullable
  | tuple (before after : List SourceType)
  | param (before after : List SourceType) (returns : Option SourceType)
  | result (params : List SourceType)

def Shell.fill (ty : SourceType) : Shell → SourceType
  | .named name before after => .named name (before ++ ty :: after)
  | .qualified qualifier name before after => .qualified qualifier name (before ++ ty :: after)
  | .array rank => .array ty rank
  | .nullable => .nullable ty
  | .tuple before after => .tuple (before ++ ty :: after)
  | .param before after returns => .function (before ++ ty :: after) returns
  | .result params => .function params (some ty)

/-- The written type with `ty` inside all the shells, the first of which is the outermost. -/
def within (shells : List Shell) (ty : SourceType) : SourceType :=
  shells.foldr (fun shell inner => shell.fill inner) ty

/-- Somewhere in the type a qualifier is left out, or `Nullable<T>` is written as `T?`. -/
inductive Shortened : SourceType → SourceType → Prop where
  | qualifier (shells : List Shell) (qualifier name : String) (args : List SourceType) :
    Shortened (within shells (.qualified qualifier name args)) (within shells (.named name args))
  | nullable (shells : List Shell) (inner : SourceType) :
    Shortened (within shells (.named "Nullable" [inner])) (within shells (.nullable inner))

end SourceType

namespace TypeDesc
open SourceType (Shell within Shortened)

namespace Kind

/-- The kind of some keyword. -/
def isPrimitive (kind : Kind) : Bool := primitiveNames.any fun entry => entry.2 == kind

/-- What a kind says about the numbers of arguments and of generic arguments. -/
structure Admits (kind : Kind) (args generics : Nat) : Prop where
  sequence : kind = .array ∨ kind = .list → generics = 1
  dictionary : kind = .dictionary → generics = 2
  callback : kind = .callback → generics ≤ 1
  primitive : kind.isPrimitive = true → kind ≠ .object → generics = 0
  args : args ≠ 0 → kind = .callback

theorem admits_of_isPrimitive {kind : Kind} (h : kind.isPrimitive = true) : kind.Admits 0 0 := by
  cases kind with
  | unknown | enum | null | array | list | dictionary | tuple | callback => cases h
  | _ => constructor <;> simp

theorem mem_primitiveNames {name : String} {kind : Kind} (h : ofPrimitiveName? name = some kind) :
    (name, kind) ∈ primitiveNames := by
  obtain ⟨before, after, htable, -⟩ := List.lookup_eq_some_iff.mp h
  simp [htable]

theorem isPrimitive_of_name {name : String} {kind : Kind}
    (h : ofPrimitiveName? name = some kind) : kind.isPrimitive = true :=
  List.any_eq_true.mpr ⟨_, mem_primitiveNames h, beq_self_eq_true kind⟩

theorem admits_callback {args generics : Nat} (h : generics ≤ 1) :
    Kind.callback.Admits args generics where
  sequence := by simp
  dictionary := by simp
  callback _ := h
  primitive := by simp [isPrimitive, primitiveNames]
  args _ := rfl

theorem admits_object (generics : Nat) : Kind.object.Admits 0 generics := by
  constructor <;> simp

theorem admits_tuple (generics : Nat) : Kind.tuple.Admits 0 generics := by
  constructor <;> simp [isPrimitive, primitiveNames]

theorem admits_array : Kind.array.Admits 0 1 := by
  constructor <;> simp [isPrimitive, primitiveNames]

theorem admits_list : Kind.list.Admits 0 1 := by
  constructor <;> simp [isPrimitive, primitiveNames]

theorem admits_dictionary : Kind.dictionary.Admits 0 2 := by
  constructor <;> simp [isPrimitive, primitiveNames]

end Kind

/-- The numbers of arguments of a node are those that its kind admits. -/
def WellFormed (d : TypeDesc) : Prop := d.kind.Admits d.args.length d.genericArgs.length

/-- All nodes of a descriptor are well formed. -/
def WellFormedThroughout (d : TypeDesc) : Prop := ∀ x, NodeOf x d → x.WellFormed

namespace WellFormedThroughout
variable {d : TypeDesc}

theorem root (h : d.WellFormedThroughout) : d.WellFormed := h d .self

theorem arg (h : d.WellFormedThroughout) {e : TypeDesc} (he : e ∈ d.args) :
    e.WellFormedThroughout := fun x hx => h x (.arg he hx)

theorem generic (h : d.WellFormedThroughout) {e : TypeDesc} (he : e ∈ d.genericArgs) :
    e.WellFormedThroughout := fun x hx => h x (.generic he hx)

theorem node (hd : d.WellFormed) (hargs : ∀ e ∈ d.args, e.WellFormedThroughout)
    (hgenerics : ∀ e ∈ d.genericArgs, e.WellFormedThroughout) : d.WellFormedThroughout := by
  intro x hx
  cases hx with
  | self => exact hd
  | arg he hx => exact hargs _ he x hx
  | generic he hx => exact hgenerics _ he x hx

theorem nullable (h : d.WellFormedThroughout) :
    { d with nullable := true }.WellFormedThroughout :=
  node h.root (fun _ he => h.arg he) fun _ he => h.generic he

end WellFormedThroughout

/-! ## Names with arguments -/

/-- How a name arranges its arguments: the first ones are parameters, the others are generic
arguments, with some of its own behind them. -/
structure Layout where
  kind : Kind
  params : Nat := 0
  own : List TypeDesc := []

namespace Layout

def node (l : Layout) (name : String) (generics : List TypeDesc) : TypeDesc where
  kind := l.kind
  name := name
  args := generics.take l.params
  genericArgs := generics.drop l.params ++ l.own

/-- The kind of a name that is neither a callback nor a tuple. -/
def kindOf (name : String) (count : Nat) : Kind :=
  if listNames.contains name && count == 1 then .list
  else if dictionaryNames.contains name && count == 2 then .dictionary
  else .object

/-- The layout of a name with some number of arguments. -/
def ofName (name : String) (count : Nat) : Layout :=
  match count, Kind.ofPrimitiveName? name with
  | 0, some kind => { kind }
  | count, _ =>
    match name, count with
    | "Func", n + 1 => { kind := .callback, params := n }
    | "Action", _ => { kind := .callback, params := count }
    | "Predicate", _ =>
      { kind := .callback, params := count, own := [{ kind := .boolean, name := "bool" }] }
    | "Tuple", _ => { kind := .tuple }
    | "ValueTuple", _ => { kind := .tuple }
    | _, _ => { kind := kindOf name count }

theorem admits_kindOf (name : String) (count : Nat) : (kindOf name count).Admits 0 count := by
  unfold kindOf
  split
  · next h =>
    obtain rfl : count = 1 := eq_of_beq (Bool.and_eq_true_iff.mp h).2
    exact Kind.admits_list
  · split
    · next h =>
      obtain rfl : count = 2 := eq_of_beq (Bool.and_eq_true_iff.mp h).2
      exact Kind.admits_dictionary
    · exact Kind.admits_object count

theorem admits_ofName (name : String) (count : Nat) :
    (ofName name count).kind.Admits (min (ofName name count).params count)
      (count - (ofName name count).params + (ofName name count).own.length) := by
  unfold ofName
  split
  · next h => exact Kind.admits_of_isPrimitive (Kind.isPrimitive_of_name h)
  · split
    · exact Kind.admits_callback (by simp)
    · exact Kind.admits_callback (by simp)
    · exact Kind.admits_callback (by simp)
    · exact (Nat.zero_min _).symm ▸ Kind.admits_tuple _
    · exact (Nat.zero_min _).symm ▸ Kind.admits_tuple _
    · exact (Nat.zero_min _).symm ▸ admits_kindOf name _

theorem own_ofName (name : String) (count : Nat) :
    ∀ e ∈ (ofName name count).own, e.WellFormedThroughout := by
  have hbool : WellFormedThroughout { kind := .boolean, name := "bool" } :=
    .node (Kind.admits_of_isPrimitive rfl) (List.forall_mem_nil _) (List.forall_mem_nil _)
  unfold ofName
  split
  · exact List.forall_mem_nil _
  · split
    · exact List.forall_mem_nil _
    · exact List.forall_mem_nil _
    · exact List.forall_mem_singleton.mpr hbool
    · exact List.forall_mem_nil _
    · exact List.forall_mem_nil _
    · exact List.forall_mem_nil _

end Layout

theorem singleton_getLast_eq_drop (d : TypeDesc) (ds : List TypeDesc) :
    [(d :: ds).getLast (List.cons_ne_nil d ds)] = (d :: ds).drop ds.length := by
  have hlast := List.dropLast_append_getLast (List.cons_ne_nil d ds)
  have hdrop := List.take_append_drop ds.length (d :: ds)
  rw [List.dropLast_eq_take, List.length_cons, Nat.add_sub_cancel] at hlast
  exact List.append_cancel_left (hlast.trans hdrop.symm)

/-- A name with arguments is laid out by its name and their number alone, unless it stands for a
type that may be null. -/
theorem ofName_eq_node {name : String} {generics : List TypeDesc}
    (h : ¬ (name = "Nullable" ∧ generics.length = 1)) :
    ofName name generics = (Layout.ofName name generics.length).node name generics := by
  unfold ofName Layout.ofName Layout.kindOf
  cases generics with
  | nil =>
    cases Kind.ofPrimitiveName? name with
    | some kind => rfl
    | none =>
      dsimp only
      split <;> simp_all [Layout.node]
  | cons g gs =>
    dsimp only
    split
    · next heq => exact absurd ⟨rfl, congrArg List.length heq⟩ h
    · next heq =>
      cases heq
      simp [Layout.node, singleton_getLast_eq_drop, List.dropLast_eq_take]
    all_goals simp_all [Layout.node]
    split
    · next hlist => rw [hlist.2]
    · split <;> rfl

theorem ofName_nullable (d : TypeDesc) : ofName "Nullable" [d] = { d with nullable := true } := rfl

theorem wellFormedThroughout_ofName (name : String) {generics : List TypeDesc}
    (h : ∀ e ∈ generics, e.WellFormedThroughout) : (ofName name generics).WellFormedThroughout := by
  by_cases hnull : name = "Nullable" ∧ generics.length = 1
  · obtain ⟨rfl, hlength⟩ := hnull
    obtain ⟨d, rfl⟩ := List.length_eq_one_iff.mp hlength
    rw [ofName_nullable]
    exact (h d (List.mem_singleton_self d)).nullable
  · rw [ofName_eq_node hnull]
    refine .node ?_ (fun e he => h e (List.mem_of_mem_take he)) fun e he => ?_
    · have hadmits := Layout.admits_ofName name generics.length
      simpa [WellFormed, Layout.node] using hadmits
    · rcases List.mem_append.mp he with he | he
      · exact h e (List.mem_of_mem_drop he)
      · exact Layout.own_ofName name _ e he

/-! ## Written types -/

theorem ofTypes_eq_map (tys : List SourceType) : ofTypes tys = tys.map ofType := by
  induction tys with
  | nil => rfl
  | cons ty tys ih => rw [ofTypes, ih, List.map_cons]

theorem wellFormedThroughout_arrays {d : TypeDesc} (h : d.WellFormedThroughout) (n : Nat) :
    (arrays n d).WellFormedThroughout := by
  induction n with
  | zero => exact h
  | succ n ih =>
    exact .node Kind.admits_array (List.forall_mem_nil _) (List.forall_mem_singleton.mpr ih)

mutual

theorem wellFormedThroughout_ofType : ∀ ty : SourceType, (ofType ty).WellFormedThroughout
  | .predefined name => by
    refine .node ?_ (List.forall_mem_nil _) (List.forall_mem_nil _)
    change ((Kind.ofPrimitiveName? name).getD .object).Admits 0 0
    cases h : Kind.ofPrimitiveName? name with
    | none => exact Kind.admits_object 0
    | some kind => exact Kind.admits_of_isPrimitive (Kind.isPrimitive_of_name h)
  | .named name args => wellFormedThroughout_ofName name (wellFormedThroughout_ofTypes args)
  | .qualified _ name args => wellFormedThroughout_ofName name (wellFormedThroughout_ofTypes args)
  | .array element _ => wellFormedThroughout_arrays (wellFormedThroughout_ofType element) _
  | .nullable inner => (wellFormedThroughout_ofType inner).nullable
  | .tuple elements =>
    .node (Kind.admits_tuple _) (List.forall_mem_nil _) (wellFormedThroughout_ofTypes elements)
  | .function params none =>
    .node (Kind.admits_callback (Nat.zero_le 1)) (wellFormedThroughout_ofTypes params)
      (List.forall_mem_nil _)
  | .function params (some ty) => by
    have hresult := wellFormedThroughout_ofType ty
    refine .node (Kind.admits_callback (List.length_filter_le _ _))
      (wellFormedThroughout_ofTypes params) fun e he => ?_
    have hmem : e ∈ [ofType ty].filter fun d => !d.isVoid := he
    obtain rfl := List.mem_singleton.mp (List.mem_of_mem_filter hmem)
    exact hresult

theorem wellFormedThroughout_ofTypes :
    ∀ tys : List SourceType, ∀ e ∈ ofTypes tys, e.WellFormedThroughout
  | [] => List.forall_mem_nil _
  | ty :: tys => List.forall_mem_cons.mpr
    ⟨wellFormedThroughout_ofType ty, wellFormedThroughout_ofTypes tys⟩

end

/-- What stands at a place counts only through its descriptor. -/
theorem ofType_fill (shell : Shell) {a b : SourceType} (h : ofType a = ofType b) :
    ofType (shell.fill a) = ofType (shell.fill b) := by
  cases shell with
  | param before after returns => cases returns <;> simp [Shell.fill, ofType, ofTypes_eq_map, h]
  | _ => simp [Shell.fill, ofType, ofTypes_eq_map, h]

theorem ofType_within (shells : List Shell) {a b : SourceType} (h : ofType a = ofType b) :
    ofType (within shells a) = ofType (within shells b) := by
  induction shells with
  | nil => exact h
  | cons shell shells ih => exact ofType_fill shell ih

theorem ofType_shortened {ty ty' : SourceType} (h : Shortened ty ty') : ofType ty' = ofType ty := by
  cases h with
  | qualifier shells qualifier name args => exact ofType_within shells rfl
  | nullable shells inner => exact ofType_within shells rfl

end TypeDesc

/-- The tables of a target as it comes. -/
def Target.tables (t : Target) : TypeTables := ⟨t.primitives, t.known, t.dialect.types⟩

/-! ## Missing arguments -/

namespace TypeTables
variable (t : TypeTables)

/-- The spelling of a node, if a container has all the arguments that its form takes. -/
def spellNode? (kind : TypeDesc.Kind) (name : String) (args generics : List Spelling) :
    Option Spelling :=
  match kind with
  | .array => do
    let element ← generics[0]?
    return ⟨t.forms.array element.text, element.imports⟩
  | .list => do
    let element ← generics[0]?
    return ⟨t.forms.list element.text, element.imports⟩
  | .dictionary => do
    let key ← generics[0]?
    let value ← generics[1]?
    return ⟨t.forms.dictionary key.text value.text, key.imports ++ value.imports⟩
  | _ => some (t.spellNode kind name args generics)

mutual

/-- The spelling of a descriptor, if no argument of a container is missing in it. -/
def spell? (t : TypeTables) : TypeDesc → Option Spelling
  | ⟨kind, name, args, generics, nullable⟩ => do
    let bare ← t.spellNode? kind name (← spells? t args) (← spells? t generics)
    return if nullable then { bare with text := t.forms.nullable bare.text } else bare

def spells? (t : TypeTables) : List TypeDesc → Option (List Spelling)
  | [] => some []
  | d :: ds => do return (← spell? t d) :: (← spells? t ds)

end

variable {t} {d : TypeDesc}

theorem spells?_eq {ds : List TypeDesc} (h : ∀ e ∈ ds, t.spell? e = some (t.spell e)) :
    t.spells? ds = some (ds.map t.spell) := by
  induction ds with
  | nil => rfl
  | cons d ds ih =>
    obtain ⟨hd, hds⟩ := List.forall_mem_cons.mp h
    rw [spells?, hd, ih hds]
    rfl

theorem spellNode?_eq (h : d.WellFormed) (args : List Spelling) :
    t.spellNode? d.kind d.name args (d.genericArgs.map t.spell) =
      some (t.spellNode d.kind d.name args (d.genericArgs.map t.spell)) := by
  obtain ⟨kind, name, params, generics, nullable⟩ := d
  cases kind with
  | array | list =>
    obtain ⟨e, rfl⟩ := List.length_eq_one_iff.mp (h.sequence (by simp))
    rfl
  | dictionary =>
    obtain ⟨key, value, rfl⟩ := List.length_eq_two.mp (h.dictionary rfl)
    rfl
  | _ => rfl

theorem spell?_eq (h : d.WellFormedThroughout) : t.spell? d = some (t.spell d) := by
  induction d using TypeDesc.induction with
  | step d hargs hgenerics =>
    have hnode := t.spellNode?_eq h.root (d.args.map t.spell)
    have hspelled := spells?_eq fun e he => hargs e he (h.arg he)
    have hspelled' := spells?_eq fun e he => hgenerics e he (h.generic he)
    obtain ⟨kind, name, args, generics, nullable⟩ := d
    rw [spell?, hspelled, hspelled']
    simp only [Option.bind_eq_bind, Option.bind_some]
    rw [hnode, spell_eq]
    rfl

end TypeTables

namespace TypeDesc
open SourceType (Shortened)

/-- Each node of a classified type has the arguments that its kind asks for, so no container is
spelled with an argument missing, and shortening the written type does not change its
descriptor. -/
theorem ofType_classifies (ty : SourceType) :
    (∀ x, NodeOf x (ofType ty) → x.WellFormed) ∧
    (∀ t : TypeTables, t.spell? (ofType ty) = some (t.spell (ofType ty))) ∧
    ∀ ty', Relation.ReflTransGen Shortened ty ty' → ofType ty' = ofType ty := by
  refine ⟨wellFormedThroughout_ofType ty,
    fun t => TypeTables.spell?_eq (wellFormedThroughout_ofType ty), fun ty' h => ?_⟩
  induction h with
  | refl => rfl
  | tail _ hstep ih => exact (ofType_shortened hstep).trans ih

/-- The scores of each name, of which some are missing. -/
def scores : SourceType :=
  .qualified "System.Collections.Generic" "Dictionary"
    [.predefined "string", .array (.qualified "System" "Nullable" [.predefined "int"]) 1]

def shortScores : SourceType :=
  .named "Dictionary" [.predefined "string", .array (.nullable (.predefined "int")) 1]

/-- Both qualifiers are left out, and the type that may be null is written with a mark. -/
theorem scores_shortened : Relation.ReflTransGen Shortened scores shortScores := by
  have houter : Shortened scores (.named "Dictionary" _) := .qualifier [] _ _ _
  have hinner := Shortened.qualifier [.named "Dictionary" [.predefined "string"] [], .array 1]
    "System" "Nullable" [.predefined "int"]
  have hmark := Shortened.nullable [.named "Dictionary" [.predefined "string"] [], .array 1]
    (.predefined "int")
  exact ((Relation.ReflTransGen.single houter).tail hinner).tail hmark

theorem scores_classified :
    (∃ x, NodeOf x (ofType scores) ∧ x.kind = .int32 ∧ x.WellFormed) ∧
    Target.typescript.tables.spell? (ofType scores) =
      some ⟨"Map<string, (number | null)[]>", []⟩ ∧
    ofType shortScores = ofType scores := by
  obtain ⟨hnodes, hspell, hshort⟩ := ofType_classifies scores
  have hnode : NodeOf { kind := .int32, name := "int", nullable := true } (ofType scores) :=
    .generic (.tail _ (.head _)) (.generic (.head _) .self)
  refine ⟨⟨_, hnode, rfl, hnodes _ hnode⟩, ?_, hshort _ scores_shortened⟩
  rw [hspell]
  decide

end TypeDesc

end Recast
