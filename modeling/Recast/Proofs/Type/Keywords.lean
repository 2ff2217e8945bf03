import Recast.Proofs.Type.Assembly
import Recast.Proofs.Type.Classification

/-! # Keywords and framework names

A primitive type has a keyword and a framework name, which are classified alike. The table of the
dialect has all keywords but only two of the framework names, so the text of a type shows which one
was written. A place hides its type if the text there does not depend on it.
-/
namespace Recast

namespace SourceType

inductive IsName (name : String) : SourceType → Prop where
  | predefined : IsName name (.predefined name)
  | named : IsName name (.named name [])
  | qualified (qualifier : String) : IsName name (.qualified qualifier name [])

/-- The type inside the shell is not spelled. -/
def Shell.hides (inner : SourceType) : Shell → Bool
  | .named name _ _ => name == ""
  | .qualified _ name _ _ => name == ""
  | .result _ => (TypeDesc.ofType inner).isVoid
  | _ => false

/-- One of the shells hides what is inside it. -/
def isHidden (ty : SourceType) : List Shell → Bool
  | [] => false
  | shell :: shells => shell.hides (within shells ty) || isHidden ty shells

end SourceType

namespace TypeDesc.Kind

/-- A framework name and a keyword of one kind. Keywords are written in small letters. -/
structure Respells (framework keyword : String) : Prop where
  primitive : (ofPrimitiveName? framework).isSome = true
  same : ofPrimitiveName? keyword = ofPrimitiveName? framework
  upper : framework.front.isUpper = true
  lower : keyword.front.isLower = true

end TypeDesc.Kind

namespace TypeScript
open SourceType (Shell within isHidden IsName)
open TypeDesc (ofType ofTypes_eq_map Layout)
open TypeDesc.Kind (Respells primitiveNames ofPrimitiveName? mem_primitiveNames isPrimitive_of_name)

section
variable {t : TypeTables} {d d' e e' : TypeDesc} {u v : List Char}

variable (t) in
/-- The descriptors differ at most in one part of the text: where one has `u`, the other has `v`. -/
structure Differ (u v : List Char) (d d' : TypeDesc) : Prop where
  kind : d.kind = d'.kind
  nullable : d.nullable = d'.nullable
  bare : ∃ left right, bareChars t d = left ++ u ++ right ∧ bareChars t d' = left ++ v ++ right

theorem Differ.refl (d : TypeDesc) : Differ t [] [] d d :=
  ⟨rfl, rfl, bareChars t d, [], by simp, by simp⟩

theorem Differ.chars (ht : t.forms = forms) (h : Differ t u v d d') :
    ∃ left right, chars t d = left ++ u ++ right ∧ TypeScript.chars t d' = left ++ v ++ right := by
  obtain ⟨left, right, hbare, hbare'⟩ := h.bare
  refine ⟨left, right ++ if d.nullable then " | null".toList else [], ?_, ?_⟩
  · rw [chars_eq ht, hbare, List.append_assoc]
  · rw [chars_eq ht, hbare', ← h.nullable, List.append_assoc]

theorem Differ.of_nullable (h : Differ t u v d d') :
    Differ t u v { d with nullable := true } { d' with nullable := true } :=
  ⟨h.kind, rfl, h.bare⟩

theorem assembly_congr (hkind : d.kind = d'.kind) (hname : d.name = d'.name)
    (hargs : d.args.length = d'.args.length)
    (hgenerics : d.genericArgs.length = d'.genericArgs.length) :
    assembly t d = assembly t d' := by
  simp only [assembly, hkind, hname, hargs, hgenerics]

/-- Texts without blanks in one place of a node, with all other arguments the same. -/
theorem Differ.node (ht : t.forms = forms) (hu : ' ' ∉ u) (hv : ' ' ∉ v) (h : Differ t u v e e')
    (hkind : d.kind = d'.kind) (hnull : d.nullable = d'.nullable)
    (hassembly : assembly t d = assembly t d') (before after : List TypeDesc)
    (hargs : t.spelledArgs d = before ++ e :: after)
    (hargs' : t.spelledArgs d' = before ++ e' :: after) : Differ t u v d d' := by
  refine ⟨hkind, hnull, ?_⟩
  obtain ⟨left, right, hold, hnew⟩ := h.chars ht
  have harity : (assembly t d).arity =
      (before.map (TypeScript.chars t)).length + (after.map (TypeScript.chars t)).length + 1 := by
    rw [arity_assembly, hargs]
    simp
    omega
  -- Both texts have a blank or neither has one, so an array treats them alike.
  obtain ⟨first, last, hframe⟩ :=
    (assembly t d).exists_frame harity ((left ++ right).contains ' ')
  have hd := hframe (left ++ u ++ right) (by simp [hu])
  have hd' := hframe (left ++ v ++ right) (by simp [hv])
  refine ⟨first ++ left, right ++ last, ?_, ?_⟩
  · rw [bareChars_eq ht, hargs, List.map_append, List.map_cons, hold, hd]
    simp
  · rw [bareChars_eq ht, ← hassembly, hargs', List.map_append, List.map_cons, hnew, hd']
    simp

theorem Differ.arrays (ht : t.forms = forms) (hu : ' ' ∉ u) (hv : ' ' ∉ v)
    (h : Differ t u v d d') (n : Nat) :
    Differ t u v (TypeDesc.arrays n d) (TypeDesc.arrays n d') := by
  induction n with
  | zero => exact h
  | succ n ih => exact ih.node ht hu hv rfl rfl rfl [] [] rfl rfl

theorem spelledArgs_kindOf {name : String} (hname : name ≠ "") {generics : List TypeDesc}
    (hne : generics ≠ []) :
    t.spelledArgs { kind := Layout.kindOf name generics.length, name, genericArgs := generics } =
      generics := by
  unfold Layout.kindOf
  split
  · next h =>
    have hlength : generics.length = 1 := eq_of_beq (Bool.and_eq_true_iff.mp h).2
    exact List.take_of_length_le (Nat.le_of_eq hlength)
  · split
    · next h =>
      have hlength : generics.length = 2 := eq_of_beq (Bool.and_eq_true_iff.mp h).2
      exact List.take_of_length_le (Nat.le_of_eq hlength)
    · rw [TypeTables.spelledArgs_of_goesByName rfl, if_pos]
      simp [TypeTables.looksUp, TypeTables.isPrimitive, TypeDesc.goesByName,
        TypeDesc.Kind.isContainer, hne, hname]

/-- All arguments of a name are spelled. -/
theorem spelledArgs_layout {name : String} (hname : name ≠ "") {generics : List TypeDesc}
    (hne : generics ≠ []) {count : Nat} (hcount : generics.length = count) :
    t.spelledArgs ((Layout.ofName name count).node name generics) =
      generics ++ (Layout.ofName name count).own := by
  unfold Layout.ofName
  split
  · exact absurd (List.eq_nil_of_length_eq_zero hcount) hne
  · split
    · simp [TypeTables.spelledArgs, Layout.node, List.take_of_length_le, hcount]
    · simp [TypeTables.spelledArgs, Layout.node, ← hcount]
    · simp [TypeTables.spelledArgs, Layout.node, ← hcount]
    · rfl
    · rfl
    · simpa [Layout.node, ← hcount] using spelledArgs_kindOf hname hne

theorem Differ.ofName (ht : t.forms = forms) (hu : ' ' ∉ u) (hv : ' ' ∉ v) (h : Differ t u v e e')
    {name : String} (hname : name ≠ "") (before after : List TypeDesc) :
    Differ t u v (TypeDesc.ofName name (before ++ e :: after))
      (TypeDesc.ofName name (before ++ e' :: after)) := by
  have hlength : (before ++ e' :: after).length = (before ++ e :: after).length := by simp
  by_cases hnull : name = "Nullable" ∧ (before ++ e :: after).length = 1
  · obtain ⟨rfl, hone⟩ := hnull
    rw [List.length_append, List.length_cons] at hone
    obtain rfl : before = [] := List.eq_nil_of_length_eq_zero (by omega)
    obtain rfl : after = [] := List.eq_nil_of_length_eq_zero (by omega)
    exact h.of_nullable
  · have hnull' : ¬(name = "Nullable" ∧ (before ++ e' :: after).length = 1) := hlength ▸ hnull
    rw [TypeDesc.ofName_eq_node hnull, TypeDesc.ofName_eq_node hnull', hlength]
    refine h.node ht hu hv rfl rfl (assembly_congr rfl rfl ?_ ?_) before
      (after ++ (Layout.ofName name (before ++ e :: after).length).own) ?_ ?_
    · simp [Layout.node]
    · simp [Layout.node]
    · rw [spelledArgs_layout hname (by simp) rfl]
      simp
    · rw [spelledArgs_layout hname (by simp) hlength]
      simp

theorem bareChars_unnamed (ht : t.forms = forms) {generics : List TypeDesc} (hne : generics ≠ []) :
    bareChars t (TypeDesc.ofName "" generics) = "any".toList := by
  have hnode : TypeDesc.ofName "" generics =
      { kind := .object, name := "", genericArgs := generics } := by
    cases generics with
    | nil => exact absurd rfl hne
    | cons g gs => rfl
  rw [hnode, bareChars_eq ht, assembly_of_goesByName rfl]
  simp [hne, Assembly.chars, TypeTables.spelledArgs, TypeTables.looksUp]

/-- A type of no name is written without its arguments. -/
theorem differ_unnamed (ht : t.forms = forms) (before after : List TypeDesc) :
    Differ t [] [] (TypeDesc.ofName "" (before ++ e :: after))
      (TypeDesc.ofName "" (before ++ e' :: after)) := by
  have hname (d : TypeDesc) : (TypeDesc.ofName "" (before ++ d :: after)).kind = .object ∧
      (TypeDesc.ofName "" (before ++ d :: after)).nullable = false := by
    cases before <;> exact ⟨rfl, rfl⟩
  refine ⟨(hname e).1.trans (hname e').1.symm, (hname e).2.trans (hname e').2.symm,
    "any".toList, [], ?_, ?_⟩
  · simp [bareChars_unnamed ht]
  · simp [bareChars_unnamed ht]

variable {a b : SourceType}

theorem Differ.fill (ht : t.forms = forms) (hu : ' ' ∉ u) (hv : ' ' ∉ v)
    (h : Differ t u v (ofType a) (ofType b)) {shell : Shell} (hshell : shell.hides a = false) :
    Differ t u v (ofType (shell.fill a)) (ofType (shell.fill b)) := by
  cases shell with
  | named name before after =>
    simp only [Shell.fill, ofType, ofTypes_eq_map, List.map_append, List.map_cons]
    exact h.ofName ht hu hv (by simpa [Shell.hides] using hshell) _ _
  | qualified qualifier name before after =>
    simp only [Shell.fill, ofType, ofTypes_eq_map, List.map_append, List.map_cons]
    exact h.ofName ht hu hv (by simpa [Shell.hides] using hshell) _ _
  | array rank => exact h.arrays ht hu hv _
  | nullable => exact h.of_nullable
  | tuple before after =>
    refine h.node ht hu hv rfl rfl (assembly_congr rfl rfl rfl ?_) (before.map ofType)
      (after.map ofType) ?_ ?_
    all_goals simp [Shell.fill, ofType, ofTypes_eq_map, TypeTables.spelledArgs]
  | param before after returns =>
    have hparam (x : SourceType) : ofType ((Shell.param before after returns).fill x) =
        { kind := .callback, name := "Callback"
          args := before.map ofType ++ ofType x :: after.map ofType
          genericArgs := (ofType (.function [] returns)).genericArgs } := by
      cases returns <;> simp [Shell.fill, ofType, ofTypes_eq_map]
    rw [hparam, hparam]
    refine h.node ht hu hv rfl rfl (assembly_congr rfl rfl (by simp) rfl) (before.map ofType)
      (after.map ofType ++ (ofType (.function [] returns)).genericArgs.take 1) ?_ ?_
    all_goals simp [TypeTables.spelledArgs]
  | result params =>
    have hvoid : (ofType a).isVoid = false := hshell
    have hvoid' : (ofType b).isVoid = false := by rwa [TypeDesc.isVoid, ← h.kind]
    have hresult {x : SourceType} (hx : (ofType x).isVoid = false) :
        ofType ((Shell.result params).fill x) =
          { kind := .callback, name := "Callback", args := params.map ofType
            genericArgs := [ofType x] } := by
      simp [Shell.fill, ofType, ofTypes_eq_map, hx]
    rw [hresult hvoid, hresult hvoid']
    exact h.node ht hu hv rfl rfl rfl (params.map ofType) [] rfl rfl

theorem Differ.of_hides (ht : t.forms = forms) (h : Differ t u v (ofType a) (ofType b))
    {shell : Shell} (hshell : shell.hides a = true) :
    Differ t [] [] (ofType (shell.fill a)) (ofType (shell.fill b)) := by
  cases shell with
  | named name before after =>
    obtain rfl : name = "" := eq_of_beq hshell
    simp only [Shell.fill, ofType, ofTypes_eq_map, List.map_append, List.map_cons]
    exact differ_unnamed ht _ _
  | qualified qualifier name before after =>
    obtain rfl : name = "" := eq_of_beq hshell
    simp only [Shell.fill, ofType, ofTypes_eq_map, List.map_append, List.map_cons]
    exact differ_unnamed ht _ _
  | result params =>
    have hvoid : (ofType a).isVoid = true := hshell
    have hvoid' : (ofType b).isVoid = true := by rwa [TypeDesc.isVoid, ← h.kind]
    have heq : ofType ((Shell.result params).fill a) = ofType ((Shell.result params).fill b) := by
      simp [Shell.fill, ofType, hvoid, hvoid']
    exact heq ▸ .refl _
  | array | nullable | tuple | param => cases hshell

/-- The text of what stands at a place is found in that of the whole type, unless it is hidden. -/
theorem Differ.within (ht : t.forms = forms) (hu : ' ' ∉ u) (hv : ' ' ∉ v)
    (h : Differ t u v (ofType a) (ofType b)) (shells : List Shell) :
    Differ t (if isHidden a shells then [] else u) (if isHidden a shells then [] else v)
      (ofType (within shells a)) (ofType (within shells b)) := by
  induction shells with
  | nil => exact h
  | cons shell shells ih =>
    cases hshell : shell.hides (SourceType.within shells a) with
    | true =>
      have hhidden : isHidden a (shell :: shells) = true := by simp [isHidden, hshell]
      rw [hhidden]
      exact ih.of_hides ht hshell
    | false =>
      have hhidden : isHidden a (shell :: shells) = isHidden a shells := by simp [isHidden, hshell]
      rw [hhidden]
      refine ih.fill ht ?_ ?_ hshell
      · split <;> simp [hu]
      · split <;> simp [hv]

end

/-! ## The table of the dialect -/

def nameText (name : String) : String := (Target.typescript.tables.spellName name []).text

theorem nameText_eq_iff : ∀ p ∈ primitiveNames, ∀ q ∈ primitiveNames, q.2 = p.2 →
    p.1.front.isUpper = true → q.1.front.isLower = true →
      (nameText p.1 = nameText q.1 ↔ p.1 = "String" ∨ p.1 = "Object") := by
  decide

theorem blank_notMem_nameText : ∀ p ∈ primitiveNames, ' ' ∉ (nameText p.1).toList := by
  decide

theorem ofType_isName {name : String} {ty : SourceType} (h : IsName name ty)
    {kind : TypeDesc.Kind} (hkind : ofPrimitiveName? name = some kind) :
    ofType ty = { kind, name } := by
  cases h with
  | predefined => simp [ofType, hkind]
  | named => simp [ofType, TypeDesc.ofTypes, TypeDesc.ofName, hkind]
  | qualified qualifier => simp [ofType, TypeDesc.ofTypes, TypeDesc.ofName, hkind]

theorem bareChars_primitive {t : TypeTables} {name : String} {kind : TypeDesc.Kind}
    (h : kind.isPrimitive = true) :
    bareChars t { kind, name } = (t.spellName name []).text.toList := by
  cases kind with
  | unknown | enum | null | array | list | dictionary | tuple | callback => cases h
  | _ => rfl

def SameText (a b : SourceType) : Prop :=
  (Target.typescript.tables.spell (ofType a)).text =
    (Target.typescript.tables.spell (ofType b)).text

instance (a b : SourceType) : Decidable (SameText a b) := inferInstanceAs (Decidable (_ = _))

/-- Anywhere in a type a framework name can be written for a keyword only if it is one of the two
that the table has, or if it is not spelled at all. -/
theorem sameText_respelled_iff {framework keyword : String}
    (h : Respells framework keyword) {a b : SourceType} (ha : IsName framework a)
    (hb : IsName keyword b) (shells : List Shell) :
    SameText (within shells a) (within shells b) ↔
      framework = "String" ∨ framework = "Object" ∨ isHidden a shells = true := by
  obtain ⟨kind, hkind⟩ := Option.isSome_iff_exists.mp h.primitive
  have hkind' := h.same.trans hkind
  have hmem := mem_primitiveNames hkind
  have hmem' := mem_primitiveNames hkind'
  have hprimitive := isPrimitive_of_name hkind
  have hdiffer : Differ Target.typescript.tables (nameText framework).toList
      (nameText keyword).toList (ofType a) (ofType b) := by
    rw [ofType_isName ha hkind, ofType_isName hb hkind']
    refine ⟨rfl, rfl, [], [], ?_, ?_⟩
    · simp [bareChars_primitive hprimitive, nameText]
    · simp [bareChars_primitive hprimitive, nameText]
  have hwithin := hdiffer.within rfl (blank_notMem_nameText _ hmem)
    (blank_notMem_nameText _ hmem') shells
  obtain ⟨left, right, htext, htext'⟩ := hwithin.chars rfl
  have hpair := nameText_eq_iff _ hmem _ hmem' rfl h.upper h.lower
  unfold SameText
  rw [← String.toList_inj, ← chars, ← chars, htext, htext', List.append_left_inj,
    List.append_right_inj, ← or_assoc, ← hpair]
  cases isHidden a shells <;> simp [String.toList_inj]

/-- The place of the keys in a table that may be null. -/
def keyPlace : List Shell := [.nullable, .named "Dictionary" [] [.array (.predefined "bool") 1]]

/-- A key type may be called `String`, but not `Int32`. -/
theorem keys_sameText :
    Respells "String" "string" ∧ Respells "Int32" "int" ∧
    SameText (within keyPlace (.qualified "System" "String" []))
      (within keyPlace (.predefined "string")) ∧
    ¬SameText (within keyPlace (.named "Int32" [])) (within keyPlace (.predefined "int")) := by
  have hstring : Respells "String" "string" := by constructor <;> decide
  have hint : Respells "Int32" "int" := by constructor <;> decide
  refine ⟨hstring, hint, ?_, ?_⟩
  · rw [sameText_respelled_iff hstring (.qualified _) .predefined]
    exact .inl rfl
  · rw [sameText_respelled_iff hint .named .predefined]
    decide

theorem int32_not_sameText :
    ofPrimitiveName? "Int32" = ofPrimitiveName? "int" ∧
    ¬SameText (.named "Int32" []) (.predefined "int") := by
  decide

end TypeScript

end Recast
