import Mathlib.Data.List.Induction
import Recast.Program.Naming

/-! # What naming reads and what it leaves alone

Naming a class reads the names, forms and extensions of all classes and the signatures of their
routines, and it changes none of them. So every class gets the names that the program as it was at
the start gives it, whichever classes were named before.
-/
namespace Recast

/-- What naming reads of a routine: its name, whether it is a constructor, its arity. -/
def Routine.signature (f : Routine) : String × Bool × Nat := (f.name, f.isConstructor, f.arity)

/-- What naming reads of a class. -/
structure Outline where
  name : String
  declaration : Declaration
  extensions : List String
  signatures : List (String × Bool × Nat)

def Class.outline (c : Class) : Outline :=
  ⟨c.name, c.declaration, c.extensions, c.routines.map Routine.signature⟩

namespace Routine

theorem signature_eq_iff {f g : Routine} : f.signature = g.signature ↔
    f.name = g.name ∧ f.isConstructor = g.isConstructor ∧ f.arity = g.arity := by
  simp [signature]

section rename
variable (f : Routine) (name : String)

@[simp] theorem signature_rename : (f.rename name).signature = f.signature := rfl
@[simp] theorem name_rename : (f.rename name).name = f.name := rfl
@[simp] theorem remap_rename : (f.rename name).remap = some name := rfl
@[simp] theorem emittedName_rename : (f.rename name).emittedName = name := rfl
@[simp] theorem isConstructor_rename : (f.rename name).isConstructor = f.isConstructor := rfl
@[simp] theorem isInstanceConstructor_rename :
    (f.rename name).isInstanceConstructor = f.isInstanceConstructor := rfl
@[simp] theorem conflicts_rename (inherited : List Routine) :
    conflicts inherited (f.rename name) = conflicts inherited f := rfl

end rename

/-- A routine without its final name. -/
def unnamed (f : Routine) : Routine := { f with remap := none }

@[simp] theorem unnamed_rename (f : Routine) (name : String) :
    (f.rename name).unnamed = f.unnamed := rfl

theorem map_unnamed_numberConstructors (n : Nat) (fs : List Routine) :
    (numberConstructors n fs).map unnamed = fs.map unnamed := by
  induction fs generalizing n with
  | nil => rfl
  | cons f fs ih =>
    simp only [numberConstructors]
    split <;> simp [ih]

theorem map_unnamed_nameConstructors (fs : List Routine) :
    (nameConstructors fs).map unnamed = fs.map unnamed := by
  unfold nameConstructors
  split
  · rfl
  · exact map_unnamed_numberConstructors 1 fs

theorem map_unnamed_nameOverloads (earlier : List String) (fs : List Routine) :
    (nameOverloads earlier fs).map unnamed = fs.map unnamed := by
  induction fs generalizing earlier with
  | nil => rfl
  | cons f fs ih =>
    simp only [nameOverloads]
    split
    · simp [ih]
    · split <;> simp [ih]

theorem map_unnamed_nameConflicts (inherited : List Routine) (n : Nat) (fs : List Routine) :
    (nameConflicts inherited n fs).map unnamed = fs.map unnamed := by
  induction fs generalizing n with
  | nil => rfl
  | cons f fs ih =>
    simp only [nameConflicts]
    split <;> simp [ih]

/-- A signature has nothing to do with the final name. -/
theorem map_signature_congr {fs gs : List Routine} (h : gs.map unnamed = fs.map unnamed) :
    gs.map signature = fs.map signature := by
  have hsig (fs : List Routine) : fs.map signature = (fs.map unnamed).map signature := by
    rw [List.map_map]
    rfl
  rw [hsig gs, h, ← hsig]

/-- A conflict is a matter of signatures. -/
theorem conflicts_congr {gs hs : List Routine} (h : gs.map signature = hs.map signature)
    {f f' : Routine} (hf : f.signature = f'.signature) : conflicts gs f = conflicts hs f' := by
  obtain ⟨hname,hcons,harity⟩ := signature_eq_iff.mp hf
  have arities (gs : List Routine) :
      (gs.filter fun g => !g.isConstructor && g.name == f.name).map arity =
        ((gs.map signature).filter fun s => !s.2.1 && s.1 == f.name).map fun s => s.2.2 := by
    rw [List.filter_map, List.map_map]
    rfl
  simp only [conflicts, ← hname, ← hcons, ← harity, arities gs, arities hs, h]

theorem nameConflicts_congr {gs hs : List Routine} (h : gs.map signature = hs.map signature)
    (n : Nat) (fs : List Routine) : nameConflicts gs n fs = nameConflicts hs n fs := by
  induction fs generalizing n with
  | nil => rfl
  | cons f fs ih => simp only [nameConflicts, conflicts_congr h (rfl : f.signature = _), ih]

end Routine

namespace Program
variable {p q : Program}

def outline (p : Program) : List Outline := p.classes.map Class.outline

theorem outline_class? (p : Program) (id : ClassId) :
    p.outline[id]? = (p.class? id).map Class.outline := List.getElem?_map ..

theorem size_congr (h : p.outline = q.outline) : p.size = q.size := by
  simpa [outline, size] using congrArg List.length h

theorem find?_congr (h : p.outline = q.outline) : p.find? = q.find? := by
  funext name
  have hfind (p : Program) : p.find? name = p.outline.findIdx? fun o => o.name == name := by
    simp only [find?, outline, List.findIdx?_map]
    rfl
  rw [hfind p, hfind q, h]

theorem class?_outline_congr (h : p.outline = q.outline) (id : ClassId) :
    (p.class? id).map Class.outline = (q.class? id).map Class.outline := by
  rw [← outline_class?, ← outline_class?, h]

theorem parents_congr (h : p.outline = q.outline) : p.parents = q.parents := by
  funext id
  have hext := congrArg (Option.map Outline.extensions) (class?_outline_congr h id)
  unfold parents
  rw [find?_congr h]
  cases hp : p.class? id <;> cases hq : q.class? id <;>
    simp_all [Class.outline]

theorem isInterfaceId_congr (h : p.outline = q.outline) : p.isInterfaceId = q.isInterfaceId := by
  funext id
  have hdecl := congrArg (Option.map Outline.declaration) (class?_outline_congr h id)
  unfold isInterfaceId
  cases hp : p.class? id <;> cases hq : q.class? id <;>
    simp_all [Class.outline, Class.isInterface]

theorem bases_congr (h : p.outline = q.outline) : p.bases = q.bases := by
  funext id
  simp only [bases, parents_congr h, isInterfaceId_congr h]

theorem climb_congr (h : p.outline = q.outline) (start : ClassId) (n : Nat)
    (chain pending : List ClassId) :
    p.climb start n chain pending = q.climb start n chain pending := by
  induction n generalizing chain pending with
  | zero => rfl
  | succ n ih =>
    cases pending with
    | nil => rfl
    | cons id pending => simp only [climb, bases_congr h, ih]

theorem baseChain_congr (h : p.outline = q.outline) : p.baseChain = q.baseChain := by
  funext id
  simp only [baseChain, size_congr h, climb_congr h]

/-- The classes below see the same signatures. -/
theorem inherited_congr (h : p.outline = q.outline) (id : ClassId) :
    (p.inherited id).map Routine.signature = (q.inherited id).map Routine.signature := by
  simp only [inherited, baseChain_congr h, List.map_flatMap]
  congr 1
  funext b
  have hsig := congrArg (Option.map Outline.signatures) (class?_outline_congr h b)
  cases hp : p.class? b <;> cases hq : q.class? b <;> simp_all [Class.outline]

/-- Naming a class changes nothing about its routines but their final names. -/
theorem map_unnamed_named (p : Program) (id : ClassId) (c : Class) :
    (p.named id c).routines.map Routine.unnamed = c.routines.map Routine.unnamed := by
  simp only [named, Routine.map_unnamed_nameConflicts, Routine.map_unnamed_nameOverloads,
    Routine.map_unnamed_nameConstructors]

theorem outline_named (p : Program) (id : ClassId) (c : Class) :
    (p.named id c).outline = c.outline := by
  have hsig := Routine.map_signature_congr (map_unnamed_named p id c)
  rw [Class.outline, hsig]
  rfl

theorem named_congr (h : p.outline = q.outline) (hr : p.rules = q.rules) (id : ClassId) :
    p.named id = q.named id := by
  funext c
  simp only [named, hr, Routine.nameConflicts_congr (inherited_congr h id)]

/-- A class as naming leaves it. -/
def settled (p : Program) (id : ClassId) (c : Class) : Class :=
  if c.resolved then c else p.named id c

theorem outline_settled (p : Program) (id : ClassId) (c : Class) :
    (p.settled id c).outline = c.outline := by
  unfold settled
  split
  · rfl
  · exact outline_named p id c

theorem resolved_settled (p : Program) (id : ClassId) (c : Class) :
    (p.settled id c).resolved = true := by
  unfold settled
  split
  · assumption
  · rfl

theorem settled_settled (p : Program) (id : ClassId) (c : Class) :
    p.settled id (p.settled id c) = p.settled id c :=
  if_pos (resolved_settled p id c)

theorem settled_congr (h : p.outline = q.outline) (hr : p.rules = q.rules) (id : ClassId) :
    p.settled id = q.settled id := by
  funext c
  simp only [settled, named_congr h hr]

/-- Changing a class is a matter of what the change makes of that class. -/
theorem modifyClass_congr {id : ClassId} {f g : Class → Class}
    (h : ∀ c, p.class? id = some c → f c = g c) : p.modifyClass id f = p.modifyClass id g := by
  unfold modifyClass
  congr 1
  apply List.ext_getElem?
  intro j
  simp only [List.getElem?_modify]
  cases hj : p.classes[j]? with
  | none => rfl
  | some c =>
    by_cases hid : id = j
    · subst hid
      simp [h c hj]
    · simp [hid]

theorem modifyClass_id (p : Program) (j : ClassId) : p.modifyClass j (fun c => c) = p := by
  unfold modifyClass
  rw [show (fun c : Class => c) = id from rfl, List.modify_id]

theorem class?_modifyClass (p : Program) (id j : ClassId) (f : Class → Class) :
    (p.modifyClass id f).class? j = (p.class? j).map fun c => if id = j then f c else c := by
  simp only [class?, modifyClass, List.getElem?_modify]
  by_cases h : id = j <;> simp [h]

/-- One step of naming settles one class. -/
theorem resolveStep_fst (s : Program × Resolution) (id : ClassId) :
    (resolveStep s id).1 = s.1.modifyClass id (s.1.settled id) := by
  have hkeep (h : ∀ c, s.1.class? id = some c → s.1.settled id c = c) :
      s.1 = s.1.modifyClass id (s.1.settled id) :=
    ((modifyClass_congr h).trans (modifyClass_id s.1 id)).symm
  unfold resolveStep resolveClass?
  cases hc : s.1.class? id with
  | none => exact hkeep (by simp [hc])
  | some c =>
    cases hr : c.resolved with
    | true => simpa [hr] using hkeep (by simp [hc, settled, hr])
    | false =>
      have hnamed : s.1.modifyClass id (s.1.named id) = s.1.modifyClass id (s.1.settled id) :=
        modifyClass_congr (by simp [hc, settled, hr])
      simpa [hr] using hnamed

/-- After some steps the classes they were about are as the program at the start settles them, and
the others are untouched. -/
theorem foldl_resolveStep (p : Program) (r : Resolution) (ids : List ClassId) (id : ClassId) :
    let q := (ids.foldl resolveStep (p, r)).1
    q.rules = p.rules ∧ q.outline = p.outline ∧
      q.class? id = (p.class? id).map fun c => if id ∈ ids then p.settled id c else c := by
  induction ids using List.reverseRecOn generalizing id with
  | nil => simp
  | append_singleton ids n ih =>
    obtain ⟨hrules,hout,-⟩ := ih 0
    simp only [List.foldl_append, List.foldl_cons, List.foldl_nil, resolveStep_fst]
    generalize hq : (ids.foldl resolveStep (p, r)).1 = q at ih hrules hout ⊢
    have hclass (j : Nat) : (q.modifyClass n (q.settled n)).class? j =
        (p.class? j).map fun c => if j ∈ ids ++ [n] then p.settled j c else c := by
      rw [class?_modifyClass, (ih j).2.2, settled_congr hout hrules, Option.map_map]
      congr 1
      funext c
      by_cases h : n = j
      · subst h
        -- A class that was settled before is settled no further.
        by_cases hn : n ∈ ids <;> simp [hn, settled_settled]
      · simp [h, Ne.symm h]
    refine ⟨hrules,?_,hclass id⟩
    apply List.ext_getElem?
    intro j
    rw [outline_class?, outline_class?, hclass j, Option.map_map]
    congr 1
    funext c
    by_cases h : j ∈ ids ++ [n] <;> simp only [Function.comp, h, if_true, if_false, outline_settled]

/-- Naming changes nothing but classes. -/
theorem foldl_resolveStep_fst (s : Program × Resolution) (ids : List ClassId) :
    ∃ cs, (ids.foldl resolveStep s).1 = { s.1 with classes := cs } := by
  induction ids generalizing s with
  | nil => exact ⟨s.1.classes,rfl⟩
  | cons id ids ih =>
    obtain ⟨cs,hcs⟩ := ih (resolveStep s id)
    refine ⟨cs,?_⟩
    rw [List.foldl_cons, hcs, resolveStep_fst]
    rfl

theorem resolve_fst (p : Program) : p.resolve.1 = { p with classes := p.resolve.1.classes } := by
  obtain ⟨cs,hcs⟩ := foldl_resolveStep_fst (p,{}) (List.range p.size)
  have hresolve : p.resolve.1 = { p with classes := cs } := hcs
  rw [hresolve]

/-- Naming settles every class, each as the program at the start would. -/
theorem class?_resolve (p : Program) (id : ClassId) :
    p.resolve.1.class? id = (p.class? id).map (p.settled id) := by
  rw [resolve, (foldl_resolveStep p {} (List.range p.size) id).2.2]
  cases hc : p.class? id with
  | none => rfl
  | some c =>
    have hid : id < p.size := (List.getElem?_eq_some_iff.mp hc).1
    simp [hid]

theorem outline_resolve (p : Program) : p.resolve.1.outline = p.outline :=
  (foldl_resolveStep p {} (List.range p.size) 0).2.1

theorem resolved_resolve (p : Program) : ∀ c ∈ p.resolve.1.classes, c.resolved = true := by
  intro c hc
  obtain ⟨id,hid⟩ := List.getElem?_of_mem hc
  have hclass := (class?_resolve p id).symm.trans hid
  obtain ⟨c',-,rfl⟩ := Option.map_eq_some_iff.mp hclass
  exact resolved_settled p id c'

theorem resolve_of_resolved (h : ∀ c ∈ p.classes, c.resolved = true) : p.resolve = (p,{}) := by
  have hstep (id : ClassId) : resolveStep (p,{}) id = (p,{}) := by
    unfold resolveStep resolveClass?
    cases hc : p.class? id with
    | none => simp
    | some c => simp [h c (List.mem_of_getElem? hc)]
  unfold resolve
  induction List.range p.size with
  | nil => rfl
  | cons id ids ih => rw [List.foldl_cons, hstep, ih]

end Program

end Recast
