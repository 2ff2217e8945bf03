import Recast.Proofs.Naming.Resolution

/-! # Naming in any order

Classes may be named one by one, in any order and more than once. As soon as each of them has come
up the program is the one that naming all of them in turn gives. All that changes is the final names
of routines, where static variables are found, and the marks that say which classes are named.
-/
namespace Recast

/-- A variable without the place it was moved to; only static ones are ever moved. -/
def Variable.unnamed (v : Variable) : Variable :=
  if v.isStatic then { v with remapClass := none } else v

/-- A class without what naming may change. -/
def Class.unnamed (c : Class) : Class :=
  { c with
    routines := c.routines.map Routine.unnamed
    vars := c.vars.map Variable.unnamed
    resolved := false }

namespace Program
variable {p : Program} {ids : List ClassId}

/-- A program without what naming may change. -/
def unnamed (p : Program) : Program := { p with classes := p.classes.map Class.unnamed }

/-- Name the members of some classes one by one. -/
def nameEach (p : Program) (ids : List ClassId) : Program :=
  ids.foldl (fun p id => ((p.resolveClass? id).map Prod.snd).getD p) p

theorem resolveStep_fst_eq (s : Program × Resolution) (id : ClassId) :
    (resolveStep s id).1 = ((s.1.resolveClass? id).map Prod.snd).getD s.1 := by
  unfold resolveStep
  cases s.1.resolveClass? id with
  | none => rfl
  | some _ => rfl

theorem foldl_resolveStep_fst_eq (s : Program × Resolution) (ids : List ClassId) :
    (ids.foldl resolveStep s).1 = s.1.nameEach ids := by
  induction ids generalizing s with
  | nil => rfl
  | cons id ids ih =>
    rw [List.foldl_cons, ih, resolveStep_fst_eq]
    rfl

theorem resolve_fst_eq (p : Program) : p.resolve.1 = p.nameEach (List.range p.size) :=
  foldl_resolveStep_fst_eq (p,{}) _

theorem class?_nameEach (p : Program) (ids : List ClassId) (id : ClassId) :
    (p.nameEach ids).class? id =
      (p.class? id).map fun c => if id ∈ ids then p.settled id c else c := by
  rw [← foldl_resolveStep_fst_eq (p,{})]
  exact (foldl_resolveStep p {} ids id).2.2

theorem nameEach_eq (p : Program) (ids : List ClassId) :
    p.nameEach ids = { p with classes := (p.nameEach ids).classes } := by
  obtain ⟨cs,hcs⟩ := foldl_resolveStep_fst (p,{}) ids
  rw [foldl_resolveStep_fst_eq] at hcs
  rw [hcs]

/-- It does not matter when and how often a class came up. -/
theorem nameEach_congr {ids' : List ClassId} (h : ∀ id < p.size, id ∈ ids ↔ id ∈ ids') :
    p.nameEach ids = p.nameEach ids' := by
  have hclasses : (p.nameEach ids).classes = (p.nameEach ids').classes := by
    apply List.ext_getElem?
    intro id
    change (p.nameEach ids).class? id = (p.nameEach ids').class? id
    rw [class?_nameEach, class?_nameEach]
    cases hc : p.class? id with
    | none => rfl
    | some c =>
      have hid : id < p.size := (List.getElem?_eq_some_iff.mp hc).1
      simp only [h id hid]
  rw [nameEach_eq p ids, nameEach_eq p ids', hclasses]

theorem unnamed_named (p : Program) (id : ClassId) (c : Class) :
    (p.named id c).unnamed = c.unnamed := by
  have hvars : (p.named id c).vars.map Variable.unnamed = c.vars.map Variable.unnamed := by
    unfold named
    cases p.rules.staticRedirects.get? c.name with
    | none => rfl
    | some target =>
      rw [List.map_map]
      apply List.map_congr_left
      intro v _
      cases hv : v.isStatic <;> simp [Variable.unnamed, hv]
  unfold Class.unnamed
  rw [map_unnamed_named, hvars]
  rfl

theorem unnamed_settled (p : Program) (id : ClassId) (c : Class) :
    (p.settled id c).unnamed = c.unnamed := by
  unfold settled
  split
  · rfl
  · exact unnamed_named p id c

theorem unnamed_nameEach (p : Program) (ids : List ClassId) :
    (p.nameEach ids).unnamed = p.unnamed := by
  have hclasses : (p.nameEach ids).classes.map Class.unnamed = p.classes.map Class.unnamed := by
    apply List.ext_getElem?
    intro id
    have hid := class?_nameEach p ids id
    unfold class? at hid
    rw [List.getElem?_map, List.getElem?_map, hid, Option.map_map]
    congr 1
    funext c
    by_cases h : id ∈ ids <;> simp [h, unnamed_settled]
  unfold unnamed
  rw [hclasses, nameEach_eq]

/-- Naming classes one by one, in any order and with any repetitions, gives the program that naming
all of them gives as soon as each has come up. To name them again changes nothing, and neither does
naming change anything but the final names of routines, the places of static variables, and the
marks of named classes. -/
theorem nameEach_of_cover (h : ∀ id < p.size, id ∈ ids) :
    p.nameEach ids = p.resolve.1 ∧ p.resolve.1.resolve = (p.resolve.1,{}) ∧
      p.resolve.1.unnamed = p.unnamed := by
  refine ⟨?_,resolve_of_resolved (resolved_resolve p),?_⟩
  · rw [resolve_fst_eq]
    exact nameEach_congr fun id hid => iff_of_true (h id hid) (List.mem_range.mpr hid)
  · rw [resolve_fst_eq, unnamed_nameEach]

/-- Two classes, each a base of the other, whose methods are in conflict, and a third that was named
before and is left as it is. -/
def rivals : Program where
  classes := [
    { name := "Cat", extensions := ["Dog"], routines := [{ name := "Run" }] },
    { name := "Dog", extensions := ["Cat"], routines := [{ name := "Run", parameters := [speed] }] },
    { name := "Fox", extensions := ["Cat"], routines := [{ name := "Run", parameters := [speed] }],
      resolved := true }]
where
  speed : Parameter := { name := "speed", ty := .object "object" }

theorem rivals_nameEach_of_cover :
    (∀ id < rivals.size, id ∈ [2,1,0,1]) ∧ rivals.nameEach [2,1,0,1] = rivals.resolve.1 ∧
      rivals.resolve.1.unnamed = rivals.unnamed ∧
      rivals.resolve.1.classes.map (fun c => c.routines.map Routine.emittedName) =
        [["Run1"],["Run1"],["Run"]] := by
  have hcover : ∀ id < rivals.size, id ∈ [2,1,0,1] := by decide
  obtain ⟨heq,-,hframe⟩ := nameEach_of_cover hcover
  exact ⟨hcover,heq,hframe,rfl⟩

end Program

end Recast
