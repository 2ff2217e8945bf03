import Mathlib.Data.List.Nodup
import Recast.Proofs.Naming.Distinct

/-! # The rule behind final names

What naming does to a program without final names can be said without its three passes: the place of
a constructor among the constructors, the place of a method among those of its name, and its place
among the methods that are in conflict with a base. The number of renamings is the number of
routines to which one of the three gives digits.
-/
namespace Recast
open Routine

theorem toString_injective {i j : Nat} (h : toString i = toString j) : i = j := by
  rw [Nat.toString_eq_repr, Nat.toString_eq_repr, ← String.toList_inj, Nat.toList_repr,
    Nat.toList_repr] at h
  rw [← Nat.ofDigitChars_ten_toDigits (n := i), h, Nat.ofDigitChars_ten_toDigits]

namespace Routine

theorem countP_eq_range (a : Routine → Bool) (fs : List Routine) :
    fs.countP a = (List.range fs.length).countP fun i => fs[i]?.any a := by
  induction fs with
  | nil => rfl
  | cons f fs ih =>
    rw [List.length_cons, List.range_succ_eq_map, List.countP_cons, List.countP_cons,
      List.countP_map, ih]
    rfl

/-- A method is counted if its name came up before, in front of the list or in it. -/
theorem overloadRenames_eq_range (earlier : List String) (fs : List Routine) :
    overloadRenames earlier fs = (List.range fs.length).countP fun i => fs[i]?.any fun f =>
      !f.isConstructor &&
        decide (0 < earlier.count f.name + (fs.take i).countP (isMethodNamed f.name)) := by
  induction fs generalizing earlier with
  | nil => rfl
  | cons f fs ih =>
    rw [List.length_cons, List.range_succ_eq_map, List.countP_cons, List.countP_map,
      overloadRenames]
    cases hf : f.isConstructor with
    | true =>
      have hrest (name : String) (i : Nat) : ((f :: fs).take (i + 1)).countP (isMethodNamed name) =
          (fs.take i).countP (isMethodNamed name) := by
        simp [isMethodNamed, hf]
      simp only [↓reduceIte, ih, List.getElem?_cons_zero, Option.any_some, hf, Bool.not_true,
        Bool.false_and, Bool.false_eq_true, Nat.add_zero, Function.comp_def,
        List.getElem?_cons_succ, hrest]
    | false =>
      have hrest (name : String) (i : Nat) : (f.name :: earlier).count name +
          (fs.take i).countP (isMethodNamed name) =
            earlier.count name + ((f :: fs).take (i + 1)).countP (isMethodNamed name) := by
        simp only [List.count_cons, List.take_succ_cons, List.countP_cons, isMethodNamed, hf,
          Bool.not_false, Bool.true_and]
        omega
      have hfirst : earlier.contains f.name = decide (0 < earlier.count f.name) := by
        simp [List.count_pos_iff]
      simp only [Bool.false_eq_true, ↓reduceIte, ih, hrest, List.getElem?_cons_zero,
        Option.any_some, hf, Bool.not_false, Bool.true_and, List.take_zero, List.countP_nil,
        Nat.add_zero, Function.comp_def, List.getElem?_cons_succ, hfirst]
      exact Nat.add_comm _ _

theorem map_emittedName_numberConstructors (n : Nat) (fs : List Routine) :
    ((numberConstructors n fs).filter isInstanceConstructor).map emittedName =
      (List.range' n (fs.countP isInstanceConstructor)).map fun j => "New" ++ toString j := by
  induction fs generalizing n with
  | nil => rfl
  | cons f fs ih =>
    by_cases hf : f.isInstanceConstructor
    · simp [numberConstructors, hf, ih, List.range'_succ]
    · simp [numberConstructors, hf, ih]

/-- Overloads are methods, so the constructors stay as they are. -/
theorem filter_nameOverloads (earlier : List String) (fs : List Routine) :
    (nameOverloads earlier fs).filter isInstanceConstructor = fs.filter isInstanceConstructor := by
  induction fs generalizing earlier with
  | nil => rfl
  | cons f fs ih =>
    by_cases hf : f.isConstructor
    · simp [nameOverloads, hf, ih, List.filter_cons]
    · have hi : f.isInstanceConstructor = false := by simp [isInstanceConstructor, hf]
      simp only [nameOverloads, hf, Bool.false_eq_true, ↓reduceIte]
      split <;> simp [hi, ih]

theorem filter_nameConflicts (inherited : List Routine) (n : Nat) (fs : List Routine) :
    (nameConflicts inherited n fs).filter isInstanceConstructor =
      fs.filter isInstanceConstructor := by
  induction fs generalizing n with
  | nil => rfl
  | cons f fs ih =>
    by_cases hf : conflicts inherited f
    · have hi : f.isInstanceConstructor = false := by
        simp [isInstanceConstructor, (conflicts_iff.mp hf).1]
      simp [nameConflicts, hf, hi, ih]
    · simp [nameConflicts, hf, ih, List.filter_cons]

end Routine

namespace Program
variable {p q : Program} {id : ClassId} {c : Class} {i : Nat} {f : Routine}

/-- No class is named yet, and no routine has a final name. -/
structure Unnamed (p : Program) : Prop where
  resolved : ∀ c ∈ p.classes, c.resolved = false
  remap : ∀ c ∈ p.classes, ∀ f ∈ c.routines, f.remap = none

/-- Some method of a base has the name of the method, and none of these has its arity. -/
structure InConflict (p : Program) (id : ClassId) (f : Routine) : Prop where
  method : f.isConstructor = false
  shared : ∃ b ∈ p.baseChain id, ∃ j g, p.routineAt? b j = some g ∧ g.isConstructor = false ∧
    g.name = f.name
  arity : ∀ b ∈ p.baseChain id, ∀ j g, p.routineAt? b j = some g → g.isConstructor = false →
    g.name = f.name → g.arity ≠ f.arity

theorem inConflict_iff : p.InConflict id f ↔ conflicts (p.inherited id) f = true := by
  rw [conflicts_iff]
  simp only [mem_inherited]
  constructor
  · rintro ⟨hm, ⟨b, hb, j, g, hg, hc, hn⟩, harity⟩
    refine ⟨hm, ⟨g, ⟨b, hb, j, hg⟩, hc, hn⟩, ?_⟩
    rintro g ⟨b, hb, j, hg⟩ hc hn
    exact harity b hb j g hg hc hn
  · rintro ⟨hm, ⟨g, ⟨b, hb, j, hg⟩, hc, hn⟩, harity⟩
    exact ⟨hm, ⟨b, hb, j, g, hg, hc, hn⟩, fun b hb j g hg => harity g ⟨b, hb, j, hg⟩⟩

instance : Decidable (p.InConflict id f) := decidable_of_iff _ inConflict_iff.symm

/-- The place of a routine among those of its class that are in conflict, from one on. -/
def conflictPlace (p : Program) (id : ClassId) (c : Class) (i : Nat) : Nat :=
  (c.routines.take i).countP (fun f => decide (p.InConflict id f)) + 1

theorem conflictPlace_eq (p : Program) (id : ClassId) (c : Class) (i : Nat) :
    p.conflictPlace id c i = p.conflictRank id c i := by
  unfold conflictPlace conflictRank
  congr 2
  funext f
  simp only [inConflict_iff, Bool.decide_eq_true]

/-- The name of a method with the number of the overload. -/
def overloadStem (c : Class) (i : Nat) (f : Routine) : String :=
  if c.overloadRank i f.name = 1 then f.name else f.name ++ toString (c.overloadRank i f.name)

/-- The rule for the final names of a class, where `d` is the class `c` once it is named. -/
structure NamedByRule (p : Program) (id : ClassId) (c d : Class) : Prop where
  /-- Several instance constructors are numbered in the order of their declarations. -/
  constructor : ∀ (i : Nat) (f : Routine), c.routines[i]? = some f →
    f.isInstanceConstructor = true → 2 ≤ c.constructors.length →
      ∃ g, d.routines[i]? = some g ∧ g.emittedName = "New" ++ toString (c.constructorRank i)
  /-- These names are all different. -/
  distinct : 2 ≤ c.constructors.length → (d.constructors.map emittedName).Nodup
  /-- One that stands alone stays as it is. -/
  single : ∀ (i : Nat) (f : Routine), c.routines[i]? = some f → f.isConstructor = true →
    c.constructors.length < 2 → d.routines[i]? = some f
  static : ∀ (i : Nat) (f : Routine), c.routines[i]? = some f → f.isConstructor = true →
    f.isStatic = true → d.routines[i]? = some f
  /-- A method has its number among the overloads, and behind it that among the conflicts. -/
  method : ∀ (i : Nat) (f : Routine), c.routines[i]? = some f → f.isConstructor = false →
    ∃ g, d.routines[i]? = some g ∧ g.emittedName = overloadStem c i f ++
      if p.InConflict id f then toString (p.conflictPlace id c i) else ""

theorem length_constructors (c : Class) :
    c.constructors.length = c.routines.countP isInstanceConstructor :=
  List.countP_eq_length_filter.symm

theorem renamesConstructors_iff : renamesConstructors c = true ↔ 2 ≤ c.constructors.length := by
  rw [length_constructors, renamesConstructors, decide_eq_true_iff]

theorem constructors_named (p : Program) (id : ClassId) (c : Class) :
    (p.named id c).constructors = (nameConstructors c.routines).filter isInstanceConstructor := by
  rw [Class.constructors, named, filter_nameConflicts, filter_nameOverloads]

/-- Naming a class without final names follows the rule. -/
theorem namedByRule_named (hc : ∀ f ∈ c.routines, f.remap = none) :
    p.NamedByRule id c (p.named id c) := by
  have hconstructor : ∀ (i : Nat) (f : Routine), c.routines[i]? = some f →
      f.isInstanceConstructor = true → 2 ≤ c.constructors.length →
        (p.named id c).routines[i]? =
          some (f.rename ("New" ++ toString (c.constructorRank i))) := by
    intro i f hf hi hn
    have hcons : f.isConstructor = true := (Bool.and_eq_true_iff.mp hi).1
    rw [named_constructor p id hf hcons, if_pos (by simp [hi, renamesConstructors_iff.mpr hn])]
  have hkept : ∀ (i : Nat) (f : Routine), c.routines[i]? = some f → f.isConstructor = true →
      ¬ (f.isInstanceConstructor = true ∧ 2 ≤ c.constructors.length) →
        (p.named id c).routines[i]? = some f := by
    intro i f hf hcons hn
    rw [named_constructor p id hf hcons, if_neg]
    rwa [Bool.and_eq_true, renamesConstructors_iff]
  refine ⟨?_, ?_, ?_, ?_, ?_⟩
  · intro i f hf hi hn
    exact ⟨_, hconstructor i f hf hi hn, rfl⟩
  · intro hn
    have hlist : nameConstructors c.routines = numberConstructors 1 c.routines := by
      rw [nameConstructors, constructorRenames, ← length_constructors, if_neg]
      split <;> omega
    rw [constructors_named, hlist, map_emittedName_numberConstructors]
    refine List.Nodup.map ?_ List.nodup_range'
    intro i j hij
    exact toString_injective ((String.append_right_inj _).mp hij)
  · intro i f hf hcons hn
    exact hkept i f hf hcons fun h => by omega
  · intro i f hf hcons hs
    refine hkept i f hf hcons fun h => ?_
    simp [isInstanceConstructor, hs] at h
  · intro i f hf hm
    obtain ⟨g, hg, -, hname⟩ := named_method p id hf hm
    refine ⟨g, hg, ?_⟩
    have hown : f.emittedName = f.name := by
      rw [emittedName, hc f (List.mem_of_getElem? hf), Option.getD_none]
    have hpos : 1 ≤ c.overloadRank i f.name := Nat.le_add_left ..
    rw [hname, addedDigits, ← String.append_assoc, conflictPlace_eq]
    congr 1
    · unfold overloadStem overloadNumber
      by_cases hrank : c.overloadRank i f.name = 1
      · simp [hrank, hown]
      · have hlt : 1 < c.overloadRank i f.name := by omega
        simp [hrank, hlt]
    · simp only [conflictNumber, inConflict_iff]

/-- The routines of a class, by the position of the class and their own. -/
def sitesOf (p : Program) (id : ClassId) : List (ClassId × Nat) :=
  (List.range ((p.class? id).elim 0 fun c => c.routines.length)).map fun i => (id, i)

def sites (p : Program) : List (ClassId × Nat) := (List.range p.size).flatMap p.sitesOf

/-- The routine at a site has a property in its class. -/
def holdsAt (p : Program) (a : Class → Nat → Routine → Bool) (site : ClassId × Nat) : Bool :=
  (p.class? site.1).any fun c => c.routines[site.2]?.any (a c site.2)

def takesConstructorNumber (p : Program) : ClassId × Nat → Bool :=
  p.holdsAt fun c _ f => f.isInstanceConstructor && 2 ≤ c.constructors.length

/-- It is a method, and not the first one of its name. -/
def takesOverloadNumber (p : Program) : ClassId × Nat → Bool :=
  p.holdsAt fun c i f => !f.isConstructor && 1 < c.overloadRank i f.name

def takesConflictSuffix (p : Program) (site : ClassId × Nat) : Bool :=
  p.holdsAt (fun _ _ f => p.InConflict site.1 f) site

theorem countP_sitesOf (hc : p.class? id = some c) (a : Class → Nat → Routine → Bool) :
    (p.sitesOf id).countP (p.holdsAt a) =
      (List.range c.routines.length).countP fun i => c.routines[i]?.any (a c i) := by
  rw [sitesOf, List.countP_map, hc]
  apply List.countP_congr
  intro i _
  simp [holdsAt, hc]

theorem renames_eq (hc : p.class? id = some c) : p.renames id c =
    (p.sitesOf id).countP p.takesConstructorNumber + (p.sitesOf id).countP p.takesOverloadNumber +
      (p.sitesOf id).countP p.takesConflictSuffix := by
  unfold renames
  congr 1
  · congr 1
    · unfold takesConstructorNumber constructorRenames
      rw [countP_sitesOf hc, ← length_constructors]
      by_cases hn : c.constructors.length < 2
      · have hno : ¬ 2 ≤ c.constructors.length := by omega
        simp [hn, hno]
      · have hyes : 2 ≤ c.constructors.length := by omega
        simp only [hn, if_false, hyes, decide_true, Bool.and_true]
        rw [length_constructors, countP_eq_range]
    · unfold takesOverloadNumber
      rw [countP_sitesOf hc, overloadRenames_eq_range]
      simp only [List.count_nil, Nat.zero_add, Class.overloadRank, Nat.lt_add_left_iff_pos]
  · have hsame : (p.sitesOf id).countP p.takesConflictSuffix =
        (p.sitesOf id).countP (p.holdsAt fun _ _ f => decide (p.InConflict id f)) := by
      apply List.countP_congr
      intro site hsite
      obtain ⟨i, -, rfl⟩ := List.mem_map.mp hsite
      rfl
    rw [hsame, countP_sitesOf hc, countP_eq_range]
    simp only [inConflict_iff, Bool.decide_eq_true]

theorem renames_congr (h : p.outline = q.outline) (id : ClassId) (c : Class) :
    p.renames id c = q.renames id c := by
  unfold renames
  congr 2
  funext f
  exact conflicts_congr (inherited_congr h id) rfl

theorem resolveStep_renamed {s : Program × Resolution} (hc : s.1.class? id = some c)
    (hr : c.resolved = false) : (resolveStep s id).2.renamed = s.2.renamed + s.1.renames id c := by
  unfold resolveStep resolveClass?
  simp [hc, hr]

theorem countP_flatMap_concat (ids : List ClassId) (id : ClassId) (a : ClassId × Nat → Bool) :
    ((ids ++ [id]).flatMap p.sitesOf).countP a =
      (ids.flatMap p.sitesOf).countP a + (p.sitesOf id).countP a := by
  rw [List.flatMap_append, List.countP_append, List.flatMap_singleton]

/-- Naming some classes, each once, counts the renamings among their routines. -/
theorem foldl_resolveStep_renamed (h : p.Unnamed) {ids : List ClassId} (hids : ids.Nodup)
    (hlt : ∀ id ∈ ids, id < p.size) :
    (ids.foldl resolveStep (p, {})).2.renamed =
      (ids.flatMap p.sitesOf).countP p.takesConstructorNumber +
        (ids.flatMap p.sitesOf).countP p.takesOverloadNumber +
        (ids.flatMap p.sitesOf).countP p.takesConflictSuffix := by
  induction ids using List.reverseRecOn with
  | nil => rfl
  | append_singleton ids n ih =>
    obtain ⟨hnodup, -, hnew⟩ := List.nodup_append.mp hids
    have hn : n ∉ ids := fun hn => hnew n hn n (List.mem_singleton_self n) rfl
    obtain ⟨c, hc⟩ : ∃ c, p.class? n = some c :=
      ⟨_, List.getElem?_eq_getElem (hlt n (by simp))⟩
    obtain ⟨-, hout, hclass⟩ := foldl_resolveStep p {} ids n
    have hcn : (ids.foldl resolveStep (p, {})).1.class? n = some c := by
      rw [hclass, hc, Option.map_some, if_neg hn]
    have hres := h.resolved c (List.mem_of_getElem? hc)
    rw [List.foldl_append, List.foldl_cons, List.foldl_nil, resolveStep_renamed hcn hres,
      renames_congr hout, renames_eq hc, countP_flatMap_concat, countP_flatMap_concat,
      countP_flatMap_concat, ih hnodup fun id hid => hlt id (by simp [hid])]
    omega

/-- In a program without final names, naming gives every class the names of the rule, and it counts
one renaming for each routine that is one of several constructors, one for each that is not the
first of its name, and one for each that is in conflict with a base. -/
theorem resolve_follows_rule (h : p.Unnamed) :
    (∀ id c, p.class? id = some c → ∃ d, p.resolve.1.class? id = some d ∧ p.NamedByRule id c d) ∧
      p.resolve.2.renamed = p.sites.countP p.takesConstructorNumber +
        p.sites.countP p.takesOverloadNumber + p.sites.countP p.takesConflictSuffix := by
  constructor
  · intro id c hc
    have hmem := List.mem_of_getElem? hc
    have hset : p.settled id c = p.named id c := by simp [settled, h.resolved c hmem]
    refine ⟨p.named id c, ?_, namedByRule_named (h.remap c hmem)⟩
    rw [class?_resolve, hc, Option.map_some, hset]
  · exact foldl_resolveStep_renamed h List.nodup_range fun id hid => List.mem_range.mp hid

/-- A base and a class below it. Each has a method in conflict with the other through a cycle, and
the class below has two constructors beside a static one, and three methods of one name. -/
def crowdedKennel : Program where
  classes := [
    { name := "Kennel", extensions := ["Pound"],
      routines := [{ name := "Open" }, { name := "Feed", parameters := [amount] }] },
    { name := "Pound", extensions := ["Kennel"],
      routines := [
        { name := "Pound", isConstructor := true },
        { name := "Pound", isConstructor := true, isStatic := true },
        { name := "Feed" },
        { name := "Pound", isConstructor := true, parameters := [amount] },
        { name := "Open", parameters := [amount] },
        { name := "Open" },
        { name := "Open", parameters := [amount, amount] }] }]
where
  amount : Parameter := { name := "amount", ty := .object "object" }

theorem crowdedKennel_follows_rule :
    crowdedKennel.Unnamed ∧
      (∃ c d, crowdedKennel.class? 1 = some c ∧ crowdedKennel.resolve.1.class? 1 = some d ∧
        crowdedKennel.NamedByRule 1 c d ∧ c.constructors.length = 2 ∧
        d.routines.map emittedName =
          ["New1", "Pound", "Feed1", "New2", "Open2", "Open2", "Open33"]) ∧
      crowdedKennel.resolve.2.renamed = 8 := by
  have h : crowdedKennel.Unnamed := ⟨by decide, by decide⟩
  obtain ⟨hnames, hcount⟩ := resolve_follows_rule h
  obtain ⟨d, hd, hrule⟩ := hnames 1 _ rfl
  refine ⟨h, ⟨_, d, rfl, hd, hrule, rfl, ?_⟩, ?_⟩
  · obtain rfl := Option.some.inj hd
    rfl
  · rw [hcount]
    rfl

end Program

end Recast
