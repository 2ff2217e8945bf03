import Recast.Proofs.Lookup.Overloads
import Recast.Proofs.Ordering.StableSort

/-! # When ordering changes the choice of an overload

The final order puts routines of wider access first, and calls choose the first routine that fits.
So a call may be given another overload once the members are in order. It is not exactly if of all
routines that fit, the one that is declared first is also one of the widest access.
-/
namespace Recast
open Routine

namespace Routine
variable {kind : Routine → Bool} {fs : List Routine}

/-- The first routine of a kind is among the first of its kind in the final order, too. -/
def Leads (kind : Routine → Bool) (fs : List Routine) : Prop :=
  ∀ f, fs.find? kind = some f → ∀ g ∈ fs, kind g = true → f.le g = true

theorem find?_sort_eq_iff : (sortBy Routine.le fs).find? kind = fs.find? kind ↔ Leads kind fs :=
  find?_sortBy_eq_iff sortOrder_routine kind fs

theorem find?_sort_eq_none_iff : (sortBy Routine.le fs).find? kind = none ↔
    fs.find? kind = none := by
  simp only [List.find?_eq_none, mem_sortBy]

theorem exists_not_arity (fs : List Routine) : ∃ n, ∀ f ∈ fs, f.arity < n := by
  induction fs with
  | nil => exact ⟨0,List.forall_mem_nil _⟩
  | cons f fs ih =>
    obtain ⟨n,hn⟩ := ih
    refine ⟨max n (f.arity + 1),List.forall_mem_cons.mpr ⟨by omega,?_⟩⟩
    intro g hg
    have hlt := hn g hg
    omega

/-- The choice for `n` arguments stays the same if the first routine that takes them leads. If there
is none, it is the first of all that has to. -/
theorem choose?_sort_eq_iff (n : Nat) :
    choose? kind n (sortBy Routine.le fs) = choose? kind n fs ↔
      if fs.find? (takes kind n) = none then Leads kind fs else Leads (takes kind n) fs := by
  unfold choose?
  split
  · next hnone =>
    rw [hnone, find?_sort_eq_none_iff.mpr hnone]
    exact find?_sort_eq_iff
  · next hsome =>
    obtain ⟨f,hf⟩ := Option.ne_none_iff_exists'.mp hsome
    obtain ⟨g,hg⟩ := Option.ne_none_iff_exists'.mp (mt find?_sort_eq_none_iff.mp hsome)
    rw [← find?_sort_eq_iff, hf, hg]
    rfl

theorem forall_choose?_sort_eq_iff (kind : Routine → Bool) (fs : List Routine) :
    (∀ n, choose? kind n (sortBy Routine.le fs) = choose? kind n fs) ↔
      Leads kind fs ∧ ∀ n, Leads (takes kind n) fs := by
  simp only [choose?_sort_eq_iff]
  constructor
  · intro h
    constructor
    · obtain ⟨n,hn⟩ := exists_not_arity fs
      have hnone : fs.find? (takes kind n) = none := by
        rw [List.find?_eq_none]
        intro f hf ht
        exact Nat.ne_of_lt (hn f hf) (takes_iff.mp ht).2
      simpa [hnone] using h n
    · intro n f hf
      have hn := h n
      rw [if_neg (by simp [hf])] at hn
      exact hn f hf
  · rintro ⟨hkind,htakes⟩ n
    split
    · exact hkind
    · exact htakes n

theorem le_iff_of_name_eq {f g : Routine} (h : f.name = g.name) :
    f.le g = true ↔ f.access.rank ≤ g.access.rank := by
  have hname : g.name ≤ g.name := String.le_refl _
  simp only [Routine.le, leThen, h, hname, Bool.or_eq_true, Bool.and_eq_true, decide_eq_true_eq,
    beq_iff_eq, and_true]
  omega

theorem leads_iff_access {name : String} (h : ∀ f ∈ fs, kind f = true → f.name = name) :
    Leads kind fs ↔ ∀ f, fs.find? kind = some f → ∀ g ∈ fs, kind g = true →
      f.access.rank ≤ g.access.rank := by
  refine forall_congr' fun f => forall_congr' fun hf => forall_congr' fun g => ?_
  refine forall_congr' fun hg => forall_congr' fun hk => le_iff_of_name_eq ?_
  have hfname := h f (List.mem_of_find?_eq_some hf) (List.find?_some hf)
  exact hfname.trans (h g hg hk).symm

end Routine

namespace Class

structure ChoosesAlike (c d : Class) : Prop where
  constructors : ∀ n, d.constructorFor? n = c.constructorFor? n
  overloads : ∀ name n, d.routine? name (some n) = c.routine? name (some n)
  methods : ∀ name, d.routine? name none = c.routine? name none

/-- No routine that a call may be given has wider access than the one that is declared first.
Constructors of one access are in the order of their names. -/
structure FirstsLead (c : Class) : Prop where
  constructors : Leads isInstanceConstructor c.routines
  constructorsTaking : ∀ n, Leads (takes isInstanceConstructor n) c.routines
  methods : ∀ name f, c.routines.find? (isMethodNamed name) = some f →
    ∀ g ∈ c.routines, isMethodNamed name g = true → f.access.rank ≤ g.access.rank
  methodsTaking : ∀ name n f, c.routines.find? (takes (isMethodNamed name) n) = some f →
    ∀ g ∈ c.routines, takes (isMethodNamed name) n g = true → f.access.rank ≤ g.access.rank

theorem choosesAlike_sortMembers_iff (c : Class) : c.ChoosesAlike c.sortMembers ↔ c.FirstsLead := by
  have hmethods (name : String) : Leads (isMethodNamed name) c.routines ↔ _ :=
    leads_iff_access fun f _ hf => (isMethodNamed_iff.mp hf).2
  have htaking (name : String) (n : Nat) :
      Leads (takes (isMethodNamed name) n) c.routines ↔ _ :=
    leads_iff_access fun f _ hf => (isMethodNamed_iff.mp (takes_iff.mp hf).1).2
  have hconstructors := forall_choose?_sort_eq_iff isInstanceConstructor c.routines
  have hoverloads (name : String) := forall_choose?_sort_eq_iff (isMethodNamed name) c.routines
  constructor
  · rintro ⟨hc,ho,-⟩
    simp only [constructorFor?_eq, routine?_some] at hc ho
    obtain ⟨hlead,htake⟩ := hconstructors.mp hc
    refine ⟨hlead,htake,fun name => ?_,fun name n => ?_⟩
    · exact (hmethods name).mp ((hoverloads name).mp (ho name)).1
    · exact (htaking name n).mp (((hoverloads name).mp (ho name)).2 n)
  · rintro ⟨hlead,htake,hm,ht⟩
    have hm (name : String) := (hmethods name).mpr (hm name)
    have ht (name : String) (n : Nat) := (htaking name n).mpr (ht name n)
    refine ⟨fun n => ?_,fun name n => ?_,fun name => ?_⟩
    · rw [constructorFor?_eq, constructorFor?_eq]
      exact hconstructors.mpr ⟨hlead,htake⟩ n
    · rw [routine?_some, routine?_some]
      exact (hoverloads name).mpr ⟨hm name,ht name⟩ n
    · rw [routine?_none, routine?_none]
      exact find?_sort_eq_iff.mpr (hm name)

end Class

namespace Program

/-- What is promised about the final order: every class is still there, and its calls are given the
routines that they were given before. -/
def SortKeepsChoices (p : Program) : Prop :=
  ∀ c ∈ p.classes, c.sortMembers ∈ p.sort.classes ∧ c.ChoosesAlike c.sortMembers

/-- The promise is kept exactly if in every class the routines that are declared first have the
widest access. -/
theorem sortKeepsChoices_iff (p : Program) :
    p.SortKeepsChoices ↔ ∀ c ∈ p.classes, c.FirstsLead := by
  refine forall_congr' fun c => forall_congr' fun hc => ?_
  have hmem : c.sortMembers ∈ p.sort.classes := List.mem_map_of_mem (mem_sortBy.mpr hc)
  rw [Class.choosesAlike_sortMembers_iff]
  exact and_iff_right hmem

/-- Two methods of one name with one parameter each, of which only the second is public. -/
def publicOverload : Program where
  classes := [{
    name := "K"
    routines := [
      { name := "Log", parameters := [{ name := "code", ty := .object "int" }] },
      { name := "Log", parameters := [{ name := "text", ty := .object "string" }],
        access := .publicAccess }] }]

theorem publicOverload_not_sortKeepsChoices : ¬ publicOverload.resolve.1.SortKeepsChoices := by
  intro h
  have hlog := congrArg (Option.map emittedName) ((h _ List.mem_cons_self).2.overloads "Log" 1)
  have hnames : some "Log2" = some "Log" := hlog
  exact absurd hnames (by decide)

end Program

end Recast
