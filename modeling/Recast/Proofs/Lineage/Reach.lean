import Mathlib.Algebra.BigOperators.Intervals
import Mathlib.Algebra.Order.BigOperators.Group.Finset
import Mathlib.Data.List.Induction
import Mathlib.Logic.Relation
import Recast.Program.Lineage

/-! # What a class reaches

The depth-first visit of the extensions of a class finds every class that is reached through them,
and no other one. The bound on its steps is never felt: each step takes one pending class, and only
the first visit of a class makes its extensions pending.
-/
namespace Recast.Program
variable {p : Program}

/-- One class extends another one by a name that finds it. -/
def ExtensionStep (p : Program) (a b : ClassId) : Prop :=
  ∃ c name, p.class? a = some c ∧ name ∈ c.extensions ∧ p.find? name = some b

/-- One class extends another, directly, through others or by being it. -/
def Reaches (p : Program) : ClassId → ClassId → Prop := Relation.ReflTransGen p.ExtensionStep

/-- How many extensions the classes have together that are not visited yet. -/
def unvisited (p : Program) (visited : List ClassId) : Nat :=
  ∑ i ∈ Finset.range p.size, if i ∈ visited then 0 else (p.parents i).length

theorem mem_parents_iff {a b : ClassId} : b ∈ p.parents a ↔ p.ExtensionStep a b := by
  unfold parents ExtensionStep
  cases hc : p.class? a with
  | none => simp
  | some c => simp [List.mem_filterMap]

theorem parents_eq_nil {id : ClassId} (h : ¬ id < p.size) : p.parents id = [] := by
  have hnone : p.class? id = none := List.getElem?_eq_none (Nat.not_lt.mp h)
  simp [parents, hnone]

theorem length_parents_le (p : Program) (id : ClassId) :
    (p.parents id).length ≤ ((p.class? id).map fun c => c.extensions.length).getD 0 := by
  unfold parents
  cases p.class? id with
  | none => exact Nat.le_refl 0
  | some c => exact List.length_filterMap_le _ _

theorem extensionCount_eq (p : Program) : p.extensionCount =
    ∑ i ∈ Finset.range p.size, ((p.class? i).map fun c => c.extensions.length).getD 0 := by
  unfold extensionCount size class?
  induction p.classes using List.reverseRecOn with
  | nil => rfl
  | append_singleton cs c ih =>
    rw [List.foldl_append, ih, List.length_append, List.length_singleton, Finset.sum_range_succ]
    have hinit : ∑ i ∈ Finset.range cs.length,
          (((cs ++ [c])[i]?).map fun c => c.extensions.length).getD 0 =
        ∑ i ∈ Finset.range cs.length, ((cs[i]?).map fun c => c.extensions.length).getD 0 := by
      refine Finset.sum_congr rfl fun i hi => ?_
      rw [List.getElem?_append_left (Finset.mem_range.mp hi)]
    rw [hinit]
    simp

theorem unvisited_nil_le (p : Program) : p.unvisited [] ≤ p.extensionCount := by
  rw [extensionCount_eq]
  refine Finset.sum_le_sum fun i _ => ?_
  simpa using length_parents_le p i

/-- The first visit of a class takes its extensions away from those that are left. -/
theorem unvisited_cons {visited : List ClassId} {id : ClassId} (h : id ∉ visited) :
    p.unvisited (id :: visited) + (p.parents id).length = p.unvisited visited := by
  have hsplit (i : Nat) : (if i ∈ visited then 0 else (p.parents i).length) =
      (if i ∈ id :: visited then 0 else (p.parents i).length) +
        if i = id then (p.parents id).length else 0 := by
    by_cases hi : i = id
    · subst hi
      simp [h]
    · simp [hi]
  have hsum : p.unvisited visited = p.unvisited (id :: visited) +
      ∑ i ∈ Finset.range p.size, if i = id then (p.parents id).length else 0 := by
    simp only [unvisited, hsplit, Finset.sum_add_distrib]
  rw [hsum, Finset.sum_ite_eq']
  by_cases hid : id < p.size
  · simp [hid]
  · simp [hid, parents_eq_nil]

theorem reaches_of_mem_visit {n : Nat} {visited pending : List ClassId} {b : ClassId}
    (h : b ∈ p.visit n visited pending) : ∃ a ∈ pending, p.Reaches a b := by
  induction n generalizing visited pending with
  | zero => cases h
  | succ n ih =>
    cases pending with
    | nil => cases h
    | cons id pending =>
      unfold visit at h
      split at h
      · obtain ⟨a,ha,hab⟩ := ih h
        exact ⟨a,List.mem_cons_of_mem id ha,hab⟩
      · rcases List.mem_cons.mp h with rfl | h
        · exact ⟨b,List.mem_cons_self,.refl⟩
        · obtain ⟨a,ha,hab⟩ := ih h
          rcases List.mem_append.mp ha with ha | ha
          · exact ⟨id,List.mem_cons_self,.head (mem_parents_iff.mp ha) hab⟩
          · exact ⟨a,List.mem_cons_of_mem id ha,hab⟩

/-- With enough steps, the visit covers what is pending, and together with what was visited before
it covers all extensions of whatever it covers. -/
theorem visit_covers {n : Nat} {visited pending : List ClassId}
    (hn : pending.length + p.unvisited visited ≤ n)
    (hclosed : ∀ a ∈ visited, ∀ b ∈ p.parents a, b ∈ visited ∨ b ∈ pending) :
    (∀ a ∈ pending, a ∈ visited ∨ a ∈ p.visit n visited pending) ∧
      ∀ a, a ∈ visited ∨ a ∈ p.visit n visited pending → ∀ b ∈ p.parents a,
        b ∈ visited ∨ b ∈ p.visit n visited pending := by
  -- Each step keeps `hclosed`: what is visited is closed under extensions up to what is pending.
  induction n generalizing visited pending with
  | zero =>
    obtain rfl : pending = [] := List.length_eq_zero_iff.mp (by omega)
    refine ⟨List.forall_mem_nil _,fun a ha b hb => ?_⟩
    rcases ha with ha | ha
    · exact hclosed a ha b hb
    · cases ha
  | succ n ih =>
    cases pending with
    | nil =>
      refine ⟨List.forall_mem_nil _,fun a ha b hb => ?_⟩
      rcases ha with ha | ha
      · exact hclosed a ha b hb
      · cases ha
    | cons id pending =>
      rw [List.length_cons] at hn
      unfold visit
      by_cases hid : id ∈ visited
      · rw [if_pos (List.contains_iff_mem.mpr hid)]
        have hclosed' : ∀ a ∈ visited, ∀ b ∈ p.parents a, b ∈ visited ∨ b ∈ pending := by
          intro a ha b hb
          rcases hclosed a ha b hb with hb | hb
          · exact .inl hb
          · rcases List.mem_cons.mp hb with rfl | hb
            · exact .inl hid
            · exact .inr hb
        obtain ⟨hcovers,hparents⟩ := ih (by omega) hclosed'
        exact ⟨List.forall_mem_cons.mpr ⟨.inl hid,hcovers⟩,hparents⟩
      · rw [if_neg (by simpa using hid)]
        have hsteps : (p.parents id ++ pending).length + p.unvisited (id :: visited) ≤ n := by
          have hleft := unvisited_cons (p := p) hid
          rw [List.length_append]
          omega
        have hclosed' : ∀ a ∈ id :: visited, ∀ b ∈ p.parents a,
            b ∈ id :: visited ∨ b ∈ p.parents id ++ pending := by
          intro a ha b hb
          rcases List.mem_cons.mp ha with rfl | ha
          · exact .inr (List.mem_append_left _ hb)
          · rcases hclosed a ha b hb with hb | hb
            · exact .inl (List.mem_cons_of_mem id hb)
            · rcases List.mem_cons.mp hb with rfl | hb
              · exact .inl List.mem_cons_self
              · exact .inr (List.mem_append_right _ hb)
        obtain ⟨hcovers,hparents⟩ := ih hsteps hclosed'
        have hmove (c : ClassId) (cs : List ClassId) :
            c ∈ id :: visited ∨ c ∈ cs ↔ c ∈ visited ∨ c ∈ id :: cs := by
          simp only [List.mem_cons]
          tauto
        simp only [hmove] at hcovers hparents
        refine ⟨List.forall_mem_cons.mpr ⟨.inr List.mem_cons_self,?_⟩,hparents⟩
        exact fun a ha => hcovers a (List.mem_append_right _ ha)

theorem reach_steps (p : Program) (id : ClassId) :
    [id].length + p.unvisited [] ≤ p.extensionCount + 1 := by
  have hle := unvisited_nil_le p
  rw [List.length_singleton]
  omega

/-- The visit finds exactly what the class reaches. -/
theorem mem_reach_iff {a b : ClassId} : b ∈ p.reach a ↔ p.Reaches a b := by
  constructor
  · intro h
    obtain ⟨c,hc,hcb⟩ := reaches_of_mem_visit h
    rwa [List.mem_singleton.mp hc] at hcb
  · intro h
    obtain ⟨hstart,hparents⟩ := visit_covers (reach_steps p a) (List.forall_mem_nil _)
    simp only [List.not_mem_nil, false_or] at hstart hparents
    induction h with
    | refl => exact hstart a List.mem_cons_self
    | tail _ hstep ih => exact hparents _ ih _ (mem_parents_iff.mpr hstep)

end Recast.Program
