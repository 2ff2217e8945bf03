import Mathlib.Data.List.Induction
import Recast.Program.Ordering

/-! # The sort is stable

Sorting by a total and transitive comparison puts a list in order and keeps what the comparison
does not tell apart in its old order. So sorting and selecting elements can be done in any order,
and the first element that is selected stays the first exactly if it is at most all the others.
-/
namespace Recast

/-- A comparison that a list can be sorted by. -/
structure SortOrder {α : Type} (le : α → α → Bool) : Prop where
  total : ∀ a b, le a b = true ∨ le b a = true
  trans : ∀ {a b c}, le a b = true → le b c = true → le a c = true

namespace SortOrder
variable {α : Type}

theorem byName (name : α → String) : SortOrder fun a b => decide (name a ≤ name b) where
  total a b := by simpa using String.le_total (name a) (name b)
  trans := by simpa using fun {a b c} => @String.le_trans (name a) (name b) (name c)

theorem leThen {next : α → α → Bool} (h : SortOrder next) (rank : α → Nat) :
    SortOrder fun a b => leThen (rank a) (rank b) (next a b) := by
  constructor
  · intro a b
    simp only [Recast.leThen, Bool.or_eq_true, Bool.and_eq_true, decide_eq_true_eq, beq_iff_eq]
    rcases Nat.lt_trichotomy (rank a) (rank b) with hlt | heq | hlt
    · exact .inl (.inl hlt)
    · exact (h.total a b).imp (fun hab => .inr ⟨heq,hab⟩) fun hba => .inr ⟨heq.symm,hba⟩
    · exact .inr (.inl hlt)
  · intro a b c hab hbc
    simp only [Recast.leThen, Bool.or_eq_true, Bool.and_eq_true, decide_eq_true_eq,
      beq_iff_eq] at hab hbc ⊢
    rcases hab with hab | ⟨hab,hnext⟩
    · left
      omega
    · rcases hbc with hbc | ⟨hbc,hnext'⟩
      · left
        omega
      · exact .inr ⟨hab.trans hbc,h.trans hnext hnext'⟩

end SortOrder

theorem sortOrder_class : SortOrder Class.le :=
  ((SortOrder.byName Class.name).leThen fun c => c.extensions.length).leThen
    fun c => c.declaration.rank

theorem sortOrder_routine : SortOrder Routine.le :=
  (SortOrder.byName Routine.name).leThen fun f => f.access.rank

theorem sortOrder_variable : SortOrder Variable.le :=
  ((SortOrder.byName Variable.name).leThen fun v => v.access.rank).leThen
    fun v => (!v.isStatic).toNat

section
variable {α : Type} {le : α → α → Bool} {x y : α} {xs ys : List α}

theorem perm_insertBy (le : α → α → Bool) (x : α) (xs : List α) :
    (insertBy le x xs).Perm (x :: xs) := by
  induction xs with
  | nil => exact .refl _
  | cons y ys ih =>
    unfold insertBy
    split
    · exact (ih.cons y).trans (.swap x y ys)
    · exact .refl _

/-- Sorting one more element is putting it into the sorted rest. -/
theorem sortBy_concat (le : α → α → Bool) (xs : List α) (x : α) :
    sortBy le (xs ++ [x]) = insertBy le x (sortBy le xs) := by
  simp [sortBy, List.foldl_append]

theorem perm_sortBy (le : α → α → Bool) (xs : List α) : (sortBy le xs).Perm xs := by
  induction xs using List.reverseRecOn with
  | nil => exact .refl _
  | append_singleton xs x ih =>
    rw [sortBy_concat]
    exact ((perm_insertBy le x _).trans (ih.cons x)).trans (List.perm_append_singleton x xs).symm

theorem mem_sortBy : y ∈ sortBy le xs ↔ y ∈ xs := (perm_sortBy le xs).mem_iff

theorem pairwise_insertBy (h : SortOrder le) (hs : xs.Pairwise fun a b => le a b = true) :
    (insertBy le x xs).Pairwise fun a b => le a b = true := by
  induction xs with
  | nil => exact List.pairwise_singleton _ x
  | cons y ys ih =>
    obtain ⟨hy,hys⟩ := List.pairwise_cons.mp hs
    unfold insertBy
    split
    · next hyx =>
      refine List.pairwise_cons.mpr ⟨?_,ih hys⟩
      intro z hz
      rcases List.mem_cons.mp ((perm_insertBy le x ys).mem_iff.mp hz) with rfl | hz
      · exact hyx
      · exact hy z hz
    · next hyx =>
      have hxy : le x y = true := (h.total x y).resolve_right hyx
      refine List.pairwise_cons.mpr ⟨?_,hs⟩
      intro z hz
      rcases List.mem_cons.mp hz with rfl | hz
      · exact hxy
      · exact h.trans hxy (hy z hz)

theorem pairwise_sortBy (h : SortOrder le) (xs : List α) :
    (sortBy le xs).Pairwise fun a b => le a b = true := by
  induction xs using List.reverseRecOn with
  | nil => exact .nil
  | append_singleton xs x ih =>
    rw [sortBy_concat]
    exact pairwise_insertBy h ih

theorem insertBy_of_forall_le (h : ∀ y ∈ xs, le y x = true) : insertBy le x xs = xs ++ [x] := by
  induction xs with
  | nil => rfl
  | cons y ys ih =>
    obtain ⟨hy,hys⟩ := List.forall_mem_cons.mp h
    rw [insertBy, if_pos hy, ih hys]
    rfl

/-- A list in order stays as it is, whatever the comparison. -/
theorem sortBy_of_pairwise (h : xs.Pairwise fun a b => le a b = true) : sortBy le xs = xs := by
  induction xs using List.reverseRecOn with
  | nil => rfl
  | append_singleton xs x ih =>
    obtain ⟨hxs,-,hx⟩ := List.pairwise_append.mp h
    rw [sortBy_concat, ih hxs]
    exact insertBy_of_forall_le fun y hy => hx y hy x List.mem_cons_self

theorem sortBy_sortBy (h : SortOrder le) (xs : List α) :
    sortBy le (sortBy le xs) = sortBy le xs := sortBy_of_pairwise (pairwise_sortBy h xs)

/-- Where the comparison tells all elements apart, the old order does not matter. -/
theorem sortBy_eq_of_perm (h : SortOrder le) (hp : xs.Perm ys)
    (hanti : ∀ a ∈ xs, ∀ b ∈ xs, le a b = true → le b a = true → a = b) :
    sortBy le xs = sortBy le ys := by
  have hperm : (sortBy le xs).Perm (sortBy le ys) :=
    ((perm_sortBy le xs).trans hp).trans (perm_sortBy le ys).symm
  refine hperm.eq_of_pairwise ?_ (pairwise_sortBy h xs) (pairwise_sortBy h ys)
  intro a b ha hb
  exact hanti a (mem_sortBy.mp ha) b (hp.mem_iff.mpr (mem_sortBy.mp hb))

/-- An element goes to the same place among the selected ones. -/
theorem filter_insertBy (h : SortOrder le) (q : α → Bool)
    (hs : xs.Pairwise fun a b => le a b = true) :
    (insertBy le x xs).filter q =
      if q x = true then insertBy le x (xs.filter q) else xs.filter q := by
  induction xs with
  | nil => cases hq : q x <;> simp [insertBy, hq]
  | cons y ys ih =>
    obtain ⟨hy,hys⟩ := List.pairwise_cons.mp hs
    have ih := ih hys
    by_cases hyx : le y x = true
    · cases hqx : q x <;> cases hqy : q y <;> simp_all [insertBy]
    · -- All of the rest is beyond `x`, so `x` comes before whatever is selected of it.
      have hfirst (zs : List α) (hz : ∀ z ∈ zs, le y z = true) : insertBy le x zs = x :: zs := by
        cases zs with
        | nil => rfl
        | cons z zs =>
          have hzx : ¬ le z x = true := fun hzx => hyx (h.trans (hz z List.mem_cons_self) hzx)
          simp [insertBy, hzx]
      have hle : ∀ z ∈ (y :: ys).filter q, le y z = true := by
        intro z hz
        rcases List.mem_cons.mp (List.mem_filter.mp hz).1 with rfl | hz
        · exact (h.total z z).elim id id
        · exact hy z hz
      rw [hfirst _ hle]
      cases hqx : q x <;> simp [insertBy, hyx, List.filter_cons, hqx]

theorem filter_sortBy (h : SortOrder le) (q : α → Bool) (xs : List α) :
    (sortBy le xs).filter q = sortBy le (xs.filter q) := by
  induction xs using List.reverseRecOn with
  | nil => rfl
  | append_singleton xs x ih =>
    rw [sortBy_concat, filter_insertBy h q (pairwise_sortBy h xs), ih, List.filter_append]
    cases hq : q x with
    | true => simp [hq, sortBy_concat]
    | false => simp [hq]

theorem head?_sortBy_of_le (hx : ∀ y ∈ xs, le x y = true) :
    (sortBy le (x :: xs)).head? = some x := by
  have hcons : ∃ ys, sortBy le (x :: xs) = x :: ys := by
    induction xs using List.reverseRecOn with
    | nil => exact ⟨[],rfl⟩
    | append_singleton xs y ih =>
      obtain ⟨ys,hys⟩ := ih fun z hz => hx z (List.mem_append_left _ hz)
      rw [← List.cons_append, sortBy_concat, hys]
      simp [insertBy, hx y]
  obtain ⟨ys,hys⟩ := hcons
  rw [hys]
  rfl

theorem le_of_head?_sortBy (h : SortOrder le) (hx : (sortBy le xs).head? = some x) :
    ∀ y ∈ xs, le x y = true := by
  intro y hy
  have hsorted := pairwise_sortBy h xs
  have hmem : y ∈ sortBy le xs := mem_sortBy.mpr hy
  obtain ⟨ys,hys⟩ := List.head?_eq_some_iff.mp hx
  rw [hys] at hsorted hmem
  rcases List.mem_cons.mp hmem with rfl | hmem
  · exact (h.total y y).elim id id
  · exact (List.pairwise_cons.mp hsorted).1 y hmem

/-- The first element that is selected is the same before and after sorting exactly if it is at most
all the others that can be selected. -/
theorem find?_sortBy_eq_iff (h : SortOrder le) (q : α → Bool) (xs : List α) :
    (sortBy le xs).find? q = xs.find? q ↔
      ∀ x, xs.find? q = some x → ∀ y ∈ xs, q y = true → le x y = true := by
  rw [← List.head?_filter, ← List.head?_filter, filter_sortBy h]
  cases hxs : xs.filter q with
  | nil => simp [sortBy]
  | cons x ys =>
    rw [List.head?_cons]
    constructor
    · rintro hx _ ⟨⟩ y hy hq
      exact le_of_head?_sortBy h hx y (hxs ▸ List.mem_filter.mpr ⟨hy,hq⟩)
    · intro hle
      apply head?_sortBy_of_le
      intro y hy
      have hmem : y ∈ xs.filter q := hxs ▸ List.mem_cons_of_mem x hy
      exact hle x rfl y (List.mem_filter.mp hmem).1 (List.mem_filter.mp hmem).2

end

theorem Class.sortMembers_sortMembers (c : Class) : c.sortMembers.sortMembers = c.sortMembers := by
  simp only [sortMembers, sortBy_sortBy sortOrder_variable, sortBy_sortBy sortOrder_routine]

theorem Program.sort_sort (p : Program) : p.sort.sort = p.sort := by
  have hordered : ((sortBy Class.le p.classes).map Class.sortMembers).Pairwise
      fun a b => Class.le a b = true := by
    -- The order of classes does not look at their members.
    rw [List.pairwise_map]
    exact pairwise_sortBy sortOrder_class p.classes
  have hmembers : Class.sortMembers ∘ Class.sortMembers = Class.sortMembers :=
    funext Class.sortMembers_sortMembers
  simp only [sort, sortBy_of_pairwise hordered, List.map_map, hmembers]

end Recast
