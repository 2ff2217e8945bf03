import Mathlib.Data.List.Forall2
import Mathlib.Data.List.Lex
import Mathlib.Data.Prod.Lex
import Mathlib.Data.String.Basic
import Recast.Proofs.Ordering.StableSort

/-! # What the final order is

The final order is given by keys that are compared part by part: classes by the rank of their
declaration, the number of their extensions and their name, variables by being static, their access
and their name, routines by their access and their name. What has one key keeps its order. There is
one program only that is ordered in this way, and ordering finds it.
-/
namespace Recast

namespace Declaration

/-- The forms that stand before all others, from the first to the last. -/
def leading : List Declaration := [.delegate, .enumDecl, .interface, .abstractDecl]

/-- Classes of the first form stand before those of the second one. -/
def Leads (a b : Declaration) : Prop := a ∈ leading ∧ (b ∉ leading ∨ [a, b].Sublist leading)

theorem rank_lt_iff {a b : Declaration} : a.rank < b.rank ↔ a.Leads b := by
  unfold Leads
  cases a <;> cases b <;> decide

end Declaration

namespace Access

def fromWidest : List Access := [.publicAccess, .internalAccess, .protectedAccess, .privateAccess]

def IsWider (a b : Access) : Prop := [a, b].Sublist fromWidest

theorem rank_lt_iff {a b : Access} : a.rank < b.rank ↔ a.IsWider b := by
  unfold IsWider
  cases a <;> cases b <;> decide

end Access

/-- A text as the numbers of its characters. -/
def codePoints (text : String) : List Nat := text.toList.map Char.toNat

theorem codePoints_le_iff {s t : String} : codePoints s ≤ codePoints t ↔ s ≤ t := by
  have hmono : StrictMono (List.map Char.toNat) := fun _ _ h => List.map_lt (fun _ _ => id) h
  rw [String.le_iff_toList_le]
  exact hmono.le_iff_le

def Class.sortKey (c : Class) : Nat ×ₗ Nat ×ₗ List Nat :=
  toLex (c.declaration.rank, toLex (c.extensions.length, codePoints c.name))

/-- Static variables come first. -/
def Variable.sortKey (v : Variable) : Nat ×ₗ Nat ×ₗ List Nat :=
  toLex (if v.isStatic then 0 else 1, toLex (v.access.rank, codePoints v.name))

def Routine.sortKey (f : Routine) : Nat ×ₗ List Nat := toLex (f.access.rank, codePoints f.name)

theorem leThen_iff {a b : Nat} {next : Bool} :
    leThen a b next = true ↔ a < b ∨ a = b ∧ next = true := by
  simp [leThen]

theorem Class.le_iff_sortKey {c d : Class} : c.le d = true ↔ c.sortKey ≤ d.sortKey := by
  simp only [Class.le, leThen_iff, decide_eq_true_eq, sortKey, Prod.Lex.toLex_le_toLex,
    codePoints_le_iff]

theorem Variable.le_iff_sortKey {v w : Variable} : v.le w = true ↔ v.sortKey ≤ w.sortKey := by
  simp only [Variable.le, leThen_iff, decide_eq_true_eq, sortKey, Prod.Lex.toLex_le_toLex,
    codePoints_le_iff]
  cases v.isStatic <;> cases w.isStatic <;> simp

theorem Routine.le_iff_sortKey {f g : Routine} : f.le g = true ↔ f.sortKey ≤ g.sortKey := by
  simp only [Routine.le, leThen_iff, decide_eq_true_eq, sortKey, Prod.Lex.toLex_le_toLex,
    codePoints_le_iff]

/-! ## The order without keys -/

/-- One thing stands before another by what comes first in them. If neither does, the rest
decides. -/
def FirstBy (before after rest : Prop) : Prop := before ∨ ¬ after ∧ rest

theorem lt_or_eq_and_iff {a b : Nat} {rest : Prop} :
    a < b ∨ a = b ∧ rest ↔ FirstBy (a < b) (b < a) rest := by
  unfold FirstBy
  rcases lt_trichotomy a b with h | rfl | h
  · simp [h]
  · simp
  · simp [h, h.not_gt, h.ne']

namespace Class

/-- By the form of the declarations, then by the number of extensions, then by name. -/
def Precedes (c d : Class) : Prop :=
  FirstBy (c.declaration.Leads d.declaration) (d.declaration.Leads c.declaration) <|
    FirstBy (c.extensions.length < d.extensions.length) (d.extensions.length < c.extensions.length)
      (c.name ≤ d.name)

theorem sortKey_le_iff {c d : Class} : c.sortKey ≤ d.sortKey ↔ c.Precedes d := by
  simp only [sortKey, Prod.Lex.toLex_le_toLex, codePoints_le_iff, lt_or_eq_and_iff]
  simp only [Declaration.rank_lt_iff, Precedes]

end Class

namespace Variable

/-- Static variables first, then by access from the widest, then by name. -/
def Precedes (v w : Variable) : Prop :=
  FirstBy (v.isStatic ∧ ¬ w.isStatic) (w.isStatic ∧ ¬ v.isStatic) <|
    FirstBy (v.access.IsWider w.access) (w.access.IsWider v.access) (v.name ≤ w.name)

theorem sortKey_le_iff {v w : Variable} : v.sortKey ≤ w.sortKey ↔ v.Precedes w := by
  have hstatic (v w : Variable) : (if v.isStatic then 0 else 1) < (if w.isStatic then 0 else 1) ↔
      v.isStatic ∧ ¬ w.isStatic := by
    cases v.isStatic <;> cases w.isStatic <;> simp
  simp only [sortKey, Prod.Lex.toLex_le_toLex, codePoints_le_iff, lt_or_eq_and_iff]
  simp only [hstatic, Access.rank_lt_iff, Precedes]

end Variable

namespace Routine

/-- By access from the widest, then by name. -/
def Precedes (f g : Routine) : Prop :=
  FirstBy (f.access.IsWider g.access) (g.access.IsWider f.access) (f.name ≤ g.name)

theorem sortKey_le_iff {f g : Routine} : f.sortKey ≤ g.sortKey ↔ f.Precedes g := by
  simp only [sortKey, Prod.Lex.toLex_le_toLex, codePoints_le_iff, lt_or_eq_and_iff]
  simp only [Access.rank_lt_iff, Precedes]

end Routine

section
variable {α κ : Type} [LinearOrder κ] {key : α → κ} {le : α → α → Bool} {xs ys zs : List α}

/-- A list in the order of its keys, with the elements of another list. The elements with one key
stand in the order in which they stand there. -/
structure StablySorted (key : α → κ) (xs ys : List α) : Prop where
  perm : ys.Perm xs
  ordered : ys.Pairwise fun a b => key a ≤ key b
  stable : ∀ k, (ys.filter fun a => key a = k) = xs.filter fun a => key a = k

theorem stablySorted_sortBy (h : SortOrder le) (hkey : ∀ {a b}, le a b = true ↔ key a ≤ key b)
    (xs : List α) : StablySorted key xs (sortBy le xs) where
  perm := perm_sortBy le xs
  ordered := (pairwise_sortBy h xs).imp hkey.mp
  stable k := by
    -- What has one key is in order whatever the order is, so sorting leaves it alone.
    rw [filter_sortBy h]
    refine sortBy_of_pairwise (List.pairwise_of_forall_mem_list fun a ha b hb => hkey.mpr ?_)
    have hka : key a = k := by simpa using (List.mem_filter.mp ha).2
    have hkb : key b = k := by simpa using (List.mem_filter.mp hb).2
    exact (hka.trans hkb.symm).le

theorem mem_iff_of_filter_key_eq
    (h : ∀ k, (ys.filter fun a => key a = k) = zs.filter fun a => key a = k) (a : α) :
    a ∈ ys ↔ a ∈ zs := by
  simpa using congrArg (a ∈ ·) (h (key a))

/-- Lists in order are equal if for each key they have the same elements in the same order. -/
theorem eq_of_filter_key_eq (hys : ys.Pairwise fun a b => key a ≤ key b)
    (hzs : zs.Pairwise fun a b => key a ≤ key b)
    (h : ∀ k, (ys.filter fun a => key a = k) = zs.filter fun a => key a = k) : ys = zs := by
  have hmem := mem_iff_of_filter_key_eq h
  induction ys generalizing zs with
  | nil =>
    refine (List.eq_nil_iff_forall_not_mem.mpr fun a ha => ?_).symm
    exact absurd ((hmem a).mpr ha) List.not_mem_nil
  | cons y ys ih =>
    cases zs with
    | nil => exact absurd ((hmem y).mp List.mem_cons_self) List.not_mem_nil
    | cons z zs =>
      rw [List.pairwise_cons] at hys hzs
      -- Both heads have the least key of all, and so they are the first elements with it.
      have hkey : key y = key z := by
        apply le_antisymm
        · rcases List.mem_cons.mp ((hmem z).mpr List.mem_cons_self) with rfl | hz
          · exact le_rfl
          · exact hys.1 z hz
        · rcases List.mem_cons.mp ((hmem y).mp List.mem_cons_self) with rfl | hy
          · exact le_rfl
          · exact hzs.1 y hy
      obtain ⟨rfl,hfirst⟩ : y = z ∧ (ys.filter fun a => key a = key y) =
          zs.filter fun a => key a = key y := by
        simpa [hkey] using h (key y)
      have htail (k : κ) : (ys.filter fun a => key a = k) = zs.filter fun a => key a = k := by
        by_cases hk : key y = k
        · exact hk ▸ hfirst
        · simpa [hk] using h k
      rw [ih hys.2 hzs.2 htail (mem_iff_of_filter_key_eq htail)]

theorem StablySorted.unique (hys : StablySorted key xs ys) (hzs : StablySorted key xs zs) :
    ys = zs :=
  eq_of_filter_key_eq hys.ordered hzs.ordered fun k => (hys.stable k).trans (hzs.stable k).symm

end

namespace Class
variable {c d : Class}

/-- A class with its members in order and nothing else changed. -/
structure MembersOrdered (c d : Class) : Prop where
  vars : StablySorted Variable.sortKey c.vars d.vars
  routines : StablySorted Routine.sortKey c.routines d.routines
  rest : d = { c with vars := d.vars, routines := d.routines }

theorem membersOrdered_sortMembers (c : Class) : c.MembersOrdered c.sortMembers where
  vars := stablySorted_sortBy sortOrder_variable Variable.le_iff_sortKey c.vars
  routines := stablySorted_sortBy sortOrder_routine Routine.le_iff_sortKey c.routines
  rest := rfl

theorem MembersOrdered.eq_sortMembers (h : c.MembersOrdered d) : c.sortMembers = d := by
  have hsorted := membersOrdered_sortMembers c
  rw [h.rest, h.vars.unique hsorted.vars, h.routines.unique hsorted.routines]
  rfl

end Class

namespace Program
variable {p q : Program}

/-- A program with its classes in order, and in each of them its members, which is closed to further
classes and in which nothing else is changed. -/
structure FinallyOrdered (p q : Program) : Prop where
  classes : ∃ cs, StablySorted Class.sortKey p.classes cs ∧
    List.Forall₂ Class.MembersOrdered cs q.classes
  ordered : q.classes.Pairwise fun c d => c.sortKey ≤ d.sortKey
  rest : q = { p with classes := q.classes, frozen := true }

theorem finallyOrdered_sort (p : Program) : p.FinallyOrdered p.sort where
  classes := by
    refine ⟨_,stablySorted_sortBy sortOrder_class Class.le_iff_sortKey p.classes,?_⟩
    refine List.forall₂_map_right_iff.mpr (List.forall₂_same.mpr fun c _ => ?_)
    exact c.membersOrdered_sortMembers
  ordered := List.pairwise_map.mpr
    ((pairwise_sortBy sortOrder_class p.classes).imp Class.le_iff_sortKey.mp)
  rest := rfl

theorem FinallyOrdered.eq_sort (h : p.FinallyOrdered q) : q = p.sort := by
  obtain ⟨cs,hcs,hmembers⟩ := h.classes
  obtain rfl : sortBy Class.le p.classes = cs :=
    (stablySorted_sortBy sortOrder_class Class.le_iff_sortKey p.classes).unique hcs
  have hclasses : (sortBy Class.le p.classes).map Class.sortMembers = q.classes := by
    rw [← List.forall₂_eq_eq_eq, List.forall₂_map_left_iff]
    exact hmembers.imp fun _ _ h => h.eq_sortMembers
  rw [h.rest, ← hclasses]
  rfl

/-- Of two classes, and of two members of a class, the one that precedes the other stands first. -/
structure ReadsInOrder (p : Program) : Prop where
  classes : p.classes.Pairwise Class.Precedes
  vars : ∀ c ∈ p.classes, c.vars.Pairwise Variable.Precedes
  routines : ∀ c ∈ p.classes, c.routines.Pairwise Routine.Precedes

theorem FinallyOrdered.readsInOrder (h : p.FinallyOrdered q) : q.ReadsInOrder := by
  obtain ⟨cs,-,hmembers⟩ := h.classes
  have hof (d : Class) (hd : d ∈ q.classes) : ∃ c : Class, c.MembersOrdered d := by
    obtain ⟨i,hi,rfl⟩ := List.getElem_of_mem hd
    exact ⟨_,hmembers.get (hmembers.length_eq ▸ hi) hi⟩
  refine ⟨h.ordered.imp Class.sortKey_le_iff.mp,fun d hd => ?_,fun d hd => ?_⟩
  · obtain ⟨c,hc⟩ := hof d hd
    exact hc.vars.ordered.imp Variable.sortKey_le_iff.mp
  · obtain ⟨c,hc⟩ := hof d hd
    exact hc.routines.ordered.imp Routine.sortKey_le_iff.mp

/-- The sorted program is the one program in the final order, and it is its own. -/
theorem sort_stable_idempotent (p : Program) :
    (∀ q, p.FinallyOrdered q ↔ q = p.sort) ∧ p.sort.sort = p.sort ∧ p.sort.ReadsInOrder := by
  refine ⟨fun q => ⟨FinallyOrdered.eq_sort,?_⟩,sort_sort p,(finallyOrdered_sort p).readsInOrder⟩
  rintro rfl
  exact finallyOrdered_sort p

end Program

end Recast
