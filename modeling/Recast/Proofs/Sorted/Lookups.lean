import Mathlib.Data.List.Nodup
import Recast.Sorted

/-! # Sorted maps by their look-ups

A map is what its look-ups give. Inserting changes one of them and extending prefers the second
map, so extending is associative, and a map is rebuilt from its own entries.
-/
namespace Recast

section
variable {α β : Type} [LT α] [DecidableLT α] [KeyOrder α] [DecidableEq α]

theorem find?_insertEntry (hirrefl : ∀ a : α, ¬ a < a) (key : α) (value : β)
    (es : List (α × β)) (k : α) :
    (insertEntry key value es).find? (fun e => e.1 = k) =
      if key = k then some (key,value) else es.find? fun e => e.1 = k := by
  induction es with
  | nil => by_cases hk : key = k <;> simp [insertEntry, hk]
  | cons e es ih =>
    unfold insertEntry
    split
    · by_cases hk : key = k <;> simp [hk]
    · next hlt =>
      split
      · next hgt =>
        rw [List.find?_cons, List.find?_cons, ih]
        by_cases he : e.1 = k
        · have hne : key ≠ k := by
            rintro rfl
            exact hirrefl key (he ▸ hgt)
          simp [he, hne]
        · simp [he]
      · next hgt =>
        have heq : key = e.1 := KeyOrder.eq_of_not_lt hlt hgt
        by_cases hk : key = k <;> simp [← heq, hk]

end

namespace SortedMap
variable {α β : Type} [LT α] [DecidableEq α]

theorem mem_entries_of_get? {m : SortedMap α β} {key : α} {value : β}
    (h : m.get? key = some value) : (key,value) ∈ m.entries := by
  obtain ⟨e,he,rfl⟩ := Option.map_eq_some_iff.mp h
  have hkey : e.1 = key := by simpa using List.find?_some he
  exact hkey ▸ List.mem_of_find?_eq_some he

/-- A key that is less than all others is not found behind them. -/
theorem find?_eq_none_of_forall_lt (hirrefl : ∀ a : α, ¬ a < a) {es : List (α × β)} {key : α}
    (h : ∀ e ∈ es, key < e.1) : es.find? (fun e => e.1 = key) = none := by
  rw [List.find?_eq_none]
  intro e he
  have hne : e.1 ≠ key := by
    rintro rfl
    exact hirrefl _ (h e he)
  simpa using hne

theorem get?_of_mem_entries (hirrefl : ∀ a : α, ¬ a < a) {m : SortedMap α β} {key : α} {value : β}
    (h : (key,value) ∈ m.entries) : m.get? key = some value := by
  obtain ⟨es,hes⟩ := m
  unfold get?
  dsimp only at h ⊢
  induction es with
  | nil => simp at h
  | cons e es ih =>
    obtain ⟨hlt,hrest⟩ := List.pairwise_cons.mp hes
    rcases List.mem_cons.mp h with rfl | h
    · simp
    · have hlt : e.1 < key := hlt _ h
      have hne : e.1 ≠ key := by
        rintro rfl
        exact hirrefl _ hlt
      rw [List.find?_cons_of_neg (by simpa using hne)]
      exact ih hrest h

variable [KeyOrder α]

/-- Maps with the same look-ups are equal. -/
theorem ext_get? (hirrefl : ∀ a : α, ¬ a < a) {m n : SortedMap α β}
    (h : ∀ key, m.get? key = n.get? key) : m = n := by
  have hnodup (m : SortedMap α β) : m.entries.Nodup := by
    apply m.increasing.imp
    rintro a _ hab rfl
    exact hirrefl a.1 hab
  have hmem (e : α × β) : e ∈ m.entries ↔ e ∈ n.entries := by
    constructor
    · intro he
      exact mem_entries_of_get? (h e.1 ▸ get?_of_mem_entries hirrefl he)
    · intro he
      exact mem_entries_of_get? ((h e.1).symm ▸ get?_of_mem_entries hirrefl he)
  have hperm : m.entries.Perm n.entries :=
    (List.perm_ext_iff_of_nodup (hnodup m) (hnodup n)).mpr hmem
  refine ext (hperm.eq_of_pairwise ?_ m.increasing n.increasing)
  intro a b _ _ hab hba
  exact absurd (KeyOrder.trans hab hba) (hirrefl a.1)

variable [DecidableLT α]

theorem get?_insert (hirrefl : ∀ a : α, ¬ a < a) (m : SortedMap α β) (key : α) (value : β)
    (k : α) : (m.insert key value).get? k = if key = k then some value else m.get? k := by
  unfold get? insert
  rw [find?_insertEntry hirrefl]
  split <;> rfl

theorem get?_extend (hirrefl : ∀ a : α, ¬ a < a) (m n : SortedMap α β) (k : α) :
    (m.extend n).get? k = (n.get? k).or (m.get? k) := by
  obtain ⟨es,hes⟩ := n
  unfold extend insertAll
  dsimp only
  induction es generalizing m with
  | nil => rfl
  | cons e es ih =>
    obtain ⟨hlt,hrest⟩ := List.pairwise_cons.mp hes
    rw [List.foldl_cons, ih _ hrest, get?_insert hirrefl]
    unfold get?
    by_cases hk : e.1 = k
    · subst hk
      simp [find?_eq_none_of_forall_lt hirrefl hlt]
    · simp [hk]

theorem extend_assoc (hirrefl : ∀ a : α, ¬ a < a) (m n o : SortedMap α β) :
    (m.extend n).extend o = m.extend (n.extend o) := by
  apply ext_get? hirrefl
  intro key
  rw [get?_extend hirrefl, get?_extend hirrefl, get?_extend hirrefl, get?_extend hirrefl,
    Option.or_assoc]

theorem ofList_entries (hirrefl : ∀ a : α, ¬ a < a) (m : SortedMap α β) :
    ofList m.entries = m := by
  apply ext_get? hirrefl
  intro key
  have hempty : (empty : SortedMap α β).get? key = none := rfl
  have hextend := get?_extend hirrefl empty m key
  rw [hempty, Option.or_none] at hextend
  exact hextend

end SortedMap

namespace SortedSet
variable {α : Type} [LT α]

theorem pairwise_toList (s : SortedSet α) : (toList s).Pairwise (· < ·) :=
  List.pairwise_map.mpr s.increasing

variable [DecidableLT α] [KeyOrder α]

theorem mem_add_iff {s : SortedSet α} {key k : α} :
    k ∈ toList (add s key) ↔ k = key ∨ k ∈ toList s := by
  constructor
  · intro h
    obtain ⟨e,he,rfl⟩ := List.mem_map.mp h
    rcases mem_insertEntry he with rfl | he
    · exact .inl rfl
    · exact .inr (List.mem_map_of_mem he)
  · rintro (rfl | h)
    · exact mem_add s k
    · exact keys_subset_insertEntry key () s.entries h

theorem mem_addAll_iff {s : SortedSet α} {keys : List α} {k : α} :
    k ∈ toList (addAll s keys) ↔ k ∈ keys ∨ k ∈ toList s := by
  induction keys generalizing s with
  | nil => simp [addAll]
  | cons key keys ih =>
    have hrest : k ∈ toList (addAll s (key :: keys)) ↔ k ∈ keys ∨ k ∈ toList (add s key) := ih
    rw [hrest, mem_add_iff, List.mem_cons, or_left_comm, or_assoc]

end SortedSet

end Recast
