/-! # Sorted maps, sorted sets and stable sorting

A `SortedMap` keeps its entries in strictly increasing key order, so two maps with the same
look-ups are equal. A `SortedSet` is the same for bare keys. `sortBy` is insertion sort: stable,
and it changes nothing that is in order already.
-/
namespace Recast

/-- The strict order of a type of keys: transitive, and keys that are not ordered are equal. -/
class KeyOrder (α : Type) [LT α] : Prop where
  trans {a b c : α} : a < b → b < c → a < c
  eq_of_not_lt {a b : α} : ¬ a < b → ¬ b < a → a = b

instance : KeyOrder String where
  trans := String.lt_trans
  eq_of_not_lt h h' := String.le_antisymm (String.not_lt.mp h') (String.not_lt.mp h)

instance : KeyOrder UInt32 where
  trans := UInt32.lt_trans
  eq_of_not_lt h h' := UInt32.le_antisymm (UInt32.not_lt.mp h') (UInt32.not_lt.mp h)

/-- The keys of a list of entries increase strictly. -/
def KeysIncrease {α β : Type} [LT α] (entries : List (α × β)) : Prop :=
  entries.Pairwise (fun a b => a.1 < b.1)

/-- Entries with a new binding put in its place; an old binding of the key is replaced. -/
def insertEntry {α β : Type} [LT α] [DecidableLT α] (key : α) (value : β) :
    List (α × β) → List (α × β)
  | [] => [(key, value)]
  | e :: es =>
    if key < e.1 then (key, value) :: e :: es
    else if e.1 < key then e :: insertEntry key value es
    else (key, value) :: es

section
variable {α β : Type} [LT α] [DecidableLT α]

theorem mem_insertEntry {key : α} {value : β} {es : List (α × β)} {e : α × β}
    (h : e ∈ insertEntry key value es) : e = (key, value) ∨ e ∈ es := by
  induction es with
  | nil => simpa [insertEntry] using h
  | cons a as ih =>
    unfold insertEntry at h
    split at h
    · simpa using h
    · split at h
      · rcases List.mem_cons.mp h with rfl | h
        · simp
        · rcases ih h with h | h <;> simp [h]
      · rcases List.mem_cons.mp h with h | h <;> simp [h]

theorem key_mem_insertEntry (key : α) (value : β) (es : List (α × β)) :
    key ∈ (insertEntry key value es).map Prod.fst := by
  induction es with
  | nil => simp [insertEntry]
  | cons a as ih =>
    unfold insertEntry
    split
    case isTrue => simp
    case isFalse =>
      split
      case isTrue => exact List.mem_cons_of_mem _ ih
      case isFalse => simp

variable [KeyOrder α]

theorem keysIncrease_insertEntry (key : α) (value : β) {es : List (α × β)}
    (h : KeysIncrease es) : KeysIncrease (insertEntry key value es) := by
  induction es with
  | nil => simp [insertEntry, KeysIncrease]
  | cons a as ih =>
    have hlt := (List.pairwise_cons.mp h).1
    have hrest := (List.pairwise_cons.mp h).2
    unfold insertEntry
    split
    case isTrue hk =>
      refine List.pairwise_cons.mpr ⟨?_, h⟩
      intro e he
      rcases List.mem_cons.mp he with rfl | he
      · exact hk
      · exact KeyOrder.trans hk (hlt e he)
    case isFalse hk =>
      split
      case isTrue ha =>
        refine List.pairwise_cons.mpr ⟨?_, ih hrest⟩
        intro e he
        rcases mem_insertEntry he with rfl | he
        · exact ha
        · exact hlt e he
      case isFalse ha =>
        have heq : key = a.1 := KeyOrder.eq_of_not_lt hk ha
        refine List.pairwise_cons.mpr ⟨?_, hrest⟩
        intro e he
        exact heq ▸ hlt e he

theorem keys_subset_insertEntry (key : α) (value : β) (es : List (α × β)) :
    es.map Prod.fst ⊆ (insertEntry key value es).map Prod.fst := by
  induction es with
  | nil => simp
  | cons a as ih =>
    unfold insertEntry
    split
    case isTrue => exact List.subset_cons_self ..
    case isFalse hk =>
      split
      case isTrue => exact List.cons_subset_cons _ ih
      case isFalse ha =>
        have heq : key = a.1 := KeyOrder.eq_of_not_lt hk ha
        simp [heq]

/-- A binding that is there already is put where it is. -/
theorem insertEntry_of_mem {key : α} {value : β} {es : List (α × β)} (h : KeysIncrease es)
    (hirrefl : ¬ key < key) (hmem : (key, value) ∈ es) : insertEntry key value es = es := by
  induction es with
  | nil => simp at hmem
  | cons a as ih =>
    obtain ⟨hlt, hrest⟩ := List.pairwise_cons.mp h
    unfold insertEntry
    rcases List.mem_cons.mp hmem with rfl | hmem
    · simp [hirrefl]
    · have ha : a.1 < key := hlt _ hmem
      have hk : ¬ key < a.1 := fun hk => hirrefl (KeyOrder.trans hk ha)
      rw [if_neg hk, if_pos ha, ih hrest hmem]

end

/-- A finite map whose entries stand in increasing key order. -/
structure SortedMap (α β : Type) [LT α] where
  entries : List (α × β)
  increasing : KeysIncrease entries

namespace SortedMap
variable {α β : Type} [LT α]

def empty : SortedMap α β := ⟨[], List.Pairwise.nil⟩

instance : Inhabited (SortedMap α β) := ⟨empty⟩

theorem ext {m n : SortedMap α β} (h : m.entries = n.entries) : m = n := by
  cases m; cases n; cases h; rfl

def isEmpty (m : SortedMap α β) : Bool := m.entries.isEmpty

def size (m : SortedMap α β) : Nat := m.entries.length

def toList (m : SortedMap α β) : List (α × β) := m.entries

def get? [DecidableEq α] (m : SortedMap α β) (key : α) : Option β :=
  (m.entries.find? (fun e => e.1 = key)).map Prod.snd

variable [DecidableLT α] [KeyOrder α]

/-- Bind a key; an earlier binding of it is replaced. -/
def insert (m : SortedMap α β) (key : α) (value : β) : SortedMap α β :=
  ⟨insertEntry key value m.entries, keysIncrease_insertEntry key value m.increasing⟩

/-- Bind the entries of a list from left to right, so the last binding of a key stays. -/
def insertAll (m : SortedMap α β) (entries : List (α × β)) : SortedMap α β :=
  entries.foldl (fun m e => m.insert e.1 e.2) m

def ofList (entries : List (α × β)) : SortedMap α β := insertAll empty entries

/-- The bindings of both maps; on a shared key the second map wins. -/
def extend (m n : SortedMap α β) : SortedMap α β := m.insertAll n.entries

end SortedMap

/-- A finite set of keys in increasing order. -/
abbrev SortedSet (α : Type) [LT α] := SortedMap α Unit

namespace SortedSet
variable {α : Type} [LT α]

def toList (s : SortedSet α) : List α := s.entries.map Prod.fst

def contains [DecidableEq α] (s : SortedSet α) (key : α) : Bool := (s.get? key).isSome

variable [DecidableLT α] [KeyOrder α]

def add (s : SortedSet α) (key : α) : SortedSet α := SortedMap.insert s key ()

def addAll (s : SortedSet α) (keys : List α) : SortedSet α := keys.foldl add s

/-- Nothing is lost by adding to a set. -/
theorem subset_addAll (s : SortedSet α) (keys : List α) : toList s ⊆ toList (addAll s keys) := by
  induction keys generalizing s with
  | nil => exact List.Subset.refl _
  | cons key keys ih =>
    have hadd : toList s ⊆ toList (add s key) := keys_subset_insertEntry key () s.entries
    exact List.Subset.trans hadd (ih (add s key))

theorem mem_add (s : SortedSet α) (key : α) : key ∈ toList (add s key) :=
  key_mem_insertEntry key () s.entries

theorem add_of_mem {s : SortedSet α} {key : α} (hirrefl : ¬ key < key) (h : key ∈ toList s) :
    add s key = s := by
  obtain ⟨e, he, rfl⟩ := List.mem_map.mp h
  exact SortedMap.ext (insertEntry_of_mem s.increasing hirrefl he)

end SortedSet

/-- Put `x` behind the elements that are at most `x`, in a list in order. -/
def insertBy {α : Type} (le : α → α → Bool) (x : α) : List α → List α
  | [] => [x]
  | y :: ys => if le y x then y :: insertBy le x ys else x :: y :: ys

/-- Stable insertion sort: elements are put in from left to right, each behind its equals. -/
def sortBy {α : Type} (le : α → α → Bool) (xs : List α) : List α :=
  xs.foldl (fun sorted x => insertBy le x sorted) []

end Recast
