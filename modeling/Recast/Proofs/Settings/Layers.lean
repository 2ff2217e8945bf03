import Mathlib.Data.List.Induction
import Recast.Proofs.Sorted.Lookups
import Recast.Settings

/-! # Layers of settings

Settings are merged layer by layer. How the layers are grouped does not matter, and merged settings
do to a target what their layers do one after the other. A registry of known classes answers with
the entry that was registered last.
-/
namespace Recast

namespace Rules

theorem union_concat (xs ys : List String) (y : String) :
    union xs (ys ++ [y]) = if y ∈ union xs ys then union xs ys else union xs ys ++ [y] := by
  simp [union, List.foldl_append]

theorem mem_union {xs ys : List String} {x : String} : x ∈ union xs ys ↔ x ∈ xs ∨ x ∈ ys := by
  induction ys using List.reverseRecOn with
  | nil => simp [union]
  | append_singleton ys y ih =>
    rw [union_concat]
    split
    · next hy =>
      rw [ih, List.mem_append, List.mem_singleton]
      constructor
      · exact Or.imp_right .inl
      · rintro (hx | hx | rfl)
        · exact .inl hx
        · exact .inr hx
        · exact ih.mp hy
    · rw [List.mem_append, ih, List.mem_append, or_assoc]

theorem union_assoc (xs ys zs : List String) :
    union (union xs ys) zs = union xs (union ys zs) := by
  induction zs using List.reverseRecOn with
  | nil => rfl
  | append_singleton zs z ih =>
    rw [union_concat, union_concat ys, ih]
    by_cases hz : z ∈ union ys zs
    · have hmem : z ∈ union xs (union ys zs) := mem_union.mpr (.inr hz)
      rw [if_pos hz, if_pos hmem]
    · rw [if_neg hz, union_concat]

theorem matchesAny_union (xs ys : List String) (name : String) :
    matchesAny (union xs ys) name = (matchesAny xs name || matchesAny ys name) := by
  rw [Bool.eq_iff_iff, Bool.or_eq_true]
  simp only [matchesAny, List.any_eq_true, mem_union, or_and_right, exists_or]

theorem merge_assoc (r s t : Rules) : (r.merge s).merge t = r.merge (s.merge t) := by
  simp only [merge, union_assoc, SortedMap.extend_assoc String.lt_irrefl]

end Rules

namespace KnownClasses

/-- The entry is for the name and the arity. -/
def isFor (name : String) (arity : Nat) (c : KnownClass) : Bool :=
  c.name == name && c.arity == arity

theorem isFor_iff {name : String} {arity : Nat} {c : KnownClass} :
    isFor name arity c = true ↔ c.name = name ∧ c.arity = arity := by simp [isFor]

theorem entries_register (k : KnownClasses) (c : KnownClass) :
    (k.register c).entries = k.entries.filter (fun d => !isFor c.name c.arity d) ++ [c] := rfl

theorem registerAll_concat (k : KnownClasses) (cs : List KnownClass) (c : KnownClass) :
    k.registerAll (cs ++ [c]) = (k.registerAll cs).register c := by
  simp [registerAll, List.foldl_append]

theorem registerAll_append (k : KnownClasses) (cs ds : List KnownClass) :
    k.registerAll (cs ++ ds) = (k.registerAll cs).registerAll ds := List.foldl_append

/-- Entries for one name and arity leave the entries for others as they are. -/
theorem filter_registerAll (k : KnownClasses) (cs : List KnownClass) (name : String)
    (arity : Nat) :
    (k.registerAll (cs.filter fun d => !isFor name arity d)).entries.filter
        (fun d => !isFor name arity d) =
      (k.registerAll cs).entries.filter fun d => !isFor name arity d := by
  induction cs using List.reverseRecOn with
  | nil => rfl
  | append_singleton cs c ih =>
    rw [List.filter_append, registerAll_concat, entries_register, List.filter_append]
    by_cases hc : isFor name arity c = true
    · obtain ⟨rfl,rfl⟩ := isFor_iff.mp hc
      simp [hc, ih]
    · have hone : [c].filter (fun d => !isFor name arity d) = [c] := by simp [hc]
      rw [hone, registerAll_concat, entries_register, List.filter_append, hone, List.filter_comm,
        ih, List.filter_comm]

/-- Registering what was registered elsewhere is registering all of it. -/
theorem registerAll_registerAll (k : KnownClasses) (cs ds : List KnownClass) :
    k.registerAll ((⟨cs⟩ : KnownClasses).registerAll ds).entries =
      (k.registerAll cs).registerAll ds := by
  induction ds using List.reverseRecOn with
  | nil => rfl
  | append_singleton ds d ih =>
    rw [registerAll_concat, entries_register, registerAll_concat, registerAll_concat, ← ih]
    unfold register
    exact congrArg (fun es => (⟨es ++ [d]⟩ : KnownClasses)) (filter_registerAll ..)

/-- What is found for a name and an arity is what was registered last for them. -/
theorem find?_registerAll (k : KnownClasses) (cs : List KnownClass) (name : String)
    (arity : Nat) :
    (k.registerAll cs).entries.find? (isFor name arity) =
      (cs.reverse.find? (isFor name arity)).or (k.entries.find? (isFor name arity)) := by
  induction cs using List.reverseRecOn with
  | nil => rfl
  | append_singleton cs c ih =>
    rw [registerAll_concat, entries_register, List.find?_append, List.reverse_append]
    by_cases hc : isFor name arity c = true
    · obtain ⟨rfl,rfl⟩ := isFor_iff.mp hc
      have hnone : ((k.registerAll cs).entries.filter fun d => !isFor c.name c.arity d).find?
          (isFor c.name c.arity) = none := by
        rw [List.find?_eq_none]
        intro d hd
        simpa using (List.mem_filter.mp hd).2
      simp [hnone, hc]
    · have hkept : ((k.registerAll cs).entries.filter fun d => !isFor c.name c.arity d).find?
          (isFor name arity) = (k.registerAll cs).entries.find? (isFor name arity) := by
        rw [List.find?_filter]
        congr 1
        funext d
        by_cases hd : isFor name arity d = true
        · obtain ⟨rfl,rfl⟩ := isFor_iff.mp hd
          have hne : isFor c.name c.arity d = false := by
            rw [← Bool.not_eq_true]
            intro heq
            obtain ⟨hname,harity⟩ := isFor_iff.mp heq
            exact hc (isFor_iff.mpr ⟨hname.symm,harity.symm⟩)
          simp [hd, hne]
        · simp [hd]
      rw [hkept, ih]
      simp [hc]

/-- The entry that was registered last for a name and an arity. -/
def latest? (cs : List KnownClass) (name : String) (arity : Nat) : Option KnownClass :=
  cs.reverse.find? (isFor name arity)

theorem get?_ofList (cs : List KnownClass) (name : String) (arity : Nat) :
    (ofList cs).get? name arity =
      if 0 < arity ∧ (latest? cs name arity).isSome then latest? cs name arity
      else latest? cs name 0 := by
  have hfind (n : Nat) : (ofList cs).entries.find? (isFor name n) = latest? cs name n := by
    rw [ofList, find?_registerAll]
    exact Option.or_none
  have hany : (ofList cs).entries.find? (fun c => c.name == name && c.arity == 0) =
      latest? cs name 0 := hfind 0
  unfold get?
  rw [hany]
  by_cases harity : 0 < arity
  · have hexact : ((ofList cs).entries.find? fun c =>
        c.name == name && c.arity == arity && decide (0 < arity)) = latest? cs name arity := by
      simp only [harity, decide_true, Bool.and_true]
      exact hfind arity
    rw [hexact]
    cases latest? cs name arity <;> simp [harity]
  · have hexact : ((ofList cs).entries.find? fun c =>
        c.name == name && c.arity == arity && decide (0 < arity)) = none := by simp [harity]
    rw [hexact]
    simp [harity]

end KnownClasses

namespace Defines

theorem mem_toList_define {d : Defines} {written symbol : String} :
    symbol ∈ (d.define written).toList ↔
      symbol ∈ d.toList ∨ symbol ≠ "" ∧ Text.trim written = symbol := by
  unfold define
  by_cases hblank : Text.trim written = ""
  · simp only [hblank, beq_self_eq_true, if_true]
    constructor
    · exact .inl
    · rintro (h | ⟨hne,rfl⟩)
      · exact h
      · exact absurd rfl hne
  · simp only [beq_iff_eq, hblank, if_false]
    rw [toList, SortedSet.mem_add_iff, or_comm]
    apply or_congr_right
    constructor
    · rintro rfl
      exact ⟨hblank,rfl⟩
    · rintro ⟨-,rfl⟩
      rfl

theorem mem_toList_defineAll {d : Defines} {symbols : List String} {symbol : String} :
    symbol ∈ (d.defineAll symbols).toList ↔
      symbol ∈ d.toList ∨ symbol ≠ "" ∧ ∃ written ∈ symbols, Text.trim written = symbol := by
  induction symbols generalizing d with
  | nil => simp [defineAll]
  | cons written symbols ih =>
    have hcons : d.defineAll (written :: symbols) = (d.define written).defineAll symbols := rfl
    rw [hcons, ih, mem_toList_define, or_assoc, ← and_or_left]
    simp

end Defines

namespace Settings

theorem merge_assoc (a b c : Settings) : (a.merge b).merge c = a.merge (b.merge c) := by
  unfold merge
  dsimp only
  rw [Rules.merge_assoc, Rules.union_assoc, SortedMap.extend_assoc String.lt_irrefl,
    ← KnownClasses.registerAll_registerAll]

theorem mem_toList_defines {s : Settings} {target : List String} {symbol : String} :
    symbol ∈ (s.defines target).toList ↔
      symbol ≠ "" ∧ ∃ written ∈ target ++ s.symbols, Text.trim written = symbol := by
  have hempty : ({} : Defines).toList = [] := rfl
  unfold defines
  rw [Defines.mem_toList_defineAll, Defines.mem_toList_defineAll, hempty]
  simp only [List.not_mem_nil, false_or, List.mem_append, or_and_right, exists_or, and_or_left]

/-- A registry that layers of settings are put on holds what they register, in turn. -/
theorem foldl_known (registered : List KnownClass) (layers : List Settings) :
    layers.foldl (fun k s => s.known k) (.ofList registered) =
      .ofList (registered ++ layers.flatMap knownClasses) := by
  induction layers generalizing registered with
  | nil => simp
  | cons s layers ih =>
    have hknown : s.known (.ofList registered) = .ofList (registered ++ s.knownClasses) :=
      (KnownClasses.registerAll_append ..).symm
    rw [List.foldl_cons, hknown, ih, List.flatMap_cons, List.append_assoc]

/-- Layers compose. Merging is associative, and merged settings do to the tables of a target what
the first layer and then the second one do: to its types, to its known classes, to its symbols, of
which those that are not blank are defined as they are without the white space around them, and to
what is left out. A registry that any number of layers was put on answers with the entry that was
registered last for the name and the arity, or else for the name and any arity. -/
theorem layers_compose (a b : Settings) :
    (∀ c, (a.merge b).merge c = a.merge (b.merge c)) ∧
      (∀ table, (a.merge b).typeTable table = b.typeTable (a.typeTable table)) ∧
      (∀ registry, (a.merge b).known registry = b.known (a.known registry)) ∧
      (∀ target symbol, symbol ∈ ((a.merge b).defines target).toList ↔
        symbol ≠ "" ∧ ∃ written ∈ target ++ a.symbols ++ b.symbols, Text.trim written = symbol) ∧
      (∀ name, (a.merge b).rules.ignoresNamespace name =
        (a.rules.ignoresNamespace name || b.rules.ignoresNamespace name)) ∧
      (∀ name, (a.merge b).rules.ignoresClass name =
        (a.rules.ignoresClass name || b.rules.ignoresClass name)) ∧
      ∀ (registered : List KnownClass) (layers : List Settings) (name : String) (arity : Nat),
        let all := registered ++ layers.flatMap knownClasses
        let registry := layers.foldl (fun k s => s.known k) (.ofList registered)
        registry.get? name arity =
          if 0 < arity ∧ (KnownClasses.latest? all name arity).isSome then
            KnownClasses.latest? all name arity
          else KnownClasses.latest? all name 0 := by
  refine ⟨merge_assoc a b,?_,?_,?_,?_,?_,?_⟩
  · intro table
    exact (SortedMap.extend_assoc String.lt_irrefl ..).symm
  · intro registry
    exact KnownClasses.registerAll_registerAll ..
  · intro target symbol
    have hsymbols : (a.merge b).symbols = Rules.union a.symbols b.symbols := rfl
    rw [mem_toList_defines]
    simp only [hsymbols, List.mem_append, Rules.mem_union, or_assoc]
  · intro name
    exact Rules.matchesAny_union ..
  · intro name
    exact Rules.matchesAny_union ..
  · intro registered layers name arity
    dsimp only
    rw [foldl_known, KnownClasses.get?_ofList]

end Settings

end Recast
