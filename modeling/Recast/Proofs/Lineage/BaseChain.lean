import Mathlib.Data.Finset.Card
import Mathlib.Data.List.Chain
import Mathlib.Data.List.Nodup
import Mathlib.Order.Bounds.Basic
import Recast.Proofs.Lineage.Reach

/-! # The chain of bases

The climb from a class to its bases lists every class that is reached through bases alone, each once
and without the class itself. A class is pending once at most, so the climb ends after at most as
many steps as there are classes, cycles or not. Where no class has two bases, the list is a path, and
the place of a base in it is its distance.
-/
namespace Recast.Program
variable {p : Program} {start id a b c : ClassId} {n : Nat} {chain pending result : List ClassId}

/-- One class extends another one by a name that finds it, and this one is not an interface. -/
def BaseStep (p : Program) (a b : ClassId) : Prop :=
  ∃ c d name, p.class? a = some c ∧ name ∈ c.extensions ∧ p.find? name = some b ∧
    p.class? b = some d ∧ d.isInterface = false

/-- A base at the end of `n` steps. -/
inductive ClimbsIn (p : Program) (start : ClassId) : Nat → ClassId → Prop
  | zero : ClimbsIn p start 0 start
  | succ {n : Nat} {a b : ClassId} (h : ClimbsIn p start n a) (hstep : p.BaseStep a b) :
      ClimbsIn p start (n + 1) b

def namesBase (p : Program) (name : String) : Bool :=
  (p.find? name).any fun b => !p.isInterfaceId b

/-- No class has two extensions that name a base. -/
def SingleBased (p : Program) : Prop :=
  ∀ c ∈ p.classes, c.extensions.countP p.namesBase ≤ 1

instance (p : Program) : Decidable p.SingleBased :=
  inferInstanceAs (Decidable (∀ c ∈ p.classes, c.extensions.countP p.namesBase ≤ 1))

/-- The climb without a bound on its steps, from what is found and pending to its result. -/
inductive Climbs (p : Program) (start : ClassId) :
    List ClassId → List ClassId → List ClassId → Prop
  | done (chain : List ClassId) : Climbs p start chain [] chain
  | step {chain pending result : List ClassId} {id : ClassId}
      (h : Climbs p start (chain ++ unseen (start :: chain) (p.bases id))
        ((unseen (start :: chain) (p.bases id)).reverse ++ pending) result) :
      Climbs p start chain (id :: pending) result

theorem lt_size_of_find? {name : String} (h : p.find? name = some b) : b < p.size :=
  (List.findIdx?_eq_some_iff_getElem.mp h).1

theorem exists_class?_of_lt (h : b < p.size) : ∃ c, p.class? b = some c :=
  ⟨_,List.getElem?_eq_getElem h⟩

theorem mem_bases_iff : b ∈ p.bases a ↔ p.BaseStep a b := by
  rw [bases, List.mem_filter, mem_parents_iff]
  constructor
  · rintro ⟨⟨c,name,hc,hname,hfind⟩,hb⟩
    obtain ⟨d,hd⟩ := exists_class?_of_lt (lt_size_of_find? hfind)
    refine ⟨c,d,name,hc,hname,hfind,hd,?_⟩
    simpa [isInterfaceId, hd] using hb
  · rintro ⟨c,d,name,hc,hname,hfind,hd,hb⟩
    exact ⟨⟨c,name,hc,hname,hfind⟩,by simp [isInterfaceId, hd, hb]⟩

theorem lt_size_of_mem_bases (h : b ∈ p.bases a) : b < p.size := by
  obtain ⟨_,_,_,-,-,hfind,-⟩ := mem_bases_iff.mp h
  exact lt_size_of_find? hfind

theorem SingleBased.length_bases_le (h : p.SingleBased) (a : ClassId) :
    (p.bases a).length ≤ 1 := by
  unfold bases parents
  cases hc : p.class? a with
  | none => simp
  | some c =>
    have hmem : c ∈ p.classes := List.mem_of_getElem? hc
    have hcount : ((c.extensions.filterMap p.find?).filter fun b => !p.isInterfaceId b).length =
        c.extensions.countP p.namesBase := by
      rw [← List.countP_eq_length_filter, List.countP_filterMap]
      refine List.countP_congr fun name _ => ?_
      unfold namesBase
      cases p.find? name <;> simp
    exact hcount.trans_le (h c hmem)

section Unseen
variable {seen cs : List ClassId}

theorem mem_unseen_iff : b ∈ unseen seen cs ↔ b ∈ cs ∧ b ∉ seen := by
  induction cs generalizing seen with
  | nil => simp [unseen]
  | cons c cs ih =>
    unfold unseen
    by_cases hc : c ∈ seen
    · rw [if_pos (List.contains_iff_mem.mpr hc), ih, List.mem_cons]
      constructor
      · exact fun h => ⟨.inr h.1,h.2⟩
      · rintro ⟨rfl | hb,hseen⟩
        · exact absurd hc hseen
        · exact ⟨hb,hseen⟩
    · rw [if_neg (by simpa using hc), List.mem_cons, List.mem_cons, ih, List.mem_cons]
      constructor
      · rintro (rfl | ⟨hb,hseen⟩)
        · exact ⟨.inl rfl,hc⟩
        · exact ⟨.inr hb,fun h => hseen (.inr h)⟩
      · rintro ⟨rfl | hb,hseen⟩
        · exact .inl rfl
        · by_cases hbc : b = c
          · exact .inl hbc
          · exact .inr ⟨hb,fun h => h.elim hbc hseen⟩

theorem nodup_unseen (seen cs : List ClassId) : (unseen seen cs).Nodup := by
  induction cs generalizing seen with
  | nil => exact .nil
  | cons c cs ih =>
    unfold unseen
    split
    · exact ih seen
    · refine List.nodup_cons.mpr ⟨fun h => ?_,ih _⟩
      exact (mem_unseen_iff.mp h).2 List.mem_cons_self

/-- What is new goes behind what is found, and still nothing is there twice. -/
theorem nodup_append_unseen (h : (start :: chain).Nodup) (cs : List ClassId) :
    (start :: (chain ++ unseen (start :: chain) cs)).Nodup := by
  rw [← List.cons_append]
  refine h.append (nodup_unseen _ _) fun b hb hnew => ?_
  exact (mem_unseen_iff.mp hnew).2 hb

end Unseen

/-! ## The climb ends -/

def unfound (p : Program) (seen : List ClassId) : Nat :=
  (Finset.range p.size \ seen.toFinset).card

/-- A step takes the new bases away from the classes that are not found yet. -/
theorem unfound_append_unseen (p : Program) (seen : List ClassId) (id : ClassId) :
    p.unfound (seen ++ unseen seen (p.bases id)) + (unseen seen (p.bases id)).length =
      p.unfound seen := by
  have hsub : (unseen seen (p.bases id)).toFinset ⊆ Finset.range p.size \ seen.toFinset := by
    intro b hb
    obtain ⟨hbase,hseen⟩ := mem_unseen_iff.mp (List.mem_toFinset.mp hb)
    have hlt := lt_size_of_mem_bases hbase
    simp [hlt, hseen]
  have hcard := Finset.card_sdiff_add_card_eq_card hsub
  rwa [List.toFinset_card_of_nodup (nodup_unseen _ _), sdiff_sdiff_left,
    Finset.sup_eq_union, ← List.toFinset_append] at hcard

/-- The bound is never felt if it covers what is pending and what can still become pending. -/
theorem climbs_climb (hn : pending.length + p.unfound (start :: chain) ≤ n) :
    p.Climbs start chain pending (p.climb start n chain pending) := by
  induction n generalizing chain pending with
  | zero =>
    obtain rfl : pending = [] := List.length_eq_zero_iff.mp (by omega)
    exact .done chain
  | succ n ih =>
    cases pending with
    | nil => exact .done chain
    | cons id pending =>
      refine .step (ih ?_)
      -- One class is taken from what is pending, and whatever is added to it is found by now.
      have hleft := unfound_append_unseen p (start :: chain) id
      rw [List.cons_append] at hleft
      simp only [List.length_append, List.length_reverse, List.length_cons] at hn ⊢
      omega

theorem climbs_baseChain (p : Program) (id : ClassId) : p.Climbs id [] [id] (p.baseChain id) := by
  refine climbs_climb ?_
  have hle : p.unfound [id] ≤ p.size := by
    simpa [unfound] using Finset.card_le_card
      (Finset.sdiff_subset (s := Finset.range p.size) (t := [id].toFinset))
  rw [List.length_singleton]
  omega

/-! ## What the climb finds -/

theorem Climbs.nodup (h : p.Climbs start chain pending result) (hchain : (start :: chain).Nodup) :
    (start :: result).Nodup := by
  induction h with
  | done => exact hchain
  | step _ ih => exact ih (nodup_append_unseen hchain _)

theorem Climbs.sound (h : p.Climbs start chain pending result)
    (hchain : ∀ b ∈ chain, Relation.TransGen p.BaseStep start b)
    (hpending : ∀ a ∈ pending, Relation.ReflTransGen p.BaseStep start a) :
    ∀ b ∈ result, Relation.TransGen p.BaseStep start b := by
  induction h with
  | done => exact hchain
  | @step chain pending _ id _ ih =>
    have hnew : ∀ b ∈ unseen (start :: chain) (p.bases id),
        Relation.TransGen p.BaseStep start b := by
      intro b hb
      have hstep := mem_bases_iff.mp (mem_unseen_iff.mp hb).1
      exact .tail' (hpending id List.mem_cons_self) hstep
    refine ih ?_ ?_
    · intro b hb
      exact (List.mem_append.mp hb).elim (hchain b) (hnew b)
    · intro a ha
      rcases List.mem_append.mp ha with ha | ha
      · exact (hnew a (List.mem_reverse.mp ha)).to_reflTransGen
      · exact hpending a (List.mem_cons_of_mem id ha)

/-- In the end, the bases of whatever is found are found. Until then, this holds of all classes
that are not pending. -/
theorem Climbs.closed (h : p.Climbs start chain pending result)
    (hchain : ∀ a ∈ start :: chain, a ∉ pending → ∀ b, p.BaseStep a b → b ∈ start :: chain) :
    ∀ a ∈ start :: result, ∀ b, p.BaseStep a b → b ∈ start :: result := by
  induction h with
  | done => exact fun a ha => hchain a ha List.not_mem_nil
  | @step chain pending _ id _ ih =>
    refine ih fun a ha hnot b hab => ?_
    rw [← List.cons_append] at ha ⊢
    rw [List.mem_append, List.mem_reverse, not_or] at hnot
    have hold : a ∈ start :: chain := (List.mem_append.mp ha).resolve_right hnot.1
    by_cases hid : a = id
    · by_cases hb : b ∈ start :: chain
      · exact List.mem_append_left _ hb
      · refine List.mem_append_right _ (mem_unseen_iff.mpr ⟨?_,hb⟩)
        exact mem_bases_iff.mpr (hid ▸ hab)
    · refine List.mem_append_left _ (hchain a hold ?_ b hab)
      exact fun h => (List.mem_cons.mp h).elim hid hnot.2

theorem nodup_cons_baseChain (p : Program) (id : ClassId) : (id :: p.baseChain id).Nodup :=
  (climbs_baseChain p id).nodup (List.nodup_singleton id)

/-- The chain has exactly the other classes that can be reached through bases. -/
theorem mem_baseChain_iff :
    b ∈ p.baseChain id ↔ b ≠ id ∧ Relation.TransGen p.BaseStep id b := by
  have hclimbs := climbs_baseChain p id
  constructor
  · intro hb
    refine ⟨fun hid => (List.nodup_cons.mp (nodup_cons_baseChain p id)).1 (hid ▸ hb),?_⟩
    refine hclimbs.sound (List.forall_mem_nil _) ?_ b hb
    exact List.forall_mem_cons.mpr ⟨.refl,List.forall_mem_nil _⟩
  · rintro ⟨hne,hreach⟩
    have hclosed := hclimbs.closed fun a ha hnot => absurd ha hnot
    have hmem : b ∈ id :: p.baseChain id := by
      clear hne
      induction hreach with
      | single hstep => exact hclosed id List.mem_cons_self _ hstep
      | tail _ hstep ih => exact hclosed _ ih _ hstep
    exact (List.mem_cons.mp hmem).resolve_left hne

/-! ## The order of single bases -/

namespace SingleBased

theorem eq_of_baseStep (h : p.SingleBased) (hb : p.BaseStep a b) (hc : p.BaseStep a c) :
    b = c := by
  have hle := h.length_bases_le a
  rw [← mem_bases_iff] at hb hc
  cases hbases : p.bases a with
  | nil => simp [hbases] at hb
  | cons d ds =>
    rw [hbases, List.length_cons] at hle
    obtain rfl : ds = [] := List.length_eq_zero_iff.mp (by omega)
    rw [hbases, List.mem_singleton] at hb hc
    exact hb.trans hc.symm

theorem eq_of_climbsIn (h : p.SingleBased) (hb : p.ClimbsIn start n b)
    (hc : p.ClimbsIn start n c) : b = c := by
  induction hb generalizing c with
  | zero => cases hc; rfl
  | succ _ hstep ih =>
    cases hc with
    | succ hc hstep' =>
      cases ih hc
      exact h.eq_of_baseStep hstep hstep'

theorem unseen_bases (h : p.SingleBased) (seen : List ClassId) (a : ClassId) :
    unseen seen (p.bases a) = [] ∨ ∃ b, p.BaseStep a b ∧ unseen seen (p.bases a) = [b] := by
  cases hnew : unseen seen (p.bases a) with
  | nil => exact .inl rfl
  | cons b bs =>
    have hstep {d : ClassId} (hd : d ∈ b :: bs) : p.BaseStep a d :=
      mem_bases_iff.mp (mem_unseen_iff.mp (hnew ▸ hd)).1
    have hnodup : (b :: bs).Nodup := hnew ▸ nodup_unseen seen (p.bases a)
    refine .inr ⟨b,hstep List.mem_cons_self,?_⟩
    cases bs with
    | nil => rfl
    | cons d ds =>
      have heq : b = d := h.eq_of_baseStep (hstep (by simp)) (hstep (by simp))
      simp [heq] at hnodup

/-- The climb follows a path, of which at most the end is pending. -/
theorem isChain_of_climbs (hp : p.SingleBased) (h : p.Climbs start chain pending result)
    (hchain : (start :: chain).IsChain p.BaseStep)
    (hpending : ∀ a ∈ pending, pending = [a] ∧ (start :: chain).getLast? = some a) :
    (start :: result).IsChain p.BaseStep := by
  induction h with
  | done => exact hchain
  | @step chain pending _ id _ ih =>
    obtain ⟨hnil,hlast⟩ := hpending id List.mem_cons_self
    obtain rfl : pending = [] := (List.cons.inj hnil).2
    rcases hp.unseen_bases (start :: chain) id with hnew | ⟨b,hstep,hnew⟩
    · rw [hnew] at ih
      exact ih (by simpa using hchain) (by simp)
    · rw [hnew, ← List.cons_append] at ih
      refine ih ?_ (List.forall_mem_singleton.mpr ⟨rfl,List.getLast?_concat⟩)
      refine List.isChain_append.mpr ⟨hchain,List.isChain_singleton b,?_⟩
      simp [hlast, hstep]

theorem isChain_baseChain (h : p.SingleBased) (id : ClassId) :
    (id :: p.baseChain id).IsChain p.BaseStep :=
  h.isChain_of_climbs (climbs_baseChain p id) (List.isChain_singleton id) (by simp)

end SingleBased

theorem climbsIn_of_isChain (h : (start :: chain).IsChain p.BaseStep)
    (hb : (start :: chain)[n]? = some b) : p.ClimbsIn start n b := by
  induction n generalizing b with
  | zero =>
    cases hb
    exact .zero
  | succ n ih =>
    obtain ⟨hlt,rfl⟩ := List.getElem?_eq_some_iff.mp hb
    have hstep := List.isChain_iff_getElem.mp h n hlt
    exact .succ (ih (List.getElem?_eq_getElem (by omega))) hstep

/-- The base at a place of the chain is reached in one step more than its place, and not before. -/
theorem SingleBased.isLeast_climbsIn (h : p.SingleBased) {i : Nat}
    (hb : (p.baseChain id)[i]? = some b) : IsLeast {n | p.ClimbsIn id n b} (i + 1) := by
  have hpath := h.isChain_baseChain id
  have hplace : (id :: p.baseChain id)[i + 1]? = some b := hb
  obtain ⟨hlt,heq⟩ := List.getElem?_eq_some_iff.mp hplace
  refine ⟨climbsIn_of_isChain hpath hplace,fun n hn => ?_⟩
  by_contra hless
  -- A shorter way would end at an earlier place of the path, where another class stands.
  have hat := climbsIn_of_isChain hpath (List.getElem?_eq_getElem (by omega : n < _))
  have hsame : (id :: p.baseChain id)[n] = (id :: p.baseChain id)[i + 1] :=
    (h.eq_of_climbsIn hat hn).trans heq.symm
  have hindex := (nodup_cons_baseChain p id).getElem_inj_iff.mp hsame
  omega

/-- What a chain of bases is: it has every class that is reached through bases alone, once and
without the class itself, and where bases are single it goes from the nearest to the farthest. -/
structure ListsBases (p : Program) (id : ClassId) (chain : List ClassId) : Prop where
  once : chain.Nodup
  exact : ∀ b, b ∈ chain ↔ b ≠ id ∧ Relation.TransGen p.BaseStep id b
  nearestFirst : p.SingleBased → ∀ i b, chain[i]? = some b →
    IsLeast {n | p.ClimbsIn id n b} (i + 1)

/-- The climb ends for every class of every program, and it ends with the chain of its bases. -/
theorem climbs_to_bases (p : Program) (id : ClassId) :
    p.Climbs id [] [id] (p.baseChain id) ∧ p.ListsBases id (p.baseChain id) where
  left := climbs_baseChain p id
  right.once := (List.nodup_cons.mp (nodup_cons_baseChain p id)).2
  right.exact _ := mem_baseChain_iff
  right.nearestFirst h _ _ := h.isLeast_climbsIn

/-- Three classes that extend each other in a circle, one of them also an interface, another one
also a class that is not there. -/
def circle : Program where
  classes := [
    { name := "A", extensions := ["C", "Missing"] },
    { name := "B", extensions := ["A"] },
    { name := "C", extensions := ["B", "IThing"] },
    { name := "IThing", declaration := .interface }]

/-- In the circle, the farthest base is two steps away. -/
theorem circle_nearestFirst : circle.SingleBased ∧ circle.baseChain 0 = [2, 1] ∧
    IsLeast {n | circle.ClimbsIn 0 n 1} 2 := by
  have hsingle : circle.SingleBased := by decide
  exact ⟨hsingle,by decide,(climbs_to_bases circle 0).2.nearestFirst hsingle 1 1 (by decide)⟩

end Recast.Program
