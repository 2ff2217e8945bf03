import Mathlib.Data.List.Nodup
import Mathlib.Data.List.Perm.Basic
import Mathlib.Logic.Equiv.Basic
import Recast.Proofs.Naming.Resolution
import Recast.Proofs.Ordering.StableSort

/-! # Classes in another order

A class is known by its position, and by its name only when an extension is looked up. If the names
are distinct, naming gives a class the same members wherever it stands, and does the same work. The
final order then makes one program of all of them.
-/
namespace Recast

/-- Elements in another order have new positions, and no two of them the same one. -/
theorem exists_injective_of_perm {α : Type} {xs ys : List α} (h : xs.Perm ys) :
    ∃ σ : Nat → Nat, σ.Injective ∧ ∀ i, ys[σ i]? = xs[i]? := by
  induction h with
  | nil => exact ⟨id,Function.injective_id,fun _ => rfl⟩
  | cons x _ ih =>
    obtain ⟨σ,hinj,hσ⟩ := ih
    refine ⟨fun i => i.casesOn 0 fun i => σ i + 1,?_,?_⟩
    · rintro (_ | i) (_ | j) hij
      · rfl
      · nomatch hij
      · nomatch hij
      · exact congrArg Nat.succ (hinj (Nat.succ.inj hij))
    · rintro (_ | i)
      · rfl
      · exact hσ i
  | swap x y l =>
    refine ⟨Equiv.swap 0 1,(Equiv.swap 0 1).injective,fun i => ?_⟩
    match i with
    | 0 | 1 => rfl
    | i + 2 =>
      rw [Equiv.swap_apply_of_ne_of_ne (by omega) (by omega)]
      rfl
  | trans _ _ ih₁ ih₂ =>
    obtain ⟨σ,hinjσ,hσ⟩ := ih₁
    obtain ⟨τ,hinjτ,hτ⟩ := ih₂
    exact ⟨τ ∘ σ,hinjτ.comp hinjσ,fun i => (hτ (σ i)).trans (hσ i)⟩

theorem next_of_leThen {a b : Nat} {x y : Bool} (hab : leThen a b x) (hba : leThen b a y) :
    x = true ∧ y = true := by
  simp only [leThen, Bool.or_eq_true, Bool.and_eq_true, decide_eq_true_eq, beq_iff_eq] at hab hba
  rcases hab with hab | ⟨hab,hx⟩
  · omega
  · rcases hba with hba | ⟨-,hy⟩
    · omega
    · exact ⟨hx,hy⟩

theorem Class.name_eq_of_le {c d : Class} (hcd : c.le d) (hdc : d.le c) : c.name = d.name := by
  obtain ⟨hcd,hdc⟩ := next_of_leThen hcd hdc
  obtain ⟨hcd,hdc⟩ := next_of_leThen hcd hdc
  exact String.le_antisymm (of_decide_eq_true hcd) (of_decide_eq_true hdc)

namespace Program
variable {p q : Program} {σ : ClassId → ClassId}

/-- No two classes have one name. -/
def NamesUnique (p : Program) : Prop := (p.classes.map Class.name).Nodup

theorem find?_eq_some_iff (h : p.NamesUnique) {name : String} {id : ClassId} :
    p.find? name = some id ↔ ∃ c, p.class? id = some c ∧ c.name = name := by
  unfold find?
  rw [List.findIdx?_eq_some_iff_getElem]
  constructor
  · rintro ⟨hlt,hname,-⟩
    exact ⟨_,List.getElem?_eq_getElem hlt,beq_iff_eq.mp hname⟩
  · rintro ⟨c,hc,rfl⟩
    obtain ⟨hlt,rfl⟩ := List.getElem?_eq_some_iff.mp hc
    refine ⟨hlt,beq_self_eq_true _,fun j hj hname => ?_⟩
    have hdistinct := List.pairwise_iff_getElem.mp (List.pairwise_map.mp h) j id (by omega) hlt hj
    exact hdistinct (beq_iff_eq.mp hname)

theorem find?_eq_none_iff {name : String} :
    p.find? name = none ↔ ∀ c ∈ p.classes, c.name ≠ name := by
  simp [find?, List.findIdx?_eq_none_iff]

/-- One program has the classes of the other in another order, all of them with names of their own;
`σ` takes a position to the new one. -/
structure Renumbers (σ : ClassId → ClassId) (p q : Program) : Prop where
  injective : σ.Injective
  class? : ∀ id, q.class? (σ id) = p.class? id
  perm : p.classes.Perm q.classes
  rules : q.rules = p.rules
  unique : p.NamesUnique

namespace Renumbers

theorem unique_right (h : Renumbers σ p q) : q.NamesUnique :=
  (h.perm.map Class.name).nodup_iff.mp h.unique

theorem find? (h : Renumbers σ p q) (name : String) : q.find? name = (p.find? name).map σ := by
  cases hfind : p.find? name with
  | none =>
    refine find?_eq_none_iff.mpr fun c hc => ?_
    exact find?_eq_none_iff.mp hfind c (h.perm.mem_iff.mpr hc)
  | some id =>
    obtain ⟨c,hc,hname⟩ := (find?_eq_some_iff h.unique).mp hfind
    exact (find?_eq_some_iff h.unique_right).mpr ⟨c,(h.class? id).trans hc,hname⟩

theorem parents (h : Renumbers σ p q) (id : ClassId) :
    q.parents (σ id) = (p.parents id).map σ := by
  unfold Program.parents
  rw [h.class?]
  cases p.class? id with
  | none => rfl
  | some c => simp only [List.map_filterMap, h.find?]

theorem bases (h : Renumbers σ p q) (id : ClassId) : q.bases (σ id) = (p.bases id).map σ := by
  have hform : (fun b => !q.isInterfaceId b) ∘ σ = fun b => !p.isInterfaceId b := by
    funext b
    simp only [Function.comp_apply, isInterfaceId, h.class?]
  rw [Program.bases, h.parents, List.filter_map, hform, Program.bases]

theorem unseen (hσ : σ.Injective) (seen cs : List ClassId) :
    unseen (seen.map σ) (cs.map σ) = (unseen seen cs).map σ := by
  induction cs generalizing seen with
  | nil => rfl
  | cons c cs ih =>
    have hcontains : (seen.map σ).contains (σ c) = seen.contains c := by
      simp only [List.contains_eq_mem, List.mem_map_of_injective hσ]
    simp only [List.map_cons, Program.unseen, hcontains]
    split
    · exact ih seen
    · rw [← List.map_cons, ih, List.map_cons]

theorem climb (h : Renumbers σ p q) (start : ClassId) (n : Nat) (chain pending : List ClassId) :
    q.climb (σ start) n (chain.map σ) (pending.map σ) = (p.climb start n chain pending).map σ := by
  induction n generalizing chain pending with
  | zero => rfl
  | succ n ih =>
    cases pending with
    | nil => rfl
    | cons id pending =>
      simp only [List.map_cons, Program.climb, h.bases]
      rw [← List.map_cons, unseen h.injective, ← List.map_append, ← List.map_reverse,
        ← List.map_append, ih]

theorem baseChain (h : Renumbers σ p q) (id : ClassId) :
    q.baseChain (σ id) = (p.baseChain id).map σ := by
  have hsize : q.size = p.size := h.perm.length_eq.symm
  rw [Program.baseChain, hsize]
  exact h.climb id _ [] [id]

theorem inherited (h : Renumbers σ p q) (id : ClassId) :
    q.inherited (σ id) = p.inherited id := by
  simp only [Program.inherited, h.baseChain, List.flatMap_map, h.class?]

theorem settled (h : Renumbers σ p q) (id : ClassId) : q.settled (σ id) = p.settled id := by
  funext c
  simp only [Program.settled, Program.named, h.inherited, h.rules]

theorem renames (h : Renumbers σ p q) (id : ClassId) : q.renames (σ id) = p.renames id := by
  funext c
  simp only [Program.renames, h.inherited]

end Renumbers

theorem exists_renumbers (hperm : p.classes.Perm q.classes) (hrules : q.rules = p.rules)
    (hunique : p.NamesUnique) : ∃ σ, Renumbers σ p q := by
  obtain ⟨σ,hinj,hσ⟩ := exists_injective_of_perm hperm
  exact ⟨σ,hinj,hσ,hperm,hrules,hunique⟩

/-- The position of a class that is known by its name. -/
def place (p : Program) (c : Class) : ClassId := (p.find? c.name).getD 0

theorem place_eq (h : p.NamesUnique) {id : ClassId} {c : Class} (hc : p.class? id = some c) :
    p.place c = id := by
  rw [place, (find?_eq_some_iff h).mpr ⟨c,hc,rfl⟩, Option.getD_some]

theorem Renumbers.place (h : Renumbers σ p q) {c : Class} (hc : c ∈ p.classes) :
    q.place c = σ (p.place c) := by
  obtain ⟨id,hid⟩ := List.getElem?_of_mem hc
  rw [place_eq h.unique hid, place_eq h.unique_right ((h.class? id).trans hid)]

/-- With distinct names, what naming makes of a class is a matter of the class alone. -/
theorem classes_resolve (h : p.NamesUnique) :
    p.resolve.1.classes = p.classes.map fun c => p.settled (p.place c) c := by
  apply List.ext_getElem?
  intro id
  rw [List.getElem?_map]
  refine (class?_resolve p id).trans ?_
  cases hc : p.class? id with
  | none =>
    have hnone : p.classes[id]? = none := hc
    rw [hnone]
    rfl
  | some c =>
    have hsome : p.classes[id]? = some c := hc
    rw [hsome, Option.map_some, Option.map_some, place_eq h hc]

def Resolution.add (r s : Resolution) : Resolution := ⟨r.classes + s.classes,r.renamed + s.renamed⟩

/-- Work is counted in any order. -/
instance : RightCommutative Resolution.add where
  right_comm r s t := by simp only [Resolution.add, Nat.add_right_comm]

/-- The work of naming one class. -/
def work (p : Program) (id : ClassId) (c : Class) : Resolution :=
  if c.resolved then {} else ⟨1,p.renames id c⟩

theorem work_congr (h : p.outline = q.outline) (id : ClassId) (c : Class) :
    p.work id c = q.work id c := by
  have hconflicts : Routine.conflicts (p.inherited id) = Routine.conflicts (q.inherited id) :=
    funext fun _ => Routine.conflicts_congr (inherited_congr h id) rfl
  rw [work, work, renames, renames, hconflicts]

/-- One step of naming counts its work. -/
theorem resolveStep_snd (s : Program × Resolution) {id : ClassId} {c : Class}
    (hc : s.1.class? id = some c) : (resolveStep s id).2 = s.2.add (s.1.work id c) := by
  unfold resolveStep resolveClass? work
  cases hr : c.resolved <;> simp [hc, hr, Resolution.add]

theorem foldl_resolveStep_snd (h : p.NamesUnique) {n : Nat} (hn : n ≤ p.size) :
    ((List.range n).foldl resolveStep (p,{})).2 =
      ((p.classes.take n).map fun c => p.work (p.place c) c).foldl Resolution.add {} := by
  induction n with
  | zero => rfl
  | succ n ih =>
    have hc : p.class? n = some p.classes[n] := List.getElem?_eq_getElem hn
    -- The class at `n` is still as it was at the start; only those before it are settled.
    obtain ⟨-,hout,hclass⟩ := foldl_resolveStep p {} (List.range n) n
    rw [hc, Option.map_some, if_neg List.not_mem_range_self] at hclass
    rw [List.range_succ, List.foldl_append, List.foldl_cons, List.foldl_nil,
      resolveStep_snd _ hclass, ih (by omega), work_congr hout]
    simp [List.take_succ_eq_append_getElem hn, place_eq h hc]

/-- With distinct names, the work of naming is what the classes add up to. -/
theorem resolve_snd (h : p.NamesUnique) : p.resolve.2 =
    (p.classes.map fun c => p.work (p.place c) c).foldl Resolution.add {} := by
  have hfold := foldl_resolveStep_snd h (Nat.le_refl p.size)
  rwa [size, List.take_length] at hfold

section order
variable (hperm : p.classes.Perm q.classes) (hrules : q.rules = p.rules) (hunique : p.NamesUnique)
include hperm hrules hunique

theorem perm_classes_resolve : p.resolve.1.classes.Perm q.resolve.1.classes := by
  obtain ⟨σ,h⟩ := exists_renumbers hperm hrules hunique
  rw [classes_resolve h.unique, classes_resolve h.unique_right]
  have hsame : p.classes.map (fun c => p.settled (p.place c) c) =
      p.classes.map fun c => q.settled (q.place c) c :=
    List.map_congr_left fun c hc => by rw [h.place hc, h.settled]
  rw [hsame]
  exact hperm.map _

theorem resolve_snd_eq : p.resolve.2 = q.resolve.2 := by
  obtain ⟨σ,h⟩ := exists_renumbers hperm hrules hunique
  have hwork : p.classes.map (fun c => p.work (p.place c) c) =
      p.classes.map fun c => q.work (q.place c) c :=
    List.map_congr_left fun c hc => by rw [work, work, h.place hc, h.renames]
  rw [resolve_snd h.unique, resolve_snd h.unique_right, hwork]
  exact (hperm.map _).foldl_eq (f := Resolution.add) {}

end order

/-- The final order does not depend on the order before. -/
theorem classes_sort_eq (hperm : p.classes.Perm q.classes) (hunique : p.NamesUnique) :
    p.sort.classes = q.sort.classes := by
  have hanti : ∀ a ∈ p.classes, ∀ b ∈ p.classes, Class.le a b → Class.le b a → a = b := by
    intro a ha b hb hab hba
    exact List.inj_on_of_nodup_map hunique ha hb (Class.name_eq_of_le hab hba)
  exact congrArg (List.map Class.sortMembers) (sortBy_eq_of_perm sortOrder_class hperm hanti)

theorem namesUnique_resolve (h : p.NamesUnique) : p.resolve.1.NamesUnique := by
  have hnames (p : Program) : p.classes.map Class.name = p.outline.map Outline.name := by
    rw [outline, List.map_map]
    rfl
  unfold NamesUnique at h ⊢
  rwa [hnames, outline_resolve, ← hnames]

/-- Naming and ordering make one program of the same classes in any order. -/
theorem sort_resolve_eq {cs : List Class} (hperm : p.classes.Perm cs) (h : p.NamesUnique) :
    { p with classes := cs }.resolve.1.sort = p.resolve.1.sort := by
  have hresolved := perm_classes_resolve (q := { p with classes := cs }) hperm rfl h
  have hclasses := classes_sort_eq hresolved (namesUnique_resolve h)
  have hsort (p : Program) : p.resolve.1.sort =
      { p with classes := p.resolve.1.sort.classes, frozen := true } := by
    conv_lhs => rw [sort, resolve_fst]
    rfl
  rw [hsort p, hsort, hclasses]

end Program

end Recast
