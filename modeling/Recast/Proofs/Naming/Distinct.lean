import Mathlib.Data.List.Basic
import Recast.Proofs.Naming.NumberedNames

/-! # When final names are told apart

The numbers of constructors, overloads and conflicts are put behind the names of the source without
a look at the other names there are. So two routines may end up with one name, and they do exactly
when their numbered names clash.
-/
namespace Recast
open Routine

def Class.NamesDistinct (c : Class) : Prop :=
  ((c.routines.filter isEntry).map emittedName).Nodup

/-- A conflict needs an inherited method of the name, and none of them has the arity. -/
theorem Routine.conflicts_iff {inherited : List Routine} {f : Routine} :
    conflicts inherited f = true ↔ f.isConstructor = false ∧
      (∃ g ∈ inherited, g.isConstructor = false ∧ g.name = f.name) ∧
      ∀ g ∈ inherited, g.isConstructor = false → g.name = f.name → g.arity ≠ f.arity := by
  simp only [conflicts, Bool.and_eq_true, Bool.not_eq_true', List.isEmpty_eq_false_iff_exists_mem,
    List.mem_map, List.mem_filter, beq_iff_eq, List.contains_eq_mem, decide_eq_false_iff_not,
    and_assoc]
  refine and_congr_right fun _ => and_congr ?_ ?_
  · constructor
    · rintro ⟨_,g,hg,hc,hn,_⟩
      exact ⟨g,hg,hc,hn⟩
    · rintro ⟨g,hg,hc,hn⟩
      exact ⟨_,g,hg,hc,hn,rfl⟩
  · constructor
    · exact fun h g hg hc hn ha => h ⟨g,hg,hc,hn,ha⟩
    · rintro h ⟨g,hg,hc,hn,ha⟩
      exact h g hg hc hn ha

namespace Program
variable {p : Program} {id : ClassId} {i : Nat}

theorem routineAt?_eq_some_iff {f : Routine} : p.routineAt? id i = some f ↔
    ∃ c, p.class? id = some c ∧ c.routines[i]? = some f := by
  simp only [routineAt?, Option.bind_eq_bind, Option.bind_eq_some_iff]

theorem mem_inherited {g : Routine} :
    g ∈ p.inherited id ↔ ∃ b ∈ p.baseChain id, ∃ j, p.routineAt? b j = some g := by
  simp only [inherited, List.mem_flatMap]
  refine exists_congr fun b => and_congr_right fun _ => ?_
  cases hc : p.class? b with
  | none => simp [routineAt?, hc]
  | some c => simp [routineAt?, hc, List.mem_iff_getElem?]

theorem routineAt?_resolve {c : Class} {f : Routine} (hc : p.class? id = some c)
    (hf : c.routines[i]? = some f) :
    ∃ g, p.resolve.1.routineAt? id i = some g ∧ g.signature = f.signature ∧
      g.emittedName = (p.numberedName id c i f).text ∧ g.isEntry = becomesEntry c f := by
  obtain ⟨g,hg,h⟩ := settled_routine p id hf
  refine ⟨g,routineAt?_eq_some_iff.mpr ⟨_,?_,hg⟩,h⟩
  rw [class?_resolve, hc, Option.map_some]

theorem exists_of_routineAt?_resolve {g : Routine} (hg : p.resolve.1.routineAt? id i = some g) :
    ∃ c f, p.class? id = some c ∧ c.routines[i]? = some f ∧ g.signature = f.signature ∧
      g.emittedName = (p.numberedName id c i f).text ∧ g.isEntry = becomesEntry c f := by
  obtain ⟨d,hd,hgd⟩ := routineAt?_eq_some_iff.mp hg
  rw [class?_resolve] at hd
  obtain ⟨c,hc,rfl⟩ := Option.map_eq_some_iff.mp hd
  have hlen : (p.settled id c).routines.length = c.routines.length := by
    simpa [Class.outline] using congrArg (fun o => o.signatures.length) (outline_settled p id c)
  have hi : i < c.routines.length := hlen ▸ (List.getElem?_eq_some_iff.mp hgd).1
  obtain ⟨g',hg',h⟩ := routineAt?_resolve hc (List.getElem?_eq_getElem hi)
  obtain rfl : g' = g := Option.some.inj (hg'.symm.trans hg)
  exact ⟨c,_,hc,List.getElem?_eq_getElem hi,h⟩

theorem namesDistinct_settled_iff (p : Program) (id : ClassId) (c : Class) :
    (p.settled id c).NamesDistinct ↔ ∀ i j f g, i < j → c.routines[i]? = some f →
      c.routines[j]? = some g → becomesEntry c f = true → becomesEntry c g = true →
      ¬ (p.numberedName id c i f).Clashes (p.numberedName id c j g) := by
  have hlen : (p.settled id c).routines.length = c.routines.length := by
    simpa [Class.outline] using congrArg (fun o => o.signatures.length) (outline_settled p id c)
  rw [Class.NamesDistinct, List.Nodup, List.pairwise_map, List.pairwise_filter,
    List.pairwise_iff_getElem]
  constructor
  · intro h i j f g hij hf hg hfe hge
    obtain ⟨f',hf',-,hfname,hfentry⟩ := settled_routine p id hf
    obtain ⟨g',hg',-,hgname,hgentry⟩ := settled_routine p id hg
    obtain ⟨hi,rfl⟩ := List.getElem?_eq_some_iff.mp hf'
    obtain ⟨hj,rfl⟩ := List.getElem?_eq_some_iff.mp hg'
    rw [numberedName_clashes_iff, ← hfname, ← hgname]
    exact h i j hi hj hij (hfentry.trans hfe) (hgentry.trans hge)
  · intro h i j hi hj hij hfe hge
    have hf := List.getElem?_eq_getElem (hlen ▸ hi)
    have hg := List.getElem?_eq_getElem (hlen ▸ hj)
    obtain ⟨f',hf',-,hfname,hfentry⟩ := settled_routine p id hf
    obtain ⟨g',hg',-,hgname,hgentry⟩ := settled_routine p id hg
    obtain rfl := Option.some.inj ((List.getElem?_eq_getElem hi).symm.trans hf')
    obtain rfl := Option.some.inj ((List.getElem?_eq_getElem hj).symm.trans hg')
    have hno := h i j _ _ hij hf hg (hfentry ▸ hfe) (hgentry ▸ hge)
    rwa [numberedName_clashes_iff, ← hfname, ← hgname] at hno

/-- A routine that naming gives a number because of a conflict with a base. -/
def TakesConflictNumber (p : Program) (id : ClassId) (i : Nat) : Prop :=
  ∃ c f, p.class? id = some c ∧ c.resolved = false ∧ c.routines[i]? = some f ∧
    conflicts (p.inherited id) f = true

/-- What naming is for: the routines of a class are told apart, and a method that is renamed because
of a base is not taken for another method of a base. -/
structure KeepsApart (p : Program) : Prop where
  own : ∀ id c, p.resolve.1.class? id = some c → c.NamesDistinct
  inherited : ∀ id i f, p.TakesConflictNumber id i → p.resolve.1.routineAt? id i = some f →
    ∀ b ∈ p.resolve.1.baseChain id, ∀ j g, p.resolve.1.routineAt? b j = some g →
      g.isConstructor = false → (g.name ≠ f.name ∨ g.arity ≠ f.arity) →
      g.emittedName ≠ f.emittedName

/-- No two numbered names of a class clash, nor does that of a method in conflict with those of the
methods of its bases. -/
structure ClashFree (p : Program) : Prop where
  own : ∀ id c, p.class? id = some c → ∀ i j f g, i < j → c.routines[i]? = some f →
    c.routines[j]? = some g → becomesEntry c f = true → becomesEntry c g = true →
    ¬ (p.numberedName id c i f).Clashes (p.numberedName id c j g)
  inherited : ∀ id c i f, p.class? id = some c → c.resolved = false → c.routines[i]? = some f →
    conflicts (p.inherited id) f = true → ∀ b ∈ p.baseChain id, ∀ d j g, p.class? b = some d →
      d.routines[j]? = some g → g.isConstructor = false →
      ¬ (p.numberedName b d j g).Clashes (p.numberedName id c i f)

/-- Naming keeps routines apart exactly where their numbered names do not clash. -/
theorem keepsApart_iff_clashFree (p : Program) : p.KeepsApart ↔ p.ClashFree := by
  constructor
  · intro h
    refine ⟨fun id c hc => ?_,?_⟩
    · apply (namesDistinct_settled_iff p id c).mp
      apply h.own id
      rw [class?_resolve, hc, Option.map_some]
    · intro id c i f hc hr hf hconf b hb d j g hd hg hgc
      obtain ⟨f',hf',hfsig,hfname,-⟩ := routineAt?_resolve hc hf
      obtain ⟨g',hg',hgsig,hgname,-⟩ := routineAt?_resolve hd hg
      have hgin : g ∈ p.inherited id :=
        mem_inherited.mpr ⟨b,hb,j,routineAt?_eq_some_iff.mpr ⟨d,hd,hg⟩⟩
      have harity : g.name = f.name → g.arity ≠ f.arity := (conflicts_iff.mp hconf).2.2 g hgin hgc
      obtain ⟨hfn,-,hfa⟩ := signature_eq_iff.mp hfsig
      obtain ⟨hgn,hgcons,hga⟩ := signature_eq_iff.mp hgsig
      have hother : g'.name ≠ f'.name ∨ g'.arity ≠ f'.arity := by
        rw [hfn, hfa, hgn, hga]
        exact Decidable.not_or_of_imp harity
      rw [numberedName_clashes_iff, ← hfname, ← hgname]
      rw [← baseChain_congr (outline_resolve p)] at hb
      exact h.inherited id i f' ⟨c,f,hc,hr,hf,hconf⟩ hf' b hb j g' hg' (hgcons.trans hgc) hother
  · intro h
    refine ⟨fun id c hc => ?_,?_⟩
    · rw [class?_resolve, Option.map_eq_some_iff] at hc
      obtain ⟨c,hc,rfl⟩ := hc
      exact (namesDistinct_settled_iff p id c).mpr (h.own id c hc)
    · rintro id i f' ⟨c,f,hc,hr,hf,hconf⟩ hf' b hb j g' hg' hgc -
      obtain ⟨f'',hf'',-,hfname,-⟩ := routineAt?_resolve hc hf
      obtain rfl : f'' = f' := Option.some.inj (hf''.symm.trans hf')
      obtain ⟨d,g,hd,hg,hgsig,hgname,-⟩ := exists_of_routineAt?_resolve hg'
      rw [baseChain_congr (outline_resolve p)] at hb
      have hcons : g.isConstructor = false := (signature_eq_iff.mp hgsig).2.1.symm.trans hgc
      have hno := h.inherited id c i f hc hr hf hconf b hb d j g hd hg hcons
      rwa [numberedName_clashes_iff, ← hfname, ← hgname] at hno

def overloadedLog : Program where
  classes := [{
    name := "Log"
    routines := [
      { name := "Write" },
      { name := "Write", parameters := [{ name := "text", ty := .object "object" }] },
      { name := "Write2" }] }]

theorem overloadedLog_not_keepsApart : ¬ overloadedLog.KeepsApart := by
  intro h
  have hnames : ["Write","Write2","Write2"].Nodup := h.own 0 _ rfl
  exact absurd hnames (by decide)

end Program

end Recast
