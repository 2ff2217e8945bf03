import Recast.Proofs.Lineage.Reach
import Recast.Proofs.Lookup.Overloads
import Recast.Proofs.Naming.Distinct

/-! # Which inherited overload is found

The search for a member goes through what a class reaches and stops at the first class that has a
method of the name, whatever the number of its parameters. So a call with `n` arguments finds a
method with `n` parameters exactly if this class has one.
-/
namespace Recast
open Routine

namespace Class
variable {c : Class} {name : String}

theorem variableIndex?_eq_none_iff :
    c.variableIndex? name = none ↔ ∀ v ∈ c.vars, v.name ≠ name := by
  simp [variableIndex?, List.findIdx?_eq_none_iff]

theorem routineIndex?_eq_none_iff {arity : Option Nat} :
    c.routineIndex? name arity = none ↔ ∀ f ∈ c.routines, isMethodNamed name f = false := by
  rw [routineIndex?_eq, Option.orElse_eq_none, List.findIdx?_eq_none_iff]
  refine and_iff_right_of_imp fun h => ?_
  cases arity with
  | none => rfl
  | some n =>
    refine List.findIdx?_eq_none_iff.mpr fun f hf => ?_
    rw [takes, h f hf, Bool.false_and]

/-- The method that a class gives for a number of arguments has as many parameters, unless no
method of the name has. -/
theorem arity_of_routineIndex? {n i : Nat} (h : c.routineIndex? name (some n) = some i) :
    ∃ f, c.routines[i]? = some f ∧ isMethodNamed name f = true ∧
      (f.arity = n ↔ ∃ g ∈ c.routines, isMethodNamed name g = true ∧ g.arity = n) := by
  rw [routineIndex?_eq, Option.bind_some] at h
  cases hi : c.routines.findIdx? (takes (isMethodNamed name) n) with
  | some j =>
    rw [hi] at h
    obtain rfl : j = i := Option.some.inj h
    obtain ⟨hlt,htakes,-⟩ := List.findIdx?_eq_some_iff_getElem.mp hi
    obtain ⟨hname,harity⟩ := takes_iff.mp htakes
    refine ⟨_,List.getElem?_eq_getElem hlt,hname,iff_of_true harity ?_⟩
    exact ⟨_,List.getElem_mem hlt,hname,harity⟩
  | none =>
    rw [hi] at h
    obtain ⟨hlt,hname,-⟩ := List.findIdx?_eq_some_iff_getElem.mp h
    have hnone := List.findIdx?_eq_none_iff.mp hi
    refine ⟨_,List.getElem?_eq_getElem hlt,hname,fun harity => ?_,?_⟩
    · exact ⟨_,List.getElem_mem hlt,hname,harity⟩
    · rintro ⟨g,hg,htakes⟩
      exact absurd (takes_iff.mpr htakes) (by simp [hnone g hg])

end Class

namespace Program
variable {p : Program} {id b : ClassId} {name : String} {n : Nat}

def HasMethod (p : Program) (name : String) (n : Nat) (id : ClassId) : Prop :=
  ∃ i f, p.routineAt? id i = some f ∧ isMethodNamed name f = true ∧ f.arity = n

def HasVariable (p : Program) (name : String) (id : ClassId) : Prop :=
  ∃ i v, p.variableAt? id i = some v ∧ v.name = name

theorem hasMethod_iff {c : Class} (hc : p.class? b = some c) :
    p.HasMethod name n b ↔ ∃ f ∈ c.routines, isMethodNamed name f = true ∧ f.arity = n := by
  simp only [HasMethod, routineAt?, hc, Option.bind_eq_bind, Option.bind_some,
    List.mem_iff_getElem?]
  constructor
  · rintro ⟨i,f,hi,hf⟩
    exact ⟨f,⟨i,hi⟩,hf⟩
  · rintro ⟨f,⟨i,hi⟩,hf⟩
    exact ⟨i,f,hi,hf⟩

theorem hasVariable_iff {c : Class} (hc : p.class? b = some c) :
    p.HasVariable name b ↔ ∃ v ∈ c.vars, v.name = name := by
  simp only [HasVariable, variableAt?, hc, Option.bind_eq_bind, Option.bind_some,
    List.mem_iff_getElem?]
  constructor
  · rintro ⟨i,v,hi,hv⟩
    exact ⟨v,⟨i,hi⟩,hv⟩
  · rintro ⟨v,⟨i,hi⟩,hv⟩
    exact ⟨i,v,hi,hv⟩

theorem ownMember?_eq (h : ¬ p.HasVariable name b) (arity : Option Nat) :
    p.ownMember? name arity b =
      (p.class? b).bind fun c => (c.routineIndex? name arity).map (.routine b) := by
  unfold ownMember?
  cases hc : p.class? b with
  | none => rfl
  | some c =>
    have hnone : c.variableIndex? name = none := by
      refine Class.variableIndex?_eq_none_iff.mpr fun v hv hname => h ?_
      exact (hasVariable_iff hc).mpr ⟨v,hv,hname⟩
    simp only [Option.bind_eq_bind, Option.bind_some, hnone]

theorem ownMember?_eq_none_iff (h : ¬ p.HasVariable name b) {arity : Option Nat} :
    p.ownMember? name arity b = none ↔ ∀ k, ¬ p.HasMethod name k b := by
  rw [ownMember?_eq h]
  cases hc : p.class? b with
  | none => simp [HasMethod, routineAt?, hc]
  | some c =>
    simp only [hasMethod_iff hc, Option.bind_some, Option.map_eq_none_iff,
      Class.routineIndex?_eq_none_iff]
    refine ⟨?_,fun h f hf => Bool.eq_false_iff.mpr fun hname => h f.arity ⟨f,hf,hname,rfl⟩⟩
    rintro h k ⟨f,hf,hname,-⟩
    exact Bool.eq_false_iff.mp (h f hf) hname

theorem findMember?_of_ownMember? {arity : Option Nat} {m : MemberRef}
    (h : p.ownMember? name arity b = some m) : p.findMember? b name arity = some m := by
  have hreach : p.reach b = b :: p.visit p.extensionCount [b] (p.parents b ++ []) := rfl
  rw [findMember?, hreach, List.findSome?_cons, h]

theorem routine_of_ownMember? (h : ¬ p.HasVariable name b) {m : MemberRef}
    (hm : p.ownMember? name (some n) b = some m) :
    ∃ i f, m = .routine b i ∧ p.routineAt? b i = some f ∧ isMethodNamed name f = true ∧
      (f.arity = n ↔ p.HasMethod name n b) := by
  rw [ownMember?_eq h] at hm
  obtain ⟨c,hc,hm⟩ := Option.bind_eq_some_iff.mp hm
  obtain ⟨i,hi,rfl⟩ := Option.map_eq_some_iff.mp hm
  obtain ⟨f,hf,hname,harity⟩ := Class.arity_of_routineIndex? hi
  rw [← hasMethod_iff hc] at harity
  exact ⟨i,f,rfl,routineAt?_eq_some_iff.mpr ⟨c,hc,hf⟩,hname,harity⟩

/-- A call that can be meant: something that the class reaches declares a method of the name with
`n` parameters, and nothing there declares a variable of the name. -/
structure Callable (p : Program) (id : ClassId) (name : String) (n : Nat) : Prop where
  declared : ∃ b, p.Reaches id b ∧ p.HasMethod name n b
  unshadowed : ∀ b, p.Reaches id b → ¬ p.HasVariable name b

/-- What a call needs: if it can be meant, it finds a method with its number of parameters. -/
def FindsArity (p : Program) (id : ClassId) (name : String) (n : Nat) : Prop :=
  p.Callable id name n → ∃ b i f, p.findMember? id name (some n) = some (.routine b i) ∧
    p.routineAt? b i = some f ∧ isMethodNamed name f = true ∧ f.arity = n

/-- Of what the class reaches, in depth-first order, the first class with a method of the name has
one with `n` parameters. -/
def NearestTakes (p : Program) (id : ClassId) (name : String) (n : Nat) : Prop :=
  ∃ before b after, p.reach id = before ++ b :: after ∧
    (∀ a ∈ before, ∀ k, ¬ p.HasMethod name k a) ∧ p.HasMethod name n b

theorem findMember?_eq_some_iff (h : ∀ b, p.Reaches id b → ¬ p.HasVariable name b)
    {m : MemberRef} : p.findMember? id name (some n) = some m ↔
      ∃ before b after, p.reach id = before ++ b :: after ∧
        (∀ a ∈ before, ∀ k, ¬ p.HasMethod name k a) ∧ p.ownMember? name (some n) b = some m := by
  unfold findMember?
  rw [List.findSome?_eq_some_iff]
  refine exists_congr fun before => exists_congr fun b => exists_congr fun after =>
    and_congr_right fun hreach => ?_
  rw [and_comm]
  refine and_congr_left fun _ => forall_congr' fun a => forall_congr' fun ha => ?_
  have hmem : a ∈ p.reach id := hreach ▸ List.mem_append_left _ ha
  exact ownMember?_eq_none_iff (h a (mem_reach_iff.mp hmem))

/-- A call finds a method with its number of parameters exactly if the nearest class that has a
method of the name has such a one. -/
theorem findsArity_iff (p : Program) (id : ClassId) (name : String) (n : Nat) :
    p.FindsArity id name n ↔ (p.Callable id name n → p.NearestTakes id name n) := by
  refine forall_congr' fun h => ⟨?_,?_⟩
  · rintro ⟨b,i,f,hfind,hf,-,harity⟩
    -- The class that answers is the nearest one with the name, so it is the one to look at.
    obtain ⟨before,a,after,hreach,hbefore,hown⟩ :=
      (findMember?_eq_some_iff h.unshadowed).mp hfind
    have hmem : a ∈ p.reach id := hreach ▸ List.mem_append_right _ List.mem_cons_self
    obtain ⟨j,g,heq,hg,-,hiff⟩ :=
      routine_of_ownMember? (h.unshadowed a (mem_reach_iff.mp hmem)) hown
    obtain ⟨rfl,rfl⟩ := MemberRef.routine.inj heq
    obtain rfl : f = g := Option.some.inj (hf.symm.trans hg)
    exact ⟨before,b,after,hreach,hbefore,hiff.mp harity⟩
  · rintro ⟨before,b,after,hreach,hbefore,hb⟩
    have hmem : b ∈ p.reach id := hreach ▸ List.mem_append_right _ List.mem_cons_self
    have hvar := h.unshadowed b (mem_reach_iff.mp hmem)
    cases hown : p.ownMember? name (some n) b with
    | none => exact absurd hb ((ownMember?_eq_none_iff hvar).mp hown n)
    | some m =>
      obtain ⟨i,f,rfl,hf,hname,hiff⟩ := routine_of_ownMember? hvar hown
      refine ⟨b,i,f,(findMember?_eq_some_iff h.unshadowed).mpr ?_,hf,hname,hiff.mpr hb⟩
      exact ⟨before,b,after,hreach,hbefore,hown⟩

/-- A class with a method of one parameter, whose base has a method of the name without any. -/
def loudDog : Program where
  classes := [
    { name := "Animal", routines := [{ name := "Speak" }] },
    { name := "Dog", extensions := ["Animal"],
      routines := [{
        name := "Speak"
        parameters := [{ name := "loudness", ty := .object "int" }] }] }]

theorem loudDog_not_findsArity : ¬ loudDog.resolve.1.FindsArity 1 "Speak" 0 := by
  intro h
  have hdeclared : ∃ b, loudDog.resolve.1.Reaches 1 b ∧ loudDog.resolve.1.HasMethod "Speak" 0 b :=
    ⟨0,mem_reach_iff.mp (by decide),0,_,rfl,rfl,rfl⟩
  have hnone (b : ClassId) : ¬ loudDog.resolve.1.HasVariable "Speak" b := by
    rintro ⟨i,v,hv,-⟩
    match b with
    | 0 | 1 | _ + 2 => nomatch hv
  obtain ⟨b,i,f,hfind,hf,-,harity⟩ := h ⟨hdeclared,fun b _ => hnone b⟩
  obtain ⟨rfl,rfl⟩ : 1 = b ∧ 0 = i := MemberRef.routine.inj (Option.some.inj hfind)
  cases hf
  exact absurd harity (by decide)

end Program

end Recast
