import Recast.Proofs.Naming.NumberedNames

/-! # Which overload is chosen

A call takes the first routine of its kind that has as many parameters as the call has arguments,
and if there is none, the first routine of its kind at all. For constructors and for the methods of
one name this is one and the same choice.
-/
namespace Recast
open Routine

/-- A routine of a kind, with a number of parameters. -/
def Routine.takes (kind : Routine → Bool) (n : Nat) (f : Routine) : Bool := kind f && f.arity == n

theorem Routine.takes_iff {kind : Routine → Bool} {n : Nat} {f : Routine} :
    takes kind n f = true ↔ kind f = true ∧ f.arity = n := by
  simp [takes]

theorem Routine.isMethodNamed_iff {name : String} {f : Routine} :
    isMethodNamed name f = true ↔ f.isConstructor = false ∧ f.name = name := by
  simp [isMethodNamed]

/-- The routine of a kind for a call with `n` arguments. -/
def Routine.choose? (kind : Routine → Bool) (n : Nat) (fs : List Routine) : Option Routine :=
  fs.find? (takes kind n) <|> fs.find? kind

namespace Class

/-- The method for a call, as it stands in the class. -/
def routine? (c : Class) (name : String) (arity : Option Nat) : Option Routine :=
  (c.routineIndex? name arity).bind fun i => c.routines[i]?

theorem constructorFor?_eq (c : Class) (n : Nat) :
    c.constructorFor? n = choose? isInstanceConstructor n c.routines := by
  have htakes : (fun f : Routine => decide (f.isInstanceConstructor = true ∧
      (f.arity == n) = true)) = takes isInstanceConstructor n := by
    funext f
    rw [takes, Bool.decide_and, Bool.decide_eq_true, Bool.decide_eq_true]
  rw [constructorFor?, constructors, List.find?_filter, List.head?_filter, htakes, choose?]

theorem routineIndex?_eq (c : Class) (name : String) (arity : Option Nat) :
    c.routineIndex? name arity =
      ((arity.bind fun n => c.routines.findIdx? (takes (isMethodNamed name) n)) <|>
        c.routines.findIdx? (isMethodNamed name)) := by
  have hnamed : (fun f : Routine => f.name == name && !f.isConstructor) = isMethodNamed name := by
    funext f
    exact Bool.and_comm _ _
  rw [routineIndex?, hnamed]
  rfl

theorem routine?_none (c : Class) (name : String) :
    c.routine? name none = c.routines.find? (isMethodNamed name) := by
  rw [routine?, routineIndex?_eq]
  exact List.find?_eq_bind_findIdx?_getElem?.symm

theorem routine?_some (c : Class) (name : String) (n : Nat) :
    c.routine? name (some n) = choose? (isMethodNamed name) n c.routines := by
  rw [routine?, routineIndex?_eq, choose?, Option.bind_some]
  cases hi : c.routines.findIdx? (takes (isMethodNamed name) n) with
  | none =>
    have hnone := List.findIdx?_eq_none_iff.mp hi
    rw [List.find?_eq_none.mpr fun f hf => by simp [hnone f hf]]
    exact List.find?_eq_bind_findIdx?_getElem?.symm
  | some i =>
    obtain ⟨hlt,-⟩ := List.findIdx?_eq_some_iff_getElem.mp hi
    have hfind : c.routines.find? (takes (isMethodNamed name) n) = some c.routines[i] := by
      rw [List.find?_eq_bind_findIdx?_getElem?, hi, Option.bind_some, List.getElem?_eq_getElem hlt]
    rw [hfind]
    exact List.getElem?_eq_getElem hlt

end Class

end Recast
