import Recast.Proofs.Lookup.Inherited

/-! # The search for a member is depth-first

The search keeps a stack of pending classes, on which a class may stand several times. What it
visits is nevertheless what a recursive search visits, which goes through one extension with all that
is below it before it turns to the next. So the member that is found is one of the first class in
this order that has a member of the name.
-/
namespace Recast
open Routine

namespace Class
variable {c : Class} {name : String} {arity : Option Nat} {i : Nat}

theorem isMethodNamed_of_routineIndex? (h : c.routineIndex? name arity = some i) :
    ∃ f, c.routines[i]? = some f ∧ isMethodNamed name f = true := by
  rw [routineIndex?_eq, Option.orElse_eq_some] at h
  rcases h with h | ⟨-,h⟩
  · obtain ⟨n,-,h⟩ := Option.bind_eq_some_iff.mp h
    obtain ⟨hlt,htakes,-⟩ := List.findIdx?_eq_some_iff_getElem.mp h
    exact ⟨_,List.getElem?_eq_getElem hlt,(takes_iff.mp htakes).1⟩
  · obtain ⟨hlt,hname,-⟩ := List.findIdx?_eq_some_iff_getElem.mp h
    exact ⟨_,List.getElem?_eq_getElem hlt,hname⟩

end Class

namespace Program
variable {p : Program} {id b : ClassId} {name : String} {arity : Option Nat} {m : MemberRef}
  {n : Nat} {visited seen ids pending : List ClassId}

/-! ## The order of the recursive search -/

theorem unvisited_congr (h : ∀ a, a ∈ visited ↔ a ∈ seen) :
    p.unvisited visited = p.unvisited seen := by
  simp only [unvisited, h]

theorem unvisited_append_le (p : Program) (visited ids : List ClassId) :
    p.unvisited (visited ++ ids) ≤ p.unvisited visited := by
  refine Finset.sum_le_sum fun i _ => ?_
  by_cases hi : i ∈ visited
  · simp [hi]
  · simp only [hi, if_false]
    split <;> omega

theorem unvisited_concat (h : id ∉ visited) :
    p.unvisited (visited ++ [id]) + (p.parents id).length = p.unvisited visited := by
  rw [← unvisited_cons h]
  exact congrArg (· + _) (unvisited_congr (by simp [or_comm]))

/-- What a recursive search visits: each class that is not visited yet, and right after it what its
extensions lead to, from the first one to the last. -/
def preorder (p : Program) (visited : List ClassId) : List ClassId → List ClassId
  | [] => []
  | id :: ids =>
    if id ∈ visited then preorder p visited ids
    else
      let below := preorder p (visited ++ [id]) (p.parents id)
      id :: below ++ preorder p (visited ++ id :: below) ids
termination_by ids => (p.unvisited visited, ids.length)
decreasing_by
  · exact .right _ (Nat.lt_succ_self _)
  -- A class with extensions takes them away from what is left, one without has nothing below it.
  · next hid =>
    have hleft := unvisited_concat (p := p) hid
    rcases Nat.eq_zero_or_pos (p.parents id).length with hnil | hpos
    · rw [hnil, Nat.add_zero] at hleft
      rw [hnil, hleft]
      exact .right _ (Nat.succ_pos _)
    · exact .left _ _ (by omega)
  · rcases Nat.lt_or_eq_of_le (unvisited_append_le p visited (id :: below)) with hlt | heq
    · exact .left _ _ hlt
    · rw [heq]
      exact .right _ (Nat.lt_succ_self _)

theorem preorder_append (p : Program) (visited ids pending : List ClassId) :
    p.preorder visited (ids ++ pending) =
      p.preorder visited ids ++ p.preorder (visited ++ p.preorder visited ids) pending := by
  induction ids generalizing visited with
  | nil => simp [preorder]
  | cons id ids ih =>
    rw [List.cons_append, preorder, preorder]
    split
    · exact ih visited
    · simp only [ih, List.append_assoc, List.cons_append]

/-- The stack of the search stands for the calls of the recursive one: the extensions of a class are
on top of all that was pending before, so they are done with all that is below them first. -/
theorem visit_eq_preorder (hsame : ∀ a, a ∈ visited ↔ a ∈ seen)
    (hn : pending.length + p.unvisited visited ≤ n) :
    p.visit n visited pending = p.preorder seen pending := by
  induction n generalizing visited seen pending with
  | zero =>
    obtain rfl : pending = [] := List.length_eq_zero_iff.mp (by omega)
    simp [visit, preorder]
  | succ n ih =>
    cases pending with
    | nil => simp [visit, preorder]
    | cons id pending =>
      rw [List.length_cons] at hn
      rw [visit, preorder]
      by_cases hid : id ∈ visited
      · rw [if_pos (List.contains_iff_mem.mpr hid), if_pos ((hsame id).mp hid)]
        exact ih hsame (by omega)
      · rw [if_neg (by simpa using hid), if_neg (mt (hsame id).mpr hid)]
        have hleft := unvisited_cons (p := p) hid
        have hrest : p.visit n (id :: visited) (p.parents id ++ pending) =
            p.preorder (seen ++ [id]) (p.parents id ++ pending) :=
          ih (by simp [hsame, or_comm]) (by rw [List.length_append]; omega)
        rw [hrest, preorder_append, List.append_assoc]
        rfl

theorem reach_eq_preorder (p : Program) (id : ClassId) : p.reach id = p.preorder [] [id] :=
  visit_eq_preorder (fun _ => Iff.rfl) (reach_steps p id)

/-! ## The member that is found -/

def Declares (p : Program) (name : String) (id : ClassId) : Prop :=
  p.HasVariable name id ∨ ∃ n, p.HasMethod name n id

/-- What a class may answer for a name: a variable of its own, or a method of its own if it has no
variable of the name. -/
inductive Answers (p : Program) (name : String) (id : ClassId) : MemberRef → Prop
  | ofVariable {i : Nat} {v : Variable} (hv : p.variableAt? id i = some v) (hname : v.name = name) :
      Answers p name id (.variable id i)
  | ofRoutine {i : Nat} {f : Routine} (hnone : ¬ p.HasVariable name id)
      (hf : p.routineAt? id i = some f) (hname : f.name = name)
      (hmethod : f.isConstructor = false) : Answers p name id (.routine id i)

theorem Answers.declares (h : p.Answers name b m) : p.Declares name b := by
  cases h with
  | ofVariable hv hname => exact .inl ⟨_,_,hv,hname⟩
  | ofRoutine _ hf hname hmethod =>
    exact .inr ⟨_,_,_,hf,isMethodNamed_iff.mpr ⟨hmethod,hname⟩,rfl⟩

theorem answers_of_ownMember? (h : p.ownMember? name arity b = some m) : p.Answers name b m := by
  obtain ⟨c,hc,hm⟩ := Option.bind_eq_some_iff.mp h
  cases hi : c.variableIndex? name with
  | some i =>
    rw [hi] at hm
    obtain rfl : .variable b i = m := Option.some.inj hm
    obtain ⟨hlt,hname,-⟩ := List.findIdx?_eq_some_iff_getElem.mp hi
    refine .ofVariable ?_ (beq_iff_eq.mp hname)
    simp [variableAt?, hc, hlt]
  | none =>
    rw [hi] at hm
    obtain ⟨i,hi',rfl⟩ := Option.map_eq_some_iff.mp hm
    obtain ⟨f,hf,hname⟩ := Class.isMethodNamed_of_routineIndex? hi'
    obtain ⟨hmethod,hname⟩ := isMethodNamed_iff.mp hname
    refine .ofRoutine ?_ (routineAt?_eq_some_iff.mpr ⟨c,hc,hf⟩) hname hmethod
    rw [hasVariable_iff hc]
    rintro ⟨v,hv,hname⟩
    exact Class.variableIndex?_eq_none_iff.mp hi v hv hname

theorem ownMember?_eq_none_iff_not_declares :
    p.ownMember? name arity b = none ↔ ¬ p.Declares name b := by
  constructor
  · intro h
    have hvar : ¬ p.HasVariable name b := by
      rintro ⟨i,v,hv,hname⟩
      obtain ⟨c,hc,hv⟩ := Option.bind_eq_some_iff.mp hv
      have hsome : c.variableIndex? name ≠ none := fun hnone =>
        Class.variableIndex?_eq_none_iff.mp hnone v (List.mem_of_getElem? hv) hname
      obtain ⟨j,hj⟩ := Option.ne_none_iff_exists'.mp hsome
      simp [ownMember?, hc, hj] at h
    rintro (hv | ⟨n,hmethod⟩)
    · exact hvar hv
    · exact (ownMember?_eq_none_iff hvar).mp h n hmethod
  · intro h
    cases hm : p.ownMember? name arity b with
    | none => rfl
    | some m => exact absurd (answers_of_ownMember? hm).declares h

/-- The search without a bound on its steps: it ends at the first class that has an answer, or when
nothing is pending. -/
inductive Searches (p : Program) (name : String) (arity : Option Nat) :
    List ClassId → List ClassId → Option MemberRef → Prop
  | exhausted (visited : List ClassId) : Searches p name arity visited [] none
  | again {visited pending : List ClassId} {id : ClassId} {found : Option MemberRef}
      (hid : id ∈ visited) (h : Searches p name arity visited pending found) :
      Searches p name arity visited (id :: pending) found
  | here {visited pending : List ClassId} {id : ClassId} {m : MemberRef}
      (hid : id ∉ visited) (hm : p.ownMember? name arity id = some m) :
      Searches p name arity visited (id :: pending) (some m)
  | onward {visited pending : List ClassId} {id : ClassId} {found : Option MemberRef}
      (hid : id ∉ visited) (hnone : p.ownMember? name arity id = none)
      (h : Searches p name arity (id :: visited) (p.parents id ++ pending) found) :
      Searches p name arity visited (id :: pending) found

theorem searches_visit (hn : pending.length + p.unvisited visited ≤ n) :
    p.Searches name arity visited pending
      ((p.visit n visited pending).findSome? (p.ownMember? name arity)) := by
  induction n generalizing visited pending with
  | zero =>
    obtain rfl : pending = [] := List.length_eq_zero_iff.mp (by omega)
    exact .exhausted visited
  | succ n ih =>
    cases pending with
    | nil => exact .exhausted visited
    | cons id pending =>
      rw [List.length_cons] at hn
      rw [visit]
      by_cases hid : id ∈ visited
      · rw [if_pos (List.contains_iff_mem.mpr hid)]
        exact .again hid (ih (by omega))
      · rw [if_neg (by simpa using hid), List.findSome?_cons]
        cases hm : p.ownMember? name arity id with
        | some m => exact .here hid hm
        | none =>
          have hleft := unvisited_cons (p := p) hid
          exact .onward hid hm (ih (by rw [List.length_append]; omega))

/-- What the search for a name has to find: nothing exactly if nothing that the class reaches
declares the name, and else an answer of the first class that does, in the order of the recursive
search. -/
structure FindsFirst (p : Program) (id : ClassId) (name : String) (found : Option MemberRef) :
    Prop where
  none_iff : found = none ↔ ∀ b, p.Reaches id b → ¬ p.Declares name b
  first : ∀ m, found = some m → ∃ before b after, p.preorder [] [id] = before ++ b :: after ∧
    (∀ a ∈ before, ¬ p.Declares name a) ∧ p.Reaches id b ∧ p.Declares name b ∧ p.Answers name b m

/-- The search ends for every class of every program and finds the first member of the name. -/
theorem searches_finds_first (p : Program) (id : ClassId) (name : String) (arity : Option Nat) :
    p.Searches name arity [] [id] (p.findMember? id name arity) ∧
      p.FindsFirst id name (p.findMember? id name arity) := by
  refine ⟨searches_visit (reach_steps p id),?_,?_⟩
  · simp only [findMember?, List.findSome?_eq_none_iff, ownMember?_eq_none_iff_not_declares,
      mem_reach_iff]
  · intro m hm
    obtain ⟨before,b,after,hreach,hown,hbefore⟩ := List.findSome?_eq_some_iff.mp hm
    have hanswers := answers_of_ownMember? hown
    have hreached : p.Reaches id b := mem_reach_iff.mp (by simp [hreach])
    refine ⟨before,b,after,reach_eq_preorder p id ▸ hreach,?_,hreached,hanswers.declares,hanswers⟩
    exact fun a ha => ownMember?_eq_none_iff_not_declares.mp (hbefore a ha)

end Program

end Recast
