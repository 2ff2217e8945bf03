import Mathlib.Data.List.Basic
import Recast.Proofs.Naming.Resolution

/-! # Final names in closed form

The final name of a routine is a stem from the source and a number that is read off the routines
before it. Two such names are one text exactly when one stem is the other followed by the digits
that open the other's number.
-/
namespace Recast

/-- A final name, as a stem and the digits behind it. -/
structure NumberedName where
  stem : String
  number : String
  deriving DecidableEq, Repr

def IsDigits (s : String) : Prop := ∀ c ∈ s.toList, c.isDigit = true

instance (s : String) : Decidable (IsDigits s) := inferInstanceAs (Decidable (∀ c ∈ s.toList, _))

theorem isDigits_empty : IsDigits "" := by simp [IsDigits]

theorem isDigits_toString (n : Nat) : IsDigits (toString n) := by
  intro c hc
  rw [Nat.toString_eq_repr, Nat.toList_repr] at hc
  exact Nat.isDigit_of_mem_toDigits (by decide) (by decide) hc

theorem IsDigits.append {s t : String} (hs : IsDigits s) (ht : IsDigits t) : IsDigits (s ++ t) := by
  intro c hc
  rw [String.toList_append] at hc
  rcases List.mem_append.mp hc with hc | hc
  · exact hs c hc
  · exact ht c hc

theorem IsDigits.of_append {s t : String} (h : IsDigits (s ++ t)) : IsDigits s := by
  intro c hc
  exact h c (by simp [hc])

theorem append_eq_append_iff {a x b y : String} :
    a ++ x = b ++ y ↔ (∃ d, b = a ++ d ∧ x = d ++ y) ∨ ∃ d, a = b ++ d ∧ y = d ++ x := by
  simp only [← String.toList_inj, String.toList_append, List.append_eq_append_iff]
  refine or_congr ?_ ?_
  · exact ⟨fun ⟨d,h⟩ => ⟨.ofList d, by simpa using h⟩, fun ⟨d,h⟩ => ⟨d.toList,h⟩⟩
  · exact ⟨fun ⟨d,h⟩ => ⟨.ofList d, by simpa using h⟩, fun ⟨d,h⟩ => ⟨d.toList,h⟩⟩

namespace NumberedName

def text (a : NumberedName) : String := a.stem ++ a.number

/-- One stem is the other followed by digits that open the other's number. -/
def Clashes (a b : NumberedName) : Prop :=
  ∃ d, IsDigits d ∧
    (b.stem = a.stem ++ d ∧ a.number = d ++ b.number ∨
      a.stem = b.stem ++ d ∧ b.number = d ++ a.number)

theorem clashes_iff {a b : NumberedName} (ha : IsDigits a.number) (hb : IsDigits b.number) :
    a.Clashes b ↔ a.text = b.text := by
  rw [text, text, append_eq_append_iff]
  constructor
  · rintro ⟨d,-,h | h⟩
    · exact .inl ⟨d,h⟩
    · exact .inr ⟨d,h⟩
  · rintro (⟨d,hs,hn⟩ | ⟨d,hs,hn⟩)
    · exact ⟨d,(hn ▸ ha).of_append,.inl ⟨hs,hn⟩⟩
    · exact ⟨d,(hn ▸ hb).of_append,.inr ⟨hs,hn⟩⟩

end NumberedName

namespace Routine

/-- A routine that is called by a name of its own: a method, or a constructor with a final name. -/
def isEntry (f : Routine) : Bool := !f.isConstructor || (f.isInstanceConstructor && f.remap.isSome)

def isMethodNamed (name : String) (f : Routine) : Bool := !f.isConstructor && f.name == name

theorem getElem?_numberConstructors (n i : Nat) (fs : List Routine) :
    (numberConstructors n fs)[i]? = fs[i]?.map fun f =>
      if f.isInstanceConstructor then
        f.rename ("New" ++ toString (n + (fs.take i).countP isInstanceConstructor))
      else f := by
  induction fs generalizing n i with
  | nil => simp [numberConstructors]
  | cons f fs ih =>
    cases i with
    | zero => by_cases hf : f.isInstanceConstructor <;> simp [numberConstructors, hf]
    | succ i =>
      by_cases hf : f.isInstanceConstructor
      · simp [numberConstructors, hf, ih, Nat.add_assoc, Nat.add_comm 1]
      · simp [numberConstructors, hf, ih]

theorem getElem?_nameOverloads (earlier : List String) (i : Nat) (fs : List Routine) :
    (nameOverloads earlier fs)[i]? = fs[i]?.map fun f =>
      let n := earlier.count f.name + (fs.take i).countP (isMethodNamed f.name) + 1
      if !f.isConstructor && decide (1 < n) then f.rename (f.name ++ toString n) else f := by
  induction fs generalizing earlier i with
  | nil => simp [nameOverloads]
  | cons f fs ih =>
    cases i with
    | zero => by_cases hf : f.isConstructor <;> simp [nameOverloads, hf]
    | succ i =>
      by_cases hf : f.isConstructor
      · simp [nameOverloads, hf, ih, isMethodNamed]
      · simp only [nameOverloads, hf, Bool.false_eq_true, ↓reduceIte, List.getElem?_cons_succ, ih]
        congr 1
        funext g
        have hcount : (f.name :: earlier).count g.name + (fs.take i).countP (isMethodNamed g.name) =
            earlier.count g.name + ((f :: fs).take (i + 1)).countP (isMethodNamed g.name) := by
          simp only [List.count_cons, List.take_succ_cons, List.countP_cons, isMethodNamed, hf,
            Bool.not_false, Bool.true_and]
          omega
        simp only [hcount]

theorem getElem?_nameConflicts (inherited : List Routine) (n i : Nat) (fs : List Routine) :
    (nameConflicts inherited n fs)[i]? = fs[i]?.map fun f =>
      if conflicts inherited f then
        f.rename (f.emittedName ++ toString (n + (fs.take i).countP (conflicts inherited)))
      else f := by
  induction fs generalizing n i with
  | nil => simp [nameConflicts]
  | cons f fs ih =>
    cases i with
    | zero => by_cases hf : conflicts inherited f <;> simp [nameConflicts, hf]
    | succ i =>
      by_cases hf : conflicts inherited f
      · simp [nameConflicts, hf, ih, Nat.add_assoc, Nat.add_comm 1]
      · simp [nameConflicts, hf, ih]

theorem getElem?_nameConstructors (i : Nat) (fs : List Routine) :
    (nameConstructors fs)[i]? = fs[i]?.map fun f =>
      if f.isInstanceConstructor && decide (2 ≤ fs.countP isInstanceConstructor) then
        f.rename ("New" ++ toString ((fs.take i).countP isInstanceConstructor + 1))
      else f := by
  unfold nameConstructors constructorRenames
  by_cases hn : 2 ≤ fs.countP isInstanceConstructor
  · have hlt : ¬ fs.countP isInstanceConstructor < 2 := by omega
    have hpos : ¬ fs.countP isInstanceConstructor = 0 := by omega
    simp only [hlt, hpos, ↓reduceIte, getElem?_numberConstructors, hn, decide_true, Bool.and_true,
      Nat.add_comm 1]
  · have hlt : fs.countP isInstanceConstructor < 2 := by omega
    simp [hlt, hn]

/-- How many routines have a property of signatures does not change by naming. -/
theorem countP_congr_signature {gs hs : List Routine} (h : gs.map signature = hs.map signature)
    {a : Routine → Bool} (ha : ∀ f g : Routine, f.signature = g.signature → a f = a g) :
    gs.countP a = hs.countP a := by
  induction gs generalizing hs with
  | nil => simp_all
  | cons g gs ih =>
    cases hs with
    | nil => simp at h
    | cons k ks =>
      obtain ⟨hk,hks⟩ := List.cons_eq_cons.mp h
      simp only [List.countP_cons, ih hks, ha g k hk]

theorem isMethodNamed_congr (name : String) (f g : Routine) (h : f.signature = g.signature) :
    isMethodNamed name f = isMethodNamed name g := by
  obtain ⟨hname,hcons,-⟩ := signature_eq_iff.mp h
  simp only [isMethodNamed, hname, hcons]

end Routine

namespace Class

/-- The place of a routine among the instance constructors of its class, from one on. -/
def constructorRank (c : Class) (i : Nat) : Nat :=
  (c.routines.take i).countP Routine.isInstanceConstructor + 1

/-- The place of a routine among the methods of one name, from one on. -/
def overloadRank (c : Class) (i : Nat) (name : String) : Nat :=
  (c.routines.take i).countP (Routine.isMethodNamed name) + 1

end Class

namespace Program
open Routine

/-- The place of a routine among those of its class that are in conflict with a base. -/
def conflictRank (p : Program) (id : ClassId) (c : Class) (i : Nat) : Nat :=
  (c.routines.take i).countP (conflicts (p.inherited id)) + 1

/-- The digits that the overloads of a method add to its name. -/
def overloadNumber (c : Class) (i : Nat) (f : Routine) : String :=
  if 1 < c.overloadRank i f.name then toString (c.overloadRank i f.name) else ""

/-- The digits that a conflict with a base adds to the name of a method. -/
def conflictNumber (p : Program) (id : ClassId) (c : Class) (i : Nat) (f : Routine) : String :=
  if conflicts (p.inherited id) f then toString (p.conflictRank id c i) else ""

/-- All digits that are put behind the name of a method. -/
def addedDigits (p : Program) (id : ClassId) (c : Class) (i : Nat) (f : Routine) : String :=
  overloadNumber c i f ++ p.conflictNumber id c i f

/-- The instance constructors of a class get new names. -/
def renamesConstructors (c : Class) : Bool := 2 ≤ c.routines.countP isInstanceConstructor

/-- The final name of the routine at a position of a class. -/
def numberedName (p : Program) (id : ClassId) (c : Class) (i : Nat) (f : Routine) : NumberedName :=
  if c.resolved then ⟨f.emittedName, ""⟩
  else if f.isConstructor then
    if f.isInstanceConstructor && renamesConstructors c then ⟨"New", toString (c.constructorRank i)⟩
    else ⟨f.emittedName, ""⟩
  else
    ⟨if 1 < c.overloadRank i f.name then f.name else f.emittedName, p.addedDigits id c i f⟩

/-- A routine that comes to be called by a name of its own. -/
def becomesEntry (c : Class) (f : Routine) : Bool :=
  !f.isConstructor ||
    (f.isInstanceConstructor && (f.remap.isSome || (!c.resolved && renamesConstructors c)))

theorem isDigits_number (p : Program) (id : ClassId) (c : Class) (i : Nat) (f : Routine) :
    IsDigits (p.numberedName id c i f).number := by
  unfold numberedName
  split
  · exact isDigits_empty
  · split
    · split
      · exact isDigits_toString _
      · exact isDigits_empty
    · refine IsDigits.append ?_ ?_
      · unfold overloadNumber
        split
        · exact isDigits_toString _
        · exact isDigits_empty
      · unfold conflictNumber
        split
        · exact isDigits_toString _
        · exact isDigits_empty

theorem numberedName_clashes_iff {p : Program} {a b : ClassId} {c d : Class} {i j : Nat}
    {f g : Routine} : (p.numberedName a c i f).Clashes (p.numberedName b d j g) ↔
      (p.numberedName a c i f).text = (p.numberedName b d j g).text :=
  NumberedName.clashes_iff (p.isDigits_number a c i f) (p.isDigits_number b d j g)

/-- The routine at a position of a class whose members are not named yet, once they are. -/
theorem getElem?_named (p : Program) (id : ClassId) (c : Class) (i : Nat) :
    (p.named id c).routines[i]? = c.routines[i]?.map fun f =>
      let f := if f.isInstanceConstructor && renamesConstructors c then
        f.rename ("New" ++ toString (c.constructorRank i)) else f
      let g := if !f.isConstructor && decide (1 < c.overloadRank i f.name) then
        f.rename (f.name ++ toString (c.overloadRank i f.name)) else f
      if conflicts (p.inherited id) g then
        g.rename (g.emittedName ++ toString (p.conflictRank id c i)) else g := by
  have hsig : (nameConstructors c.routines).map signature = c.routines.map signature :=
    map_signature_congr (map_unnamed_nameConstructors _)
  have htake {gs : List Routine} (h : gs.map signature = c.routines.map signature) :
      (gs.take i).map signature = (c.routines.take i).map signature := by
    rw [List.map_take, h, ← List.map_take]
  have hover (name : String) :
      ((nameConstructors c.routines).take i).countP (isMethodNamed name) + 1 =
        c.overloadRank i name :=
    congrArg (· + 1) (countP_congr_signature (htake hsig) (isMethodNamed_congr name))
  have hconf : 1 + ((nameOverloads [] (nameConstructors c.routines)).take i).countP
      (conflicts (p.inherited id)) = p.conflictRank id c i := by
    rw [Nat.add_comm]
    refine congrArg (· + 1) (countP_congr_signature (htake ?_) fun f g => conflicts_congr rfl)
    rw [map_signature_congr (map_unnamed_nameOverloads _ _), hsig]
  simp only [named, getElem?_nameConflicts, getElem?_nameOverloads, getElem?_nameConstructors,
    Option.map_map, List.count_nil, Nat.zero_add, hover, hconf]
  rfl

section routine
variable (p : Program) (id : ClassId) {c : Class} {i : Nat} {f : Routine}

theorem named_constructor (hf : c.routines[i]? = some f) (hc : f.isConstructor = true) :
    (p.named id c).routines[i]? = some (if f.isInstanceConstructor && renamesConstructors c then
      f.rename ("New" ++ toString (c.constructorRank i)) else f) := by
  have hcon (g : Routine) (hg : g.isConstructor = true) :
      conflicts (p.inherited id) g = false := by simp [conflicts, hg]
  rw [getElem?_named, hf, Option.map_some]
  by_cases hn : (f.isInstanceConstructor && renamesConstructors c) = true
  · simp [hn, hc, hcon]
  · simp [hn, hc, hcon]

theorem named_method (hf : c.routines[i]? = some f) (hc : f.isConstructor = false) :
    ∃ g, (p.named id c).routines[i]? = some g ∧ g.signature = f.signature ∧
      g.emittedName = (if 1 < c.overloadRank i f.name then f.name else f.emittedName) ++
        p.addedDigits id c i f := by
  have hinst : f.isInstanceConstructor = false := by simp [isInstanceConstructor, hc]
  rw [getElem?_named, hf, Option.map_some]
  refine ⟨_,rfl,?_,?_⟩
  · by_cases hrank : 1 < c.overloadRank i f.name <;>
      by_cases hconf : conflicts (p.inherited id) f <;> simp [hinst, hc, hrank, hconf]
  · by_cases hrank : 1 < c.overloadRank i f.name <;>
      by_cases hconf : conflicts (p.inherited id) f <;>
      simp [hinst, hc, hrank, hconf, addedDigits, overloadNumber, conflictNumber,
        String.append_assoc]

/-- Naming gives every routine its numbered name and keeps its signature. -/
theorem settled_routine (hf : c.routines[i]? = some f) :
    ∃ g, (p.settled id c).routines[i]? = some g ∧ g.signature = f.signature ∧
      g.emittedName = (p.numberedName id c i f).text ∧ g.isEntry = becomesEntry c f := by
  cases hr : c.resolved with
  | true =>
    exact ⟨f,by simp [settled, hr, hf],rfl,by simp [numberedName, hr, NumberedName.text],
      by simp [isEntry, becomesEntry, hr]⟩
  | false =>
    have hset : p.settled id c = p.named id c := by simp [settled, hr]
    cases hc : f.isConstructor with
    | true =>
      refine ⟨_,hset ▸ named_constructor p id hf hc,?_⟩
      by_cases hn : (f.isInstanceConstructor && renamesConstructors c) = true
      · obtain ⟨hi,hm⟩ := Bool.and_eq_true_iff.mp hn
        simp [numberedName, NumberedName.text, isEntry, becomesEntry, hr, hc, hi, hm]
      · simp only [hn, Bool.false_eq_true, ↓reduceIte, numberedName, NumberedName.text, isEntry,
          becomesEntry, hr, hc, Bool.not_false, Bool.true_and, String.append_empty, true_and]
        cases hi : f.isInstanceConstructor <;> simp_all
    | false =>
      obtain ⟨g,hg,hsig,hname⟩ := named_method p id hf hc
      have hgc : g.isConstructor = false := (signature_eq_iff.mp hsig).2.1.trans hc
      exact ⟨g,hset ▸ hg,hsig,by simpa [numberedName, hr, hc, NumberedName.text] using hname,
        by simp [isEntry, becomesEntry, hc, hgc]⟩

end routine

end Program

end Recast
