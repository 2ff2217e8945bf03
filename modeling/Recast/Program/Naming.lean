import Recast.Program.Lineage

/-! # Final names

The target has no overloading. Several constructors of a class are told apart as `New1`, `New2` and
so on, the methods of one name by a number from the second one on. A method that shares its name but
not its parameter count with a method of a base gets one more number.
-/
namespace Recast

namespace Routine

def rename (f : Routine) (name : String) : Routine := { f with remap := some name }

def numberConstructors (n : Nat) : List Routine → List Routine
  | [] => []
  | f :: fs =>
    if f.isInstanceConstructor then
      f.rename ("New" ++ toString n) :: numberConstructors (n + 1) fs
    else f :: numberConstructors n fs

/-- How many constructors are renamed: all of them, if there are at least two. -/
def constructorRenames (fs : List Routine) : Nat :=
  let n := fs.countP isInstanceConstructor
  if n < 2 then 0 else n

def nameConstructors (fs : List Routine) : List Routine :=
  if constructorRenames fs = 0 then fs else numberConstructors 1 fs

/-- Number the methods whose name came up before; `earlier` holds the names of the methods already
passed. -/
def nameOverloads (earlier : List String) : List Routine → List Routine
  | [] => []
  | f :: fs =>
    if f.isConstructor then f :: nameOverloads earlier fs
    else
      let n := earlier.count f.name + 1
      (if 1 < n then f.rename (f.name ++ toString n) else f) ::
        nameOverloads (f.name :: earlier) fs

def overloadRenames (earlier : List String) : List Routine → Nat
  | [] => 0
  | f :: fs =>
    if f.isConstructor then overloadRenames earlier fs
    else (if earlier.contains f.name then 1 else 0) + overloadRenames (f.name :: earlier) fs

/-- A method that shares its name with inherited methods, but not its arity with any of them. -/
def conflicts (inherited : List Routine) (f : Routine) : Bool :=
  let arities := (inherited.filter fun g => !g.isConstructor && g.name == f.name).map arity
  !f.isConstructor && !arities.isEmpty && !arities.contains f.arity

def nameConflicts (inherited : List Routine) (n : Nat) : List Routine → List Routine
  | [] => []
  | f :: fs =>
    if conflicts inherited f then
      f.rename (f.emittedName ++ toString n) :: nameConflicts inherited (n + 1) fs
    else f :: nameConflicts inherited n fs

end Routine

namespace Program

open Routine

def inherited (p : Program) (id : ClassId) : List Routine :=
  (p.baseChain id).flatMap fun b => ((p.class? b).map Class.routines).getD []

def named (p : Program) (id : ClassId) (c : Class) : Class :=
  let target := p.rules.staticRedirects.get? c.name
  { c with
    routines := nameConflicts (p.inherited id) 1 (nameOverloads [] (nameConstructors c.routines))
    vars := match target with
      | none => c.vars
      | some _ => c.vars.map fun v => if v.isStatic then { v with remapClass := target } else v
    resolved := true }

/-- How many members of a class are renamed, counting repeated renaming. -/
def renames (p : Program) (id : ClassId) (c : Class) : Nat :=
  constructorRenames c.routines + overloadRenames [] c.routines +
    c.routines.countP (conflicts (p.inherited id))

/-- Name the members of one class; none if they are named already. -/
def resolveClass? (p : Program) (id : ClassId) : Option (Nat × Program) := do
  let c ← p.class? id
  if c.resolved then none
  else return (p.renames id c, p.modifyClass id (p.named id))

structure Resolution where
  classes : Nat := 0
  renamed : Nat := 0
  deriving DecidableEq, Repr

def resolveStep (s : Program × Resolution) (id : ClassId) : Program × Resolution :=
  match s.1.resolveClass? id with
  | some (n, p) => (p, ⟨s.2.classes + 1, s.2.renamed + n⟩)
  | none => s

def resolve (p : Program) : Program × Resolution :=
  (List.range p.size).foldl resolveStep (p, {})

end Program

end Recast
