import Recast.Program.Basic

/-! # Final order

Classes come by the rank of their declaration, then by the number of their extensions, then by name;
variables static ones first, then by access and name; methods by access and name. What is equal in
all of that keeps its order.
-/
namespace Recast

/-- Compare by a number first, and by `next` where that decides nothing. -/
def leThen (a b : Nat) (next : Bool) : Bool := a < b || (a == b && next)

def Class.le (a b : Class) : Bool :=
  leThen a.declaration.rank b.declaration.rank <|
    leThen a.extensions.length b.extensions.length (decide (a.name ≤ b.name))

def Variable.le (a b : Variable) : Bool :=
  leThen (!a.isStatic).toNat (!b.isStatic).toNat <|
    leThen a.access.rank b.access.rank (decide (a.name ≤ b.name))

def Routine.le (a b : Routine) : Bool :=
  leThen a.access.rank b.access.rank (decide (a.name ≤ b.name))

namespace Class

def sortMembers (c : Class) : Class :=
  { c with vars := sortBy Variable.le c.vars, routines := sortBy Routine.le c.routines }

end Class

namespace Program

/-- Put classes and members in their final order. -/
def sort (p : Program) : Program :=
  { p with classes := (sortBy Class.le p.classes).map Class.sortMembers, frozen := true }

end Program

end Recast
