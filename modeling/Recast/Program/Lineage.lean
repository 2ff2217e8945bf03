import Recast.Program.Basic

/-! # Extensions

The classes that a class extends, directly or through others. `reach` lists everything in
depth-first order, interfaces included; `baseChain` lists the bases that are not interfaces. Both
visit a class once, so cycles end.
-/
namespace Recast.Program

def parents (p : Program) (id : ClassId) : List ClassId :=
  match p.class? id with
  | some c => c.extensions.filterMap p.find?
  | none => []

def isInterfaceId (p : Program) (id : ClassId) : Bool :=
  (p.class? id).any Class.isInterface

def bases (p : Program) (id : ClassId) : List ClassId :=
  (p.parents id).filter fun b => !p.isInterfaceId b

def extensionCount (p : Program) : Nat :=
  p.classes.foldl (fun n c => n + c.extensions.length) 0

/-- Visit the pending classes in depth-first order, in at most `n` steps. -/
def visit (p : Program) : Nat → List ClassId → List ClassId → List ClassId
  | 0, _, _ => []
  | _, _, [] => []
  | n + 1, visited, id :: pending =>
    if visited.contains id then visit p n visited pending
    else id :: visit p n (id :: visited) (p.parents id ++ pending)

/-- A class and everything it extends, in depth-first order. -/
def reach (p : Program) (id : ClassId) : List ClassId := p.visit (p.extensionCount + 1) [] [id]

def unseen (seen : List ClassId) : List ClassId → List ClassId
  | [] => []
  | c :: cs => if seen.contains c then unseen seen cs else c :: unseen (c :: seen) cs

/-- Extend a chain of bases by the new bases of the pending classes, the last found first, in at
most `n` steps. -/
def climb (p : Program) (start : ClassId) : Nat → List ClassId → List ClassId → List ClassId
  | 0, chain, _ => chain
  | _, chain, [] => chain
  | n + 1, chain, id :: pending =>
    let new := unseen (start :: chain) (p.bases id)
    climb p start n (chain ++ new) (new.reverse ++ pending)

def baseChain (p : Program) (id : ClassId) : List ClassId := p.climb id (p.size + 1) [] [id]

/-- The member of one class with the name: a variable if there is one, else a method. -/
def ownMember? (p : Program) (name : String) (arity : Option Nat) (id : ClassId) :
    Option MemberRef := do
  let c ← p.class? id
  match c.variableIndex? name with
  | some i => some (.variable id i)
  | none => (c.routineIndex? name arity).map (.routine id)

def findMember? (p : Program) (id : ClassId) (name : String) (arity : Option Nat) :
    Option MemberRef :=
  (p.reach id).findSome? (p.ownMember? name arity)

end Recast.Program
