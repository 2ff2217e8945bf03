import Recast.Program.Basic

/-! # Scopes

A stack of frames says where in a program an expression stands: inside which member of which class,
and, behind a dot, on which receiver. A stack is cut back to an earlier depth to leave what was
entered since.
-/
namespace Recast

/-- A class of the program, or one from outside by name. -/
inductive ClassRef where
  | program (id : ClassId)
  | external (name : String)
  deriving DecidableEq, Repr

inductive Frame where
  | ofClass (c : ClassRef)
  | ofRoutine (owner : ClassId) (index : Nat)
  | ofVariable (owner : ClassId) (index : Nat)
  deriving DecidableEq, Repr

namespace Frame

/-- The class that the member of a frame belongs to. -/
def owner? : Frame → Option ClassId
  | .ofRoutine owner _ => some owner
  | .ofVariable owner _ => some owner
  | .ofClass _ => none

end Frame

/-- A stack of frames, the innermost last. -/
structure Scope where
  frames : List Frame := []
  deriving DecidableEq, Repr

namespace Scope

instance : Inhabited Scope := ⟨{}⟩

def depth (s : Scope) : Nat := s.frames.length

def push (s : Scope) (f : Frame) : Scope := ⟨s.frames ++ [f]⟩

def restore (s : Scope) (depth : Nat) : Scope := ⟨s.frames.take depth⟩

/-- Run `f` and drop the frames it has left on the stack. -/
def isolated {α : Type} (s : Scope) (f : Scope → α × Scope) : α × Scope :=
  let (a, t) := f s
  (a, t.restore s.depth)

/-- The innermost frame that `f` accepts. -/
def innermost? {α : Type} (s : Scope) (f : Frame → Option α) : Option α :=
  s.frames.reverse.findSome? f

def currentClass? (s : Scope) : Option ClassId :=
  s.innermost? fun
    | .ofClass (.program id) => some id
    | _ => none

def currentRoutine? (s : Scope) : Option (ClassId × Nat) :=
  s.innermost? fun
    | .ofRoutine owner index => some (owner, index)
    | _ => none

def currentVariable? (s : Scope) : Option (ClassId × Nat) :=
  s.innermost? fun
    | .ofVariable owner index => some (owner, index)
    | _ => none

def memberOwner? (s : Scope) : Option ClassId := s.innermost? Frame.owner?

/-- The receiver of a member: a class on top of the stack, with the frame of a member below. -/
def receiver? (s : Scope) : Option ClassRef :=
  match s.frames.getLast? with
  | some (.ofClass c) => if s.memberOwner?.isSome then some c else none
  | _ => none

end Scope

end Recast
