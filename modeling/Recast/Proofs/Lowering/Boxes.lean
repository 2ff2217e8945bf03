import Recast.Proofs.Lowering.Context

/-! # Boxes

The arguments by reference of an expression in the order in which lowering meets them, and what
the hoisted lines of an expression have to do with them: each argument has a box, with a line that
makes it and a line that takes the value out again.
-/
namespace Recast

namespace Scope

/-- There is a member around the place at hand. -/
def owned (s : Scope) : Bool := s.memberOwner?.isSome

/-- The place at hand is behind a dot. -/
def facing (s : Scope) : Bool := s.receiver?.isSome

theorem memberOwner?_push_ofClass (s : Scope) (c : ClassRef) :
    (s.push (.ofClass c)).memberOwner? = s.memberOwner? := by
  simp only [memberOwner?,innermost?,push,List.reverse_concat,List.findSome?_cons]
  rfl

theorem owned_push_ofClass (s : Scope) (c : ClassRef) : (s.push (.ofClass c)).owned = s.owned := by
  rw [owned,memberOwner?_push_ofClass,owned]

theorem facing_push_ofClass (s : Scope) (c : ClassRef) :
    (s.push (.ofClass c)).facing = s.owned := by
  have h := s.memberOwner?_push_ofClass c
  unfold facing receiver? owned
  rw [h]
  cases hs : s.memberOwner? <;> simp [push]

end Scope

/-- Nothing is left of the expression: it is the name of a namespace, or something that is called
or looked up in one as if it were a value. Behind a dot a name is one of a member. -/
def Expr.vanishes (o : Oracle) (facing : Bool) : Expr → Bool
  | .identifier id _ =>
    !facing && (o.symbolOf? id).any fun symbol => symbol.kind == .namespaceName
  | .memberAccess _ target name => target.vanishes o facing && name.vanishes o facing
  | .qualifiedName _ target name => target.vanishes o facing && name.vanishes o facing
  | .invocation _ target _ => target.vanishes o facing
  | .elementAccess _ target _ => target.vanishes o facing
  | _ => false

/-- An argument by reference, and whether its lines reach the top of the expression. -/
structure Passed where
  argument : Argument
  kept : Bool := true

namespace Passed

def lost (p : Passed) : Passed := { p with kept := false }

def delivered (ps : List Passed) : List Argument := (ps.filter kept).map argument

theorem delivered_append (ps qs : List Passed) :
    delivered (ps ++ qs) = delivered ps ++ delivered qs := by
  simp [delivered]

theorem delivered_lost (ps : List Passed) : delivered (ps.map lost) = [] := by
  simp [delivered,lost]

theorem delivered_eq_iff (ps : List Passed) :
    (delivered ps).length = ps.length ↔ ∀ p ∈ ps, p.kept = true := by
  simp [delivered,List.length_filter_eq_length_iff]

/-- An argument, given what is passed inside of it, which comes first. -/
def ofArgument (passing : Passing) (e : Expr) (inner : List Passed) : List Passed :=
  match passing, e with
  | .byOut, .declaration .. => [{ argument := ⟨passing,e⟩ }]
  | .byOut, _ | .byRef, _ => inner ++ [{ argument := ⟨passing,e⟩ }]
  | _, _ => inner

theorem ofArgument_byOut {e : Expr} (hd : ∀ id ty name, e ≠ .declaration id ty name)
    (inner : List Passed) :
    ofArgument .byOut e inner = inner ++ [{ argument := ⟨.byOut,e⟩ }] := by
  cases e with
  | declaration id ty name => exact absurd rfl (hd id ty name)
  | _ => rfl

mutual

/-- The arguments by reference in an expression outside of lambdas, in the order in which they are
lowered. What is left of a target of which nothing is left is the name behind it; the lines of the
target are lost. -/
def expr (o : Oracle) (owned facing : Bool) : Expr → List Passed
  | .assignment _ _ target value => expr o owned facing target ++ expr o owned facing value
  | .memberAccess _ target name | .qualifiedName _ target name =>
    if target.vanishes o facing then
      (expr o owned facing target).map lost ++ expr o owned facing name
    else expr o owned facing target ++ expr o owned owned name
  | .conditionalAccess _ target rest => expr o owned facing target ++ expr o owned facing rest
  | .memberBinding _ name => expr o owned owned name
  | .invocation _ target args => expr o owned facing target ++ arguments o owned facing args
  | .elementAccess _ target args => expr o owned facing target ++ arguments o owned facing args
  | .objectCreation _ _ args init =>
    match init with
    | some e => arguments o owned facing args ++ expr o owned facing e
    | none => arguments o owned facing args
  | .binary _ _ left right => expr o owned facing left ++ expr o owned facing right
  | .conditional _ condition whenTrue whenFalse =>
    expr o owned facing condition ++ expr o owned facing whenTrue ++ expr o owned facing whenFalse
  | .cast _ _ operand => expr o owned facing operand
  | .prefixUnary _ _ operand => expr o owned facing operand
  | .postfixUnary _ _ operand => expr o owned facing operand
  | .interpolatedString _ parts => interpolation o owned facing parts
  | .tuple _ elements => arguments o owned facing elements
  | .initializer _ shape elements => initializers o owned facing shape elements
  | .parenthesized _ inner => expr o owned facing inner
  | .arrayCreation _ _ sizes init =>
    match init with
    | some e => exprs o owned facing sizes ++ expr o owned facing e
    | none => exprs o owned facing sizes
  | .await _ operand => expr o owned facing operand
  | .implicitArrayCreation _ init => expr o owned facing init
  | .identifier .. | .genericName .. | .this _ | .base _ | .literal .. | .simpleLambda ..
  | .parenthesizedLambda .. | .defaultValue .. | .predefinedType .. | .typeOf .. | .declaration ..
  | .other .. => []

def exprs (o : Oracle) (owned facing : Bool) : List Expr → List Passed
  | [] => []
  | e :: es => expr o owned facing e ++ exprs o owned facing es

def arguments (o : Oracle) (owned facing : Bool) : List Argument → List Passed
  | [] => []
  | ⟨passing,e⟩ :: args =>
    ofArgument passing e (expr o owned facing e) ++ arguments o owned facing args

/-- The name of a member that an initializer sets is no expression of its own. -/
def initializers (o : Oracle) (owned facing : Bool) (shape : InitializerShape) :
    List Expr → List Passed
  | [] => []
  | e :: es =>
    (match shape, e with
      | .object, .assignment _ _ (.identifier _ _) value => expr o owned facing value
      | _, e => expr o owned facing e) ++ initializers o owned facing shape es

def interpolation (o : Oracle) (owned facing : Bool) : List InterpolationPart → List Passed
  | [] => []
  | .text _ :: parts => interpolation o owned facing parts
  | .expression e _ :: parts => expr o owned facing e ++ interpolation o owned facing parts

end

end Passed

/-- `TryNext(out var item)` -/
def Expr.takesNext : Expr :=
  .invocation 0 (.identifier 0 "TryNext") [⟨.byOut,.declaration 0 none "item"⟩]

/-- The box of an argument: the number of its temporary variable, the line that makes it and the
line that takes the value out again. -/
structure Box where
  number : Nat
  argument : Argument
  opening : String
  closing : String

def Box.temp (number : Nat) : String := "out" ++ "_" ++ toString number

namespace Surroundings
variable (env : Surroundings)

/-- The lines of a box are those of its argument. A new local gets the value of the box. Anything
else is lowered right before the box is numbered and gets the value back; a reference also goes into
the box with its value. -/
inductive Builds : Box → Prop
  | declares (n : Nat) (id : NodeId) (ty : Option SourceType) (name : String) (mutable : Bool) :
    Builds {
      number := n
      argument := ⟨.byOut,.declaration id ty name⟩
      opening := env.dialect.boxDeclaration (Box.temp n) none
      closing := env.dialect.localDeclaration name
        ((SourceType.explicit? ty).map fun ty => (env.tables.spell (.ofType ty)).text)
        (some (env.dialect.boxValue (Box.temp n))) mutable }
  | writesBack {e : Expr} {s t : LowerState} {l : Lowered} (run : env.expr none e s = (.ok l,t))
    (new : ∀ id ty name, e ≠ .declaration id ty name) :
    Builds {
      number := t.temps + 1
      argument := ⟨.byOut,e⟩
      opening := env.dialect.boxDeclaration (Box.temp (t.temps + 1)) none
      closing := env.dialect.expressionStatement
        (env.dialect.assignment l.code .assign (env.dialect.boxValue (Box.temp (t.temps + 1)))) }
  | refers {e : Expr} {s t : LowerState} {l : Lowered} (run : env.expr none e s = (.ok l,t)) :
    Builds {
      number := t.temps + 1
      argument := ⟨.byRef,e⟩
      opening := env.dialect.boxDeclaration (Box.temp (t.temps + 1)) (some l.code)
      closing := env.dialect.expressionStatement
        (env.dialect.assignment l.code .assign (env.dialect.boxValue (Box.temp (t.temps + 1)))) }

/-- The hoisted lines are those of boxes for the arguments, in order, with increasing numbers
between the bounds. The values are taken out in some order, each once. -/
structure Boxed (args : List Argument) (lo hi : Nat) (h : Hoists) (boxes closings : List Box) :
    Prop where
  arguments : boxes.map Box.argument = args
  before : h.before = boxes.map Box.opening
  after : h.after = closings.map Box.closing
  closings : closings.Perm boxes
  builds : ∀ b ∈ boxes, env.Builds b
  increasing : boxes.Pairwise fun b c => b.number < c.number
  bounds : ∀ b ∈ boxes, lo < b.number ∧ b.number ≤ hi
  le : lo ≤ hi

def Hoisted (args : List Argument) (lo hi : Nat) (h : Hoists) : Prop :=
  ∃ boxes closings, env.Boxed args lo hi h boxes closings

namespace Hoisted
variable {env} {args args' : List Argument} {lo mid hi : Nat} {h k : Hoists}

theorem le (H : env.Hoisted args lo hi h) : lo ≤ hi :=
  let ⟨_,_,b⟩ := H
  b.le

theorem length_before (H : env.Hoisted args lo hi h) : h.before.length = args.length := by
  obtain ⟨_,_,b⟩ := H
  simp [b.before,← b.arguments]

theorem length_after (H : env.Hoisted args lo hi h) : h.after.length = args.length := by
  obtain ⟨_,_,b⟩ := H
  simp [b.after,← b.arguments,b.closings.length_eq]

theorem nil (hle : lo ≤ hi) : env.Hoisted [] lo hi {} :=
  ⟨[],[],rfl,rfl,rfl,.nil,by simp,.nil,by simp,hle⟩

theorem widen {lo' hi' : Nat} (H : env.Hoisted args lo hi h) (hlo : lo' ≤ lo) (hhi : hi ≤ hi') :
    env.Hoisted args lo' hi' h := by
  obtain ⟨boxes,closings,b⟩ := H
  refine ⟨boxes,closings,{ b with bounds := ?_, le := Nat.le_trans hlo (Nat.le_trans b.le hhi) }⟩
  intro x hx
  have hb := b.bounds x hx
  omega

/-- What comes later has the larger numbers. -/
theorem append (H : env.Hoisted args lo mid h) (K : env.Hoisted args' mid hi k) :
    env.Hoisted (args ++ args') lo hi (h ++ k) := by
  obtain ⟨bs,cs,b⟩ := H
  obtain ⟨bs',cs',b'⟩ := K
  refine ⟨bs ++ bs',cs ++ cs',?_⟩
  constructor
  case arguments => rw [List.map_append,b.arguments,b'.arguments]
  case before => rw [List.map_append,← b.before,← b'.before]; rfl
  case after => rw [List.map_append,← b.after,← b'.after]; rfl
  case closings => exact b.closings.append b'.closings
  case builds =>
    intro x hx
    exact (List.mem_append.mp hx).elim (b.builds x) (b'.builds x)
  case increasing =>
    refine List.pairwise_append.mpr ⟨b.increasing,b'.increasing,fun x hx y hy => ?_⟩
    exact Nat.lt_of_le_of_lt (b.bounds x hx).2 (b'.bounds y hy).1
  case bounds =>
    intro x hx
    have hle := b.le
    have hle' := b'.le
    rcases List.mem_append.mp hx with hx | hx
    · have hb := b.bounds x hx
      omega
    · have hb := b'.bounds x hx
      omega
  case le => exact Nat.le_trans b.le b'.le

/-- A box around an argument in which other boxes may be: its value is taken out first. -/
theorem box (H : env.Hoisted args lo mid h) {x : Box} (hx : env.Builds x)
    (hn : x.number = mid + 1) :
    env.Hoisted (args ++ [x.argument]) lo (mid + 1)
      ⟨h.before ++ [x.opening],x.closing :: h.after⟩ := by
  obtain ⟨bs,cs,b⟩ := H
  have hle := b.le
  refine ⟨bs ++ [x],x :: cs,?_⟩
  constructor
  case arguments => simp [b.arguments]
  case before => simp [b.before]
  case after => simp [b.after]
  case closings => exact (List.Perm.cons x b.closings).trans (List.perm_append_singleton x bs).symm
  case builds =>
    intro y hy
    rcases List.mem_append.mp hy with hy | hy
    · exact b.builds y hy
    · exact List.mem_singleton.mp hy ▸ hx
  case increasing =>
    refine List.pairwise_append.mpr ⟨b.increasing,List.pairwise_singleton _ _,fun y hy z hz => ?_⟩
    have hb := b.bounds y hy
    rw [List.mem_singleton.mp hz]
    omega
  case bounds =>
    intro y hy
    rcases List.mem_append.mp hy with hy | hy
    · have hb := b.bounds y hy
      omega
    · rw [List.mem_singleton.mp hy]
      omega
  case le => omega

end Hoisted

end Surroundings

end Recast
