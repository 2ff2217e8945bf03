import Recast.Lower.Routine

/-! # Lexical scopes

Which declaration a name in a body belongs to, by the scopes around it. A local belongs to the
innermost statement that has a scope of its own: it is visible in all of it, and nowhere else. What
the condition of a loop or the head of a block with a resource declares is visible only there, what
any other statement declares is visible in the statements next to it. Behind a dot there are no
names of locals.
-/
namespace Recast

/-- What binds a name. -/
inductive Binder where
  | parameter
  /-- The new value, in a setter. -/
  | setterValue
  | lambdaParameter
  /-- A local; `scanned` if the scan of the body comes to its declaration. -/
  | localVariable (scanned : Bool)
  deriving DecidableEq, Repr

/-- A name that is used, and what binds it. -/
structure Use where
  id : NodeId
  name : String
  binder : Option Binder
  deriving DecidableEq, Repr

/-- The names that a body uses and declares, with the scopes that they are in. -/
inductive Nest where
  | empty
  | use (id : NodeId) (name : String)
  | declare (name : String) (scanned : Bool)
  | append (first second : Nest)
  /-- A scope of its own, below the parameters of a lambda if it is the body of one. -/
  | scope (params : List String) (inner : Nest)

namespace Nest

instance : Append Nest := ⟨append⟩

/-- What is declared outside of inner scopes. -/
def declares : Nest → List (String × Binder)
  | .declare name scanned => [(name,.localVariable scanned)]
  | .append a b => a.declares ++ b.declares
  | .empty | .use .. | .scope .. => []

/-- The names that are used, where `visible` is visible, the innermost first. -/
def uses (visible : List (String × Binder)) : Nest → List Use
  | .use id name => [⟨id,name,visible.lookup name⟩]
  | .append a b => a.uses visible ++ b.uses visible
  | .scope params inner =>
    inner.uses (inner.declares ++ (params.map (·,.lambdaParameter) ++ visible))
  | .empty | .declare .. => []

/-- The names that are used, in whatever scope. -/
def names : Nest → List (NodeId × String)
  | .use id name => [(id,name)]
  | .append a b => a.names ++ b.names
  | .scope _ inner => inner.names
  | .empty | .declare .. => []

/-- The locals whose declarations the scan comes to, in whatever scope. -/
def scanned : Nest → List String
  | .declare name true => [name]
  | .append a b => a.scanned ++ b.scanned
  | .scope _ inner => inner.scanned
  | .empty | .use .. | .declare _ false => []

theorem mem_names_of_mem_uses {n : Nest} {visible : List (String × Binder)} {u : Use}
    (h : u ∈ n.uses visible) : (u.id,u.name) ∈ n.names := by
  induction n generalizing visible with
  | empty => cases h
  | declare => cases h
  | use id name =>
    obtain rfl := List.mem_singleton.mp h
    exact List.mem_singleton.mpr rfl
  | append m n ihm ihn =>
    rcases List.mem_append.mp h with h | h
    · exact List.mem_append_left _ (ihm h)
    · exact List.mem_append_right _ (ihn h)
  | scope params inner ih => exact ih h

/-- What can bind a name: something outside that is visible, a lambda, or a local. -/
inductive BoundBy (visible : List (String × Binder)) (locals : List String) (name : String) :
    Binder → Prop where
  | outside {b : Binder} (h : (name,b) ∈ visible) : BoundBy visible locals name b
  | lambda : BoundBy visible locals name .lambdaParameter
  | unscanned : BoundBy visible locals name (.localVariable false)
  | scanned (h : name ∈ locals) : BoundBy visible locals name (.localVariable true)

theorem BoundBy.mono {visible : List (String × Binder)} {locals others : List String}
    {name : String} {b : Binder} (h : BoundBy visible locals name b) (hsub : locals ⊆ others) :
    BoundBy visible others name b := by
  cases h with
  | outside h => exact .outside h
  | lambda => exact .lambda
  | unscanned => exact .unscanned
  | scanned h => exact .scanned (hsub h)

theorem boundBy_of_mem_declares {n : Nest} {visible : List (String × Binder)} {name : String}
    {b : Binder} (h : (name,b) ∈ n.declares) : BoundBy visible n.scanned name b := by
  induction n with
  | empty => cases h
  | use => cases h
  | scope => cases h
  | declare other scanned =>
    obtain ⟨rfl,rfl⟩ := Prod.mk.inj (List.mem_singleton.mp h)
    cases scanned with
    | false => exact .unscanned
    | true => exact .scanned (List.mem_singleton.mpr rfl)
  | append a b iha ihb =>
    rcases List.mem_append.mp h with h | h
    · exact (iha h).mono (List.subset_append_left _ _)
    · exact (ihb h).mono (List.subset_append_right _ _)

/-- The locals that bind a name inside of a body are declared there. -/
theorem boundBy_of_mem_uses {n : Nest} {visible : List (String × Binder)} {u : Use} {b : Binder}
    (hu : u ∈ n.uses visible) (hb : u.binder = some b) : BoundBy visible n.scanned u.name b := by
  induction n generalizing visible with
  | empty => cases hu
  | declare => cases hu
  | use id name =>
    obtain rfl := List.mem_singleton.mp hu
    obtain ⟨front,back,rfl,-⟩ := List.lookup_eq_some_iff.mp hb
    exact .outside (List.mem_append_right _ List.mem_cons_self)
  | append m n ihm ihn =>
    rcases List.mem_append.mp hu with hu | hu
    · exact (ihm hu).mono (List.subset_append_left _ _)
    · exact (ihn hu).mono (List.subset_append_right _ _)
  | scope params inner ih =>
    cases ih hu with
    | lambda => exact .lambda
    | unscanned => exact .unscanned
    | scanned h => exact .scanned h
    | outside h =>
      rcases List.mem_append.mp h with h | h
      · change BoundBy visible inner.scanned u.name b
        exact boundBy_of_mem_declares h
      · rcases List.mem_append.mp h with h | h
        · obtain ⟨param,-,heq⟩ := List.mem_map.mp h
          obtain ⟨-,rfl⟩ := Prod.mk.inj heq
          exact .lambda
        · exact .outside h

/-- A name that nothing binds is not one of those visible outside. -/
theorem ne_of_mem_uses {n : Nest} {visible : List (String × Binder)} {u : Use}
    (hu : u ∈ n.uses visible) (hb : u.binder = none) : ∀ p ∈ visible, p.1 ≠ u.name := by
  induction n generalizing visible with
  | empty => cases hu
  | declare => cases hu
  | use id name =>
    obtain rfl := List.mem_singleton.mp hu
    intro p hp heq
    have hne := List.lookup_eq_none_iff.mp hb p hp
    simp [heq] at hne
  | append m n ihm ihn =>
    rcases List.mem_append.mp hu with hu | hu
    · exact ihm hu
    · exact ihn hu
  | scope params inner ih =>
    intro p hp
    exact ih hu p (List.mem_append_right _ (List.mem_append_right _ hp))

mutual

/-- The names in an expression; `k` if the scan comes to it. -/
def expr (k : Bool) : Expr → Nest
  | .identifier id name | .genericName id name _ => .use id name
  | .assignment _ _ first second | .binary _ _ first second
  | .conditionalAccess _ first second => expr k first ++ expr k second
  | .memberAccess _ target _ => expr k target
  | .qualifiedName _ target _ => expr false target
  | .invocation _ target args | .elementAccess _ target args => expr k target ++ arguments k args
  | .objectCreation _ _ args init =>
    arguments k args ++ match init with
      | some e => expr k e
      | none => .empty
  | .simpleLambda _ param body => .scope [param.name] (lambdaBody k body)
  | .parenthesizedLambda _ params body =>
    .scope (params.map LambdaParam.name) (lambdaBody k body)
  | .conditional _ condition whenTrue whenFalse =>
    expr k condition ++ expr k whenTrue ++ expr k whenFalse
  | .cast _ _ operand | .prefixUnary _ _ operand | .postfixUnary _ _ operand | .await _ operand
  | .parenthesized _ operand | .implicitArrayCreation _ operand => expr k operand
  | .interpolatedString _ parts => interpolation k parts
  | .tuple _ elements => arguments k elements
  | .initializer _ shape elements => initializers k shape elements
  | .arrayCreation _ _ sizes init =>
    exprs k sizes ++ match init with
      | some e => expr k e
      | none => .empty
  | .declaration _ _ name => .declare name k
  | .memberBinding .. | .this _ | .base _ | .literal .. | .defaultValue .. | .predefinedType ..
  | .typeOf .. | .other .. => .empty

def exprs (k : Bool) : List Expr → Nest
  | [] => .empty
  | e :: es => expr k e ++ exprs k es

def arguments (k : Bool) : List Argument → Nest
  | [] => .empty
  | ⟨_,e⟩ :: args => expr k e ++ arguments k args

def initializers (k : Bool) (shape : InitializerShape) : List Expr → Nest
  | [] => .empty
  | e :: es =>
    (match shape, e with
      | .object, .assignment _ _ (.identifier _ _) value => expr k value
      | _, e => expr k e) ++ initializers k shape es

def interpolation (k : Bool) : List InterpolationPart → Nest
  | [] => .empty
  | .text _ :: parts => interpolation k parts
  | .expression e _ :: parts => expr k e ++ interpolation k parts

def lambdaBody (k : Bool) : LambdaBody → Nest
  | .block statements => stmts k statements
  | .expression e => expr k e

def declarators (k : Bool) : List Declarator → Nest
  | [] => .empty
  | ⟨_,name,init⟩ :: ds =>
    .declare name k ++ (match init with
      | some e => expr k e
      | none => .empty) ++ declarators k ds

def labels : List SwitchLabel → Nest
  | [] => .empty
  | .case value :: ls => expr false value ++ labels ls
  | .default :: ls => labels ls

def switchSections (k : Bool) : List SwitchSection → Nest
  | [] => .empty
  | ⟨ls,statements⟩ :: rest => labels ls ++ stmts k statements ++ switchSections k rest

def catchClauses (k : Bool) : List CatchClause → Nest
  | [] => .empty
  | ⟨_,name,block⟩ :: rest =>
    .scope [] ((match name with
      | some name => .declare name k
      | none => .empty) ++ stmts k block) ++ catchClauses k rest

def stmt (k : Bool) : Stmt → Nest
  | .expression _ e => expr k e
  | .ret _ value | .throw _ value =>
    match value with
    | some e => expr k e
    | none => .empty
  | .locals _ ⟨_,ds⟩ => declarators k ds
  | .switch _ subject sections => expr k subject ++ .scope [] (switchSections k sections)
  | .block _ statements => .scope [] (stmts k statements)
  | .ifElse _ condition thenBranch otherwise =>
    expr k condition ++ .scope [] (stmt k thenBranch) ++ match otherwise with
      | some s => .scope [] (stmt k s)
      | none => .empty
  | .forLoop _ declaration initializers condition incrementors body =>
    .scope [] ((match declaration with
      | some ⟨_,ds⟩ => declarators k ds
      | none => exprs k initializers) ++ (match condition with
      | some e => expr k e
      | none => .empty) ++ exprs k incrementors ++ .scope [] (stmt k body))
  | .whileLoop _ condition body | .doWhile _ body condition =>
    .scope [] (expr k condition ++ .scope [] (stmt k body))
  | .forEach _ _ name iterable body =>
    .scope [] (expr k iterable ++ .scope [] (.declare name k ++ .scope [] (stmt k body)))
  | .tryCatch _ block catches finallyBlock =>
    .scope [] (stmts k block) ++ catchClauses k catches ++ match finallyBlock with
      | some statements => .scope [] (stmts k statements)
      | none => .empty
  | .lock _ target body =>
    -- A plain reference is not lowered.
    (if target.isPlainReference then .empty else expr k target) ++ .scope [] (stmt k body)
  | .useResource _ declaration target body =>
    .scope [] ((match declaration, target with
      | some ⟨_,ds⟩, _ => declarators k ds
      | none, some e => expr k e
      | none, none => .empty) ++ .scope [] (stmt k body))
  | .breakLoop _ | .continueLoop _ | .empty _ | .other .. => .empty

def stmts (k : Bool) : List Stmt → Nest
  | [] => .empty
  | s :: ss => stmt k s ++ stmts k ss

end

def body : Body → Nest
  | .block statements => .scope [] (stmts true statements)
  | .expression e => .scope [] (expr true e)

/-- A method or constructor. What the call of another constructor declares is visible in the body
too. -/
def routine (f : Routine) : Nest :=
  .scope [] ((match f.chain with
    | some c => arguments false c.args
    | none => .empty) ++ match f.body with
    | some b => body b
    | none => .empty)

def accessor (v : Variable) : AccessorKind → Nest
  | .get =>
    match v.expressionBody, v.getBody with
    | some e, _ => body (.expression e)
    | none, some b => body b
    | none, none => .empty
  | .set | .init =>
    match v.setBody with
    | some b => body b
    | none => .empty

end Nest

end Recast
