import Recast.Source.Operator
import Recast.Source.Type

/-! # Expressions and statements

The executable part of a program, as the documents carry it. Every expression and statement has the
node id under which the oracle answers questions about it; the id zero stands for no answers.
-/
namespace Recast

abbrev NodeId := UInt32

/-- The id of a node about which there are no answers. -/
def NodeId.isNone (id : NodeId) : Bool := id == 0

/-- How a node id is written in messages. -/
def NodeId.display (id : NodeId) : String := "#" ++ toString id.toNat

structure LambdaParam where
  name : String
  ty : Option SourceType
  deriving Inhabited

mutual

inductive Expr where
  | assignment (id : NodeId) (op : AssignOp) (target value : Expr)
  | identifier (id : NodeId) (name : String)
  | objectCreation (id : NodeId) (ty : SourceType) (args : List Argument)
      (initializer : Option Expr)
  /-- `target.name`, where the name is an identifier or a generic name. -/
  | memberAccess (id : NodeId) (target name : Expr)
  | invocation (id : NodeId) (target : Expr) (args : List Argument)
  | this (id : NodeId)
  | literal (id : NodeId) (kind : LiteralKind) (text : String)
  | binary (id : NodeId) (op : BinaryOp) (left right : Expr)
  | genericName (id : NodeId) (name : String) (typeArgs : List SourceType)
  | simpleLambda (id : NodeId) (param : LambdaParam) (body : LambdaBody)
  | parenthesizedLambda (id : NodeId) (params : List LambdaParam) (body : LambdaBody)
  | conditional (id : NodeId) (condition whenTrue whenFalse : Expr)
  | cast (id : NodeId) (ty : SourceType) (operand : Expr)
  /-- `target?.rest`, where the rest starts with a member binding. -/
  | conditionalAccess (id : NodeId) (target whenNotNull : Expr)
  | memberBinding (id : NodeId) (name : Expr)
  | prefixUnary (id : NodeId) (op : UnaryOp) (operand : Expr)
  | postfixUnary (id : NodeId) (op : UnaryOp) (operand : Expr)
  | elementAccess (id : NodeId) (target : Expr) (args : List Argument)
  | interpolatedString (id : NodeId) (parts : List InterpolationPart)
  | defaultValue (id : NodeId) (ty : Option SourceType)
  | predefinedType (id : NodeId) (name : String)
  | tuple (id : NodeId) (elements : List Argument)
  | initializer (id : NodeId) (shape : InitializerShape) (elements : List Expr)
  | base (id : NodeId)
  | parenthesized (id : NodeId) (inner : Expr)
  | arrayCreation (id : NodeId) (element : SourceType) (sizes : List Expr)
      (initializer : Option Expr)
  | typeOf (id : NodeId) (ty : SourceType)
  | qualifiedName (id : NodeId) (left right : Expr)
  | await (id : NodeId) (operand : Expr)
  | implicitArrayCreation (id : NodeId) (initializer : Expr)
  /-- `out var x` in an argument list. -/
  | declaration (id : NodeId) (ty : Option SourceType) (name : String)
  /-- A construct outside the supported subset. -/
  | other (id : NodeId) (construct : String)

structure Argument where
  passing : Passing
  expr : Expr

inductive LambdaBody where
  | block (statements : List Stmt)
  | expression (expr : Expr)

inductive InterpolationPart where
  | text (text : String)
  | expression (expr : Expr) (format : Option String)

/-- One declared name with its initial value, if any. -/
structure Declarator where
  id : NodeId
  name : String
  init : Option Expr

/-- Declared names of one type; an implicitly typed declaration has none. -/
structure VariableDeclaration where
  ty : Option SourceType
  declarators : List Declarator

inductive SwitchLabel where
  | case (value : Expr)
  | default

structure SwitchSection where
  labels : List SwitchLabel
  statements : List Stmt

structure CatchClause where
  ty : Option SourceType
  name : Option String
  block : List Stmt

inductive Stmt where
  | expression (id : NodeId) (expr : Expr)
  | ret (id : NodeId) (value : Option Expr)
  | locals (id : NodeId) (declaration : VariableDeclaration)
  | switch (id : NodeId) (subject : Expr) (sections : List SwitchSection)
  | block (id : NodeId) (statements : List Stmt)
  | breakLoop (id : NodeId)
  | throw (id : NodeId) (value : Option Expr)
  | ifElse (id : NodeId) (condition : Expr) (thenBranch : Stmt) (otherwise : Option Stmt)
  | forLoop (id : NodeId) (declaration : Option VariableDeclaration) (initializers : List Expr)
      (condition : Option Expr) (incrementors : List Expr) (body : Stmt)
  | whileLoop (id : NodeId) (condition : Expr) (body : Stmt)
  | continueLoop (id : NodeId)
  | forEach (id : NodeId) (ty : Option SourceType) (name : String) (iterable : Expr) (body : Stmt)
  | tryCatch (id : NodeId) (block : List Stmt) (catches : List CatchClause)
      (finallyBlock : Option (List Stmt))
  | lock (id : NodeId) (target : Expr) (body : Stmt)
  | useResource (id : NodeId) (declaration : Option VariableDeclaration) (target : Option Expr)
      (body : Stmt)
  | doWhile (id : NodeId) (body : Stmt) (condition : Expr)
  | empty (id : NodeId)
  /-- A construct outside the supported subset. -/
  | other (id : NodeId) (construct : String)

end

instance : Inhabited Expr := ⟨.this 0⟩
instance : Inhabited Stmt := ⟨.empty 0⟩

namespace Expr

def id : Expr → NodeId
  | .assignment id .. | .identifier id .. | .objectCreation id .. | .memberAccess id ..
  | .invocation id .. | .this id | .literal id .. | .binary id .. | .genericName id ..
  | .simpleLambda id .. | .parenthesizedLambda id .. | .conditional id .. | .cast id ..
  | .conditionalAccess id .. | .memberBinding id .. | .prefixUnary id .. | .postfixUnary id ..
  | .elementAccess id .. | .interpolatedString id .. | .defaultValue id .. | .predefinedType id ..
  | .tuple id .. | .initializer id .. | .base id | .parenthesized id .. | .arrayCreation id ..
  | .typeOf id .. | .qualifiedName id .. | .await id .. | .implicitArrayCreation id ..
  | .declaration id .. | .other id .. => id

def withId (id : NodeId) : Expr → Expr
  | .assignment _ op target value => .assignment id op target value
  | .identifier _ name => .identifier id name
  | .objectCreation _ ty args init => .objectCreation id ty args init
  | .memberAccess _ target name => .memberAccess id target name
  | .invocation _ target args => .invocation id target args
  | .this _ => .this id
  | .literal _ kind text => .literal id kind text
  | .binary _ op left right => .binary id op left right
  | .genericName _ name typeArgs => .genericName id name typeArgs
  | .simpleLambda _ param body => .simpleLambda id param body
  | .parenthesizedLambda _ params body => .parenthesizedLambda id params body
  | .conditional _ condition whenTrue whenFalse => .conditional id condition whenTrue whenFalse
  | .cast _ ty operand => .cast id ty operand
  | .conditionalAccess _ target rest => .conditionalAccess id target rest
  | .memberBinding _ name => .memberBinding id name
  | .prefixUnary _ op operand => .prefixUnary id op operand
  | .postfixUnary _ op operand => .postfixUnary id op operand
  | .elementAccess _ target args => .elementAccess id target args
  | .interpolatedString _ parts => .interpolatedString id parts
  | .defaultValue _ ty => .defaultValue id ty
  | .predefinedType _ name => .predefinedType id name
  | .tuple _ elements => .tuple id elements
  | .initializer _ shape elements => .initializer id shape elements
  | .base _ => .base id
  | .parenthesized _ inner => .parenthesized id inner
  | .arrayCreation _ element sizes init => .arrayCreation id element sizes init
  | .typeOf _ ty => .typeOf id ty
  | .qualifiedName _ left right => .qualifiedName id left right
  | .await _ operand => .await id operand
  | .implicitArrayCreation _ init => .implicitArrayCreation id init
  | .declaration _ ty name => .declaration id ty name
  | .other _ construct => .other id construct

/-- The name of the kind of an expression; an unsupported construct has its own name. -/
def kindName : Expr → String
  | .assignment .. => "assignment"
  | .identifier .. => "identifier"
  | .objectCreation .. => "object_creation"
  | .memberAccess .. => "member_access"
  | .invocation .. => "invocation"
  | .this .. => "this"
  | .literal .. => "literal"
  | .binary .. => "binary"
  | .genericName .. => "generic_name"
  | .simpleLambda .. => "simple_lambda"
  | .parenthesizedLambda .. => "parenthesized_lambda"
  | .conditional .. => "conditional"
  | .cast .. => "cast"
  | .conditionalAccess .. => "conditional_access"
  | .memberBinding .. => "member_binding"
  | .prefixUnary .. => "prefix_unary"
  | .postfixUnary .. => "postfix_unary"
  | .elementAccess .. => "element_access"
  | .interpolatedString .. => "interpolated_string"
  | .defaultValue .. => "default"
  | .predefinedType .. => "predefined_type"
  | .tuple .. => "tuple"
  | .initializer .. => "initializer"
  | .base .. => "base"
  | .parenthesized .. => "parenthesized"
  | .arrayCreation .. => "array_creation"
  | .typeOf .. => "typeof"
  | .qualifiedName .. => "qualified_name"
  | .await .. => "await"
  | .implicitArrayCreation .. => "implicit_array_creation"
  | .declaration .. => "declaration_expression"
  | .other _ construct => construct

end Expr

namespace Stmt

def id : Stmt → NodeId
  | .expression id .. | .ret id .. | .locals id .. | .switch id .. | .block id .. | .breakLoop id
  | .throw id .. | .ifElse id .. | .forLoop id .. | .whileLoop id .. | .continueLoop id
  | .forEach id .. | .tryCatch id .. | .lock id .. | .useResource id .. | .doWhile id ..
  | .empty id | .other id .. => id

/-- The name of the kind of a statement; an unsupported construct has its own name. -/
def kindName : Stmt → String
  | .expression .. => "expression_statement"
  | .ret .. => "return"
  | .locals .. => "local_declaration"
  | .switch .. => "switch"
  | .block .. => "block"
  | .breakLoop .. => "break"
  | .throw .. => "throw"
  | .ifElse .. => "if"
  | .forLoop .. => "for"
  | .whileLoop .. => "while"
  | .continueLoop .. => "continue"
  | .forEach .. => "for_each"
  | .tryCatch .. => "try"
  | .lock .. => "lock"
  | .useResource .. => "using"
  | .doWhile .. => "do"
  | .empty .. => "empty"
  | .other _ construct => construct

end Stmt

/-- Body of a method or accessor: a statement block or a single expression. -/
inductive Body where
  | block (statements : List Stmt)
  | expression (expr : Expr)

end Recast
