import Recast.Source.Operator
import Recast.Type.Mapping

/-! # Dialects

How a target writes each kind of expression and statement, given the finished text of the parts. The
text of a statement is one line without indentation.
-/
namespace Recast

/-- A piece of an interpolated string. -/
inductive Fragment where
  | text (text : String)
  | code (code : String) (format : Option String)
  deriving DecidableEq, Repr

structure Dialect where
  types : TypeForms
  /-- One level of indentation. -/
  indentUnit : String
  assignment : String → AssignOp → String → String
  /-- A member of the instance at hand. -/
  thisMember : String → String
  staticMember : String → String → String
  memberAccess : String → String → String
  /-- Type, name of the constructor if it has one, arguments, initializer. -/
  objectCreation : String → Option String → List String → Option String → String
  invocation : String → List String → String
  thisExpr : String
  baseExpr : String
  literal : LiteralKind → String → String
  binary : String → BinaryOp → String → String
  genericName : String → List String → String
  lambdaParameter : String → Option String → String
  /-- Parameters, then an expression or a block. -/
  lambda : List String → String → String
  conditional : String → String → String → String
  cast : String → String → String
  /-- A target and the rest, which starts with a member binding. -/
  conditionalAccess : String → String → String
  memberBinding : String → String
  prefixUnary : UnaryOp → String → String
  postfixUnary : UnaryOp → String → String
  elementAccess : String → List String → String
  interpolatedString : List Fragment → String
  defaultValue : Option String → String
  /-- The name of a type as an expression. -/
  typeReference : String → String
  tupleLiteral : List String → String
  initializer : InitializerShape → List String → String
  initializerMember : String → String → String
  parenthesized : String → String
  arrayCreation : String → List String → Option String → String
  typeOf : String → String
  await : String → String
  implicitArray : String → String
  declarationExpression : String → String
  /-- The declaration of the box that is passed for an argument by reference. -/
  boxDeclaration : String → Option String → String
  boxArgument : String → String
  boxValue : String → String
  /-- The value of a parameter that is passed in a box. -/
  parameterValue : String → String
  expressionStatement : String → String
  returnStatement : Option String → String
  /-- Name, type, initial value, and whether it is written again. -/
  localDeclaration : String → Option String → Option String → Bool → String
  /-- The declarations in the head of a loop. -/
  declarationClause : List (String × Option String) → String
  throwStatement : Option String → String
  breakStatement : String
  continueStatement : String
  blockOpen : String
  blockClose : String
  ifHeader : String → String
  elseIfHeader : String → String
  elseHeader : String
  whileHeader : String → String
  doHeader : String
  doFooter : String → String
  forHeader : Option String → Option String → List String → String
  forEachHeader : String → Option String → String → String
  switchHeader : String → String
  caseLabel : String → String
  defaultLabel : String
  tryHeader : String
  catchHeader : Option String → Option String → String
  finallyHeader : String
  dispose : String → String
  constructorChain : ChainTarget → Option String → List String → String

end Recast
