import Recast.Source.Tree

/-! # Expressions and statements as JSON

Every field is written: ids as numbers, absent parts as `null`, lists even if empty.
-/
namespace Recast

open Json (tagged ofWord)

def Json.ofType? (ty : Option SourceType) : Json := .ofOption SourceType.toJson ty

def Json.ofString? (s : Option String) : Json := .ofOption .string s

def NodeId.toJson (id : NodeId) : Json := .natural id.toNat

def LambdaParam.toJson (p : LambdaParam) : Json :=
  .object [("name", .string p.name), ("ty", .ofType? p.ty)]

mutual

def Expr.toJson : Expr → Json
  | .assignment id op target value =>
    tagged "assignment" [("id", id.toJson), ("op", ofWord op), ("target", target.toJson),
      ("value", value.toJson)]
  | .identifier id name => tagged "identifier" [("id", id.toJson), ("name", .string name)]
  | .objectCreation id ty args init =>
    tagged "object_creation" [("id", id.toJson), ("ty", ty.toJson),
      ("args", .array (argumentsToJson args)), ("initializer", exprToJson? init)]
  | .memberAccess id target name =>
    tagged "member_access" [("id", id.toJson), ("target", target.toJson), ("name", name.toJson)]
  | .invocation id target args =>
    tagged "invocation" [("id", id.toJson), ("target", target.toJson),
      ("args", .array (argumentsToJson args))]
  | .this id => tagged "this" [("id", id.toJson)]
  | .literal id kind text =>
    tagged "literal" [("id", id.toJson), ("literal", ofWord kind), ("text", .string text)]
  | .binary id op left right =>
    tagged "binary" [("id", id.toJson), ("op", ofWord op), ("left", left.toJson),
      ("right", right.toJson)]
  | .genericName id name typeArgs =>
    tagged "generic_name" [("id", id.toJson), ("name", .string name),
      ("type_args", .array (SourceType.toJsons typeArgs))]
  | .simpleLambda id param body =>
    tagged "simple_lambda" [("id", id.toJson), ("param", param.toJson), ("body", body.toJson)]
  | .parenthesizedLambda id params body =>
    tagged "parenthesized_lambda" [("id", id.toJson),
      ("params", .array (params.map LambdaParam.toJson)), ("body", body.toJson)]
  | .conditional id condition whenTrue whenFalse =>
    tagged "conditional" [("id", id.toJson), ("condition", condition.toJson),
      ("when_true", whenTrue.toJson), ("when_false", whenFalse.toJson)]
  | .cast id ty operand =>
    tagged "cast" [("id", id.toJson), ("ty", ty.toJson), ("operand", operand.toJson)]
  | .conditionalAccess id target rest =>
    tagged "conditional_access" [("id", id.toJson), ("target", target.toJson),
      ("when_not_null", rest.toJson)]
  | .memberBinding id name => tagged "member_binding" [("id", id.toJson), ("name", name.toJson)]
  | .prefixUnary id op operand =>
    tagged "prefix_unary" [("id", id.toJson), ("op", ofWord op), ("operand", operand.toJson)]
  | .postfixUnary id op operand =>
    tagged "postfix_unary" [("id", id.toJson), ("op", ofWord op), ("operand", operand.toJson)]
  | .elementAccess id target args =>
    tagged "element_access" [("id", id.toJson), ("target", target.toJson),
      ("args", .array (argumentsToJson args))]
  | .interpolatedString id parts =>
    tagged "interpolated_string" [("id", id.toJson), ("parts", .array (partsToJson parts))]
  | .defaultValue id ty => tagged "default" [("id", id.toJson), ("ty", .ofType? ty)]
  | .predefinedType id name =>
    tagged "predefined_type" [("id", id.toJson), ("name", .string name)]
  | .tuple id elements =>
    tagged "tuple" [("id", id.toJson), ("elements", .array (argumentsToJson elements))]
  | .initializer id shape elements =>
    tagged "initializer" [("id", id.toJson), ("shape", ofWord shape),
      ("elements", .array (exprsToJson elements))]
  | .base id => tagged "base" [("id", id.toJson)]
  | .parenthesized id inner =>
    tagged "parenthesized" [("id", id.toJson), ("inner", inner.toJson)]
  | .arrayCreation id element sizes init =>
    tagged "array_creation" [("id", id.toJson), ("element", element.toJson),
      ("sizes", .array (exprsToJson sizes)), ("initializer", exprToJson? init)]
  | .typeOf id ty => tagged "type_of" [("id", id.toJson), ("ty", ty.toJson)]
  | .qualifiedName id left right =>
    tagged "qualified_name" [("id", id.toJson), ("left", left.toJson), ("right", right.toJson)]
  | .await id operand => tagged "await" [("id", id.toJson), ("operand", operand.toJson)]
  | .implicitArrayCreation id init =>
    tagged "implicit_array_creation" [("id", id.toJson), ("initializer", init.toJson)]
  | .declaration id ty name =>
    tagged "declaration" [("id", id.toJson), ("ty", .ofType? ty), ("name", .string name)]
  | .other id construct => tagged "other" [("id", id.toJson), ("syntax", .string construct)]

def exprToJson? : Option Expr → Json
  | some e => e.toJson
  | none => .null

def exprsToJson : List Expr → List Json
  | [] => []
  | e :: es => e.toJson :: exprsToJson es

def Argument.toJson : Argument → Json
  | ⟨passing, expr⟩ => .object [("modifier", ofWord passing), ("expr", expr.toJson)]

def argumentsToJson : List Argument → List Json
  | [] => []
  | a :: as => a.toJson :: argumentsToJson as

def LambdaBody.toJson : LambdaBody → Json
  | .block statements => tagged "block" [("statements", .array (stmtsToJson statements))]
  | .expression expr => tagged "expression" [("expr", expr.toJson)]

def InterpolationPart.toJson : InterpolationPart → Json
  | .text text => tagged "text" [("text", .string text)]
  | .expression expr format =>
    tagged "expression" [("expr", expr.toJson), ("format", .ofString? format)]

def partsToJson : List InterpolationPart → List Json
  | [] => []
  | p :: ps => p.toJson :: partsToJson ps

def Declarator.toJson : Declarator → Json
  | ⟨id, name, init⟩ =>
    .object [("id", id.toJson), ("name", .string name), ("init", exprToJson? init)]

def declaratorsToJson : List Declarator → List Json
  | [] => []
  | d :: ds => d.toJson :: declaratorsToJson ds

def VariableDeclaration.toJson : VariableDeclaration → Json
  | ⟨ty, declarators⟩ =>
    .object [("ty", .ofType? ty), ("declarators", .array (declaratorsToJson declarators))]

def declarationToJson? : Option VariableDeclaration → Json
  | some d => d.toJson
  | none => .null

def SwitchLabel.toJson : SwitchLabel → Json
  | .case value => tagged "case" [("value", value.toJson)]
  | .default => tagged "default" []

def labelsToJson : List SwitchLabel → List Json
  | [] => []
  | l :: ls => l.toJson :: labelsToJson ls

def SwitchSection.toJson : SwitchSection → Json
  | ⟨labels, statements⟩ =>
    .object [("labels", .array (labelsToJson labels)),
      ("statements", .array (stmtsToJson statements))]

def sectionsToJson : List SwitchSection → List Json
  | [] => []
  | s :: ss => s.toJson :: sectionsToJson ss

def CatchClause.toJson : CatchClause → Json
  | ⟨ty, name, block⟩ =>
    .object [("ty", .ofType? ty), ("name", .ofString? name), ("block", .array (stmtsToJson block))]

def catchesToJson : List CatchClause → List Json
  | [] => []
  | c :: cs => c.toJson :: catchesToJson cs

def Stmt.toJson : Stmt → Json
  | .expression id expr => tagged "expression" [("id", id.toJson), ("expr", expr.toJson)]
  | .ret id value => tagged "return" [("id", id.toJson), ("value", exprToJson? value)]
  | .locals id declaration =>
    tagged "local_declaration" [("id", id.toJson), ("declaration", declaration.toJson)]
  | .switch id subject sections =>
    tagged "switch" [("id", id.toJson), ("subject", subject.toJson),
      ("sections", .array (sectionsToJson sections))]
  | .block id statements =>
    tagged "block" [("id", id.toJson), ("statements", .array (stmtsToJson statements))]
  | .breakLoop id => tagged "break" [("id", id.toJson)]
  | .throw id value => tagged "throw" [("id", id.toJson), ("value", exprToJson? value)]
  | .ifElse id condition thenBranch otherwise =>
    tagged "if" [("id", id.toJson), ("condition", condition.toJson),
      ("then", thenBranch.toJson), ("otherwise", stmtToJson? otherwise)]
  | .forLoop id declaration initializers condition incrementors body =>
    tagged "for" [("id", id.toJson), ("declaration", declarationToJson? declaration),
      ("initializers", .array (exprsToJson initializers)), ("condition", exprToJson? condition),
      ("incrementors", .array (exprsToJson incrementors)), ("body", body.toJson)]
  | .whileLoop id condition body =>
    tagged "while" [("id", id.toJson), ("condition", condition.toJson), ("body", body.toJson)]
  | .continueLoop id => tagged "continue" [("id", id.toJson)]
  | .forEach id ty name iterable body =>
    tagged "for_each" [("id", id.toJson), ("ty", .ofType? ty), ("name", .string name),
      ("iterable", iterable.toJson), ("body", body.toJson)]
  | .tryCatch id block catches finallyBlock =>
    tagged "try" [("id", id.toJson), ("block", .array (stmtsToJson block)),
      ("catches", .array (catchesToJson catches)),
      ("finally", match finallyBlock with
        | some statements => .array (stmtsToJson statements)
        | none => .null)]
  | .lock id target body =>
    tagged "lock" [("id", id.toJson), ("target", target.toJson), ("body", body.toJson)]
  | .useResource id declaration target body =>
    tagged "using" [("id", id.toJson), ("declaration", declarationToJson? declaration),
      ("target", exprToJson? target), ("body", body.toJson)]
  | .doWhile id body condition =>
    tagged "do" [("id", id.toJson), ("body", body.toJson), ("condition", condition.toJson)]
  | .empty id => tagged "empty" [("id", id.toJson)]
  | .other id construct => tagged "other" [("id", id.toJson), ("syntax", .string construct)]

def stmtToJson? : Option Stmt → Json
  | some s => s.toJson
  | none => .null

def stmtsToJson : List Stmt → List Json
  | [] => []
  | s :: ss => s.toJson :: stmtsToJson ss

end

def Body.toJson : Body → Json
  | .block statements => tagged "block" [("statements", .array (stmtsToJson statements))]
  | .expression expr => tagged "expression" [("expr", expr.toJson)]

end Recast
