import Recast.Source.TreeEncode

/-! # Expressions and statements from JSON

Each decoder takes the number of nested trees it may go down. The depth of the JSON value is always
enough, since every step down enters an object.
-/
namespace Recast

open Json (Decoder Record untag)

/-- The node id of a record; an absent one is zero. -/
def Json.Record.nodeId (r : Record) : Option NodeId := r.orElse "id" .uint32 0

def LambdaParam.decode (n : Nat) : Decoder LambdaParam := fun j => do
  let r ← Record.ofJson? ["name", "ty"] j
  return ⟨← r.required "name" .string, ← r.optional "ty" (SourceType.decode n)⟩

mutual

def Expr.decode : Nat → Decoder Expr
  | 0, _ => none
  | n + 1, j => do
    let (kind, body) ← untag j
    match kind with
    | "assignment" =>
      let r ← Record.ofJson? ["id", "op", "target", "value"] body
      return .assignment (← r.nodeId) (← r.orElse "op" .word .assign)
        (← r.required "target" (Expr.decode n)) (← r.required "value" (Expr.decode n))
    | "identifier" =>
      let r ← Record.ofJson? ["id", "name"] body
      return .identifier (← r.nodeId) (← r.required "name" .string)
    | "object_creation" =>
      let r ← Record.ofJson? ["id", "ty", "args", "initializer"] body
      return .objectCreation (← r.nodeId) (← r.required "ty" (SourceType.decode n))
        (← r.list "args" (Argument.decode n)) (← r.optional "initializer" (Expr.decode n))
    | "member_access" =>
      let r ← Record.ofJson? ["id", "target", "name"] body
      return .memberAccess (← r.nodeId) (← r.required "target" (Expr.decode n))
        (← r.required "name" (Expr.decode n))
    | "invocation" =>
      let r ← Record.ofJson? ["id", "target", "args"] body
      return .invocation (← r.nodeId) (← r.required "target" (Expr.decode n))
        (← r.list "args" (Argument.decode n))
    | "this" =>
      let r ← Record.ofJson? ["id"] body
      return .this (← r.nodeId)
    | "literal" =>
      let r ← Record.ofJson? ["id", "literal", "text"] body
      return .literal (← r.nodeId) (← r.required "literal" .word) (← r.required "text" .string)
    | "binary" =>
      let r ← Record.ofJson? ["id", "op", "left", "right"] body
      return .binary (← r.nodeId) (← r.required "op" .word)
        (← r.required "left" (Expr.decode n)) (← r.required "right" (Expr.decode n))
    | "generic_name" =>
      let r ← Record.ofJson? ["id", "name", "type_args"] body
      return .genericName (← r.nodeId) (← r.required "name" .string)
        (← r.required "type_args" (.list (SourceType.decode n)))
    | "simple_lambda" =>
      let r ← Record.ofJson? ["id", "param", "body"] body
      return .simpleLambda (← r.nodeId) (← r.required "param" (LambdaParam.decode n))
        (← r.required "body" (LambdaBody.decode n))
    | "parenthesized_lambda" =>
      let r ← Record.ofJson? ["id", "params", "body"] body
      return .parenthesizedLambda (← r.nodeId) (← r.list "params" (LambdaParam.decode n))
        (← r.required "body" (LambdaBody.decode n))
    | "conditional" =>
      let r ← Record.ofJson? ["id", "condition", "when_true", "when_false"] body
      return .conditional (← r.nodeId) (← r.required "condition" (Expr.decode n))
        (← r.required "when_true" (Expr.decode n)) (← r.required "when_false" (Expr.decode n))
    | "cast" =>
      let r ← Record.ofJson? ["id", "ty", "operand"] body
      return .cast (← r.nodeId) (← r.required "ty" (SourceType.decode n))
        (← r.required "operand" (Expr.decode n))
    | "conditional_access" =>
      let r ← Record.ofJson? ["id", "target", "when_not_null"] body
      return .conditionalAccess (← r.nodeId) (← r.required "target" (Expr.decode n))
        (← r.required "when_not_null" (Expr.decode n))
    | "member_binding" =>
      let r ← Record.ofJson? ["id", "name"] body
      return .memberBinding (← r.nodeId) (← r.required "name" (Expr.decode n))
    | "prefix_unary" =>
      let r ← Record.ofJson? ["id", "op", "operand"] body
      return .prefixUnary (← r.nodeId) (← r.required "op" .word)
        (← r.required "operand" (Expr.decode n))
    | "postfix_unary" =>
      let r ← Record.ofJson? ["id", "op", "operand"] body
      return .postfixUnary (← r.nodeId) (← r.required "op" .word)
        (← r.required "operand" (Expr.decode n))
    | "element_access" =>
      let r ← Record.ofJson? ["id", "target", "args"] body
      return .elementAccess (← r.nodeId) (← r.required "target" (Expr.decode n))
        (← r.required "args" (.list (Argument.decode n)))
    | "interpolated_string" =>
      let r ← Record.ofJson? ["id", "parts"] body
      return .interpolatedString (← r.nodeId)
        (← r.required "parts" (.list (InterpolationPart.decode n)))
    | "default" =>
      let r ← Record.ofJson? ["id", "ty"] body
      return .defaultValue (← r.nodeId) (← r.optional "ty" (SourceType.decode n))
    | "predefined_type" =>
      let r ← Record.ofJson? ["id", "name"] body
      return .predefinedType (← r.nodeId) (← r.required "name" .string)
    | "tuple" =>
      let r ← Record.ofJson? ["id", "elements"] body
      return .tuple (← r.nodeId) (← r.required "elements" (.list (Argument.decode n)))
    | "initializer" =>
      let r ← Record.ofJson? ["id", "shape", "elements"] body
      return .initializer (← r.nodeId) (← r.required "shape" .word)
        (← r.list "elements" (Expr.decode n))
    | "base" =>
      let r ← Record.ofJson? ["id"] body
      return .base (← r.nodeId)
    | "parenthesized" =>
      let r ← Record.ofJson? ["id", "inner"] body
      return .parenthesized (← r.nodeId) (← r.required "inner" (Expr.decode n))
    | "array_creation" =>
      let r ← Record.ofJson? ["id", "element", "sizes", "initializer"] body
      return .arrayCreation (← r.nodeId) (← r.required "element" (SourceType.decode n))
        (← r.list "sizes" (Expr.decode n)) (← r.optional "initializer" (Expr.decode n))
    | "type_of" =>
      let r ← Record.ofJson? ["id", "ty"] body
      return .typeOf (← r.nodeId) (← r.required "ty" (SourceType.decode n))
    | "qualified_name" =>
      let r ← Record.ofJson? ["id", "left", "right"] body
      return .qualifiedName (← r.nodeId) (← r.required "left" (Expr.decode n))
        (← r.required "right" (Expr.decode n))
    | "await" =>
      let r ← Record.ofJson? ["id", "operand"] body
      return .await (← r.nodeId) (← r.required "operand" (Expr.decode n))
    | "implicit_array_creation" =>
      let r ← Record.ofJson? ["id", "initializer"] body
      return .implicitArrayCreation (← r.nodeId) (← r.required "initializer" (Expr.decode n))
    | "declaration" =>
      let r ← Record.ofJson? ["id", "ty", "name"] body
      return .declaration (← r.nodeId) (← r.optional "ty" (SourceType.decode n))
        (← r.required "name" .string)
    | "other" =>
      let r ← Record.ofJson? ["id", "syntax"] body
      return .other (← r.nodeId) (← r.required "syntax" .string)
    | _ => none

def Argument.decode : Nat → Decoder Argument
  | 0, _ => none
  | n + 1, j => do
    let r ← Record.ofJson? ["modifier", "expr"] j
    return ⟨← r.orElse "modifier" .word .value, ← r.required "expr" (Expr.decode n)⟩

def LambdaBody.decode : Nat → Decoder LambdaBody
  | 0, _ => none
  | n + 1, j => do
    let (kind, body) ← untag j
    match kind with
    | "block" =>
      let r ← Record.ofJson? ["statements"] body
      return .block (← r.required "statements" (.list (Stmt.decode n)))
    | "expression" =>
      let r ← Record.ofJson? ["expr"] body
      return .expression (← r.required "expr" (Expr.decode n))
    | _ => none

def InterpolationPart.decode : Nat → Decoder InterpolationPart
  | 0, _ => none
  | n + 1, j => do
    let (kind, body) ← untag j
    match kind with
    | "text" =>
      let r ← Record.ofJson? ["text"] body
      return .text (← r.required "text" .string)
    | "expression" =>
      let r ← Record.ofJson? ["expr", "format"] body
      return .expression (← r.required "expr" (Expr.decode n)) (← r.optional "format" .string)
    | _ => none

def Declarator.decode : Nat → Decoder Declarator
  | 0, _ => none
  | n + 1, j => do
    let r ← Record.ofJson? ["id", "name", "init"] j
    return ⟨← r.nodeId, ← r.required "name" .string, ← r.optional "init" (Expr.decode n)⟩

def VariableDeclaration.decode : Nat → Decoder VariableDeclaration
  | 0, _ => none
  | n + 1, j => do
    let r ← Record.ofJson? ["ty", "declarators"] j
    return ⟨← r.optional "ty" (SourceType.decode n),
      ← r.required "declarators" (.list (Declarator.decode n))⟩

def SwitchLabel.decode : Nat → Decoder SwitchLabel
  | 0, _ => none
  | n + 1, j => do
    let (kind, body) ← untag j
    match kind with
    | "case" =>
      let r ← Record.ofJson? ["value"] body
      return .case (← r.required "value" (Expr.decode n))
    | "default" =>
      let _ ← Record.ofJson? [] body
      return .default
    | _ => none

def SwitchSection.decode : Nat → Decoder SwitchSection
  | 0, _ => none
  | n + 1, j => do
    let r ← Record.ofJson? ["labels", "statements"] j
    return ⟨← r.required "labels" (.list (SwitchLabel.decode n)),
      ← r.list "statements" (Stmt.decode n)⟩

def CatchClause.decode : Nat → Decoder CatchClause
  | 0, _ => none
  | n + 1, j => do
    let r ← Record.ofJson? ["ty", "name", "block"] j
    return ⟨← r.optional "ty" (SourceType.decode n), ← r.optional "name" .string,
      ← r.list "block" (Stmt.decode n)⟩

def Stmt.decode : Nat → Decoder Stmt
  | 0, _ => none
  | n + 1, j => do
    let (kind, body) ← untag j
    match kind with
    | "expression" =>
      let r ← Record.ofJson? ["id", "expr"] body
      return .expression (← r.nodeId) (← r.required "expr" (Expr.decode n))
    | "return" =>
      let r ← Record.ofJson? ["id", "value"] body
      return .ret (← r.nodeId) (← r.optional "value" (Expr.decode n))
    | "local_declaration" =>
      let r ← Record.ofJson? ["id", "declaration"] body
      return .locals (← r.nodeId) (← r.required "declaration" (VariableDeclaration.decode n))
    | "switch" =>
      let r ← Record.ofJson? ["id", "subject", "sections"] body
      return .switch (← r.nodeId) (← r.required "subject" (Expr.decode n))
        (← r.list "sections" (SwitchSection.decode n))
    | "block" =>
      let r ← Record.ofJson? ["id", "statements"] body
      return .block (← r.nodeId) (← r.list "statements" (Stmt.decode n))
    | "break" =>
      let r ← Record.ofJson? ["id"] body
      return .breakLoop (← r.nodeId)
    | "throw" =>
      let r ← Record.ofJson? ["id", "value"] body
      return .throw (← r.nodeId) (← r.optional "value" (Expr.decode n))
    | "if" =>
      let r ← Record.ofJson? ["id", "condition", "then", "otherwise"] body
      return .ifElse (← r.nodeId) (← r.required "condition" (Expr.decode n))
        (← r.required "then" (Stmt.decode n)) (← r.optional "otherwise" (Stmt.decode n))
    | "for" =>
      let r ← Record.ofJson?
        ["id", "declaration", "initializers", "condition", "incrementors", "body"] body
      return .forLoop (← r.nodeId) (← r.optional "declaration" (VariableDeclaration.decode n))
        (← r.list "initializers" (Expr.decode n)) (← r.optional "condition" (Expr.decode n))
        (← r.list "incrementors" (Expr.decode n)) (← r.required "body" (Stmt.decode n))
    | "while" =>
      let r ← Record.ofJson? ["id", "condition", "body"] body
      return .whileLoop (← r.nodeId) (← r.required "condition" (Expr.decode n))
        (← r.required "body" (Stmt.decode n))
    | "continue" =>
      let r ← Record.ofJson? ["id"] body
      return .continueLoop (← r.nodeId)
    | "for_each" =>
      let r ← Record.ofJson? ["id", "ty", "name", "iterable", "body"] body
      return .forEach (← r.nodeId) (← r.optional "ty" (SourceType.decode n))
        (← r.required "name" .string) (← r.required "iterable" (Expr.decode n))
        (← r.required "body" (Stmt.decode n))
    | "try" =>
      let r ← Record.ofJson? ["id", "block", "catches", "finally"] body
      return .tryCatch (← r.nodeId) (← r.required "block" (.list (Stmt.decode n)))
        (← r.list "catches" (CatchClause.decode n))
        (← r.optional "finally" (.list (Stmt.decode n)))
    | "lock" =>
      let r ← Record.ofJson? ["id", "target", "body"] body
      return .lock (← r.nodeId) (← r.required "target" (Expr.decode n))
        (← r.required "body" (Stmt.decode n))
    | "using" =>
      let r ← Record.ofJson? ["id", "declaration", "target", "body"] body
      return .useResource (← r.nodeId) (← r.optional "declaration" (VariableDeclaration.decode n))
        (← r.optional "target" (Expr.decode n)) (← r.required "body" (Stmt.decode n))
    | "do" =>
      let r ← Record.ofJson? ["id", "body", "condition"] body
      return .doWhile (← r.nodeId) (← r.required "body" (Stmt.decode n))
        (← r.required "condition" (Expr.decode n))
    | "empty" =>
      let r ← Record.ofJson? ["id"] body
      return .empty (← r.nodeId)
    | "other" =>
      let r ← Record.ofJson? ["id", "syntax"] body
      return .other (← r.nodeId) (← r.required "syntax" .string)
    | _ => none

end

def Expr.ofJson? (j : Json) : Option Expr := Expr.decode j.depth j

def Stmt.ofJson? (j : Json) : Option Stmt := Stmt.decode j.depth j

def Argument.ofJson? (j : Json) : Option Argument := Argument.decode j.depth j

def Body.decode (n : Nat) : Decoder Body := fun j => do
  let (kind, body) ← untag j
  match kind with
  | "block" =>
    let r ← Record.ofJson? ["statements"] body
    return .block (← r.required "statements" (.list (Stmt.decode n)))
  | "expression" =>
    let r ← Record.ofJson? ["expr"] body
    return .expression (← r.required "expr" (Expr.decode n))
  | _ => none

end Recast
