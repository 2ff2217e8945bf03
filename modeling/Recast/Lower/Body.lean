import Recast.Lower.Names

/-! # Lowering expressions and statements

An argument that is passed by reference goes through a box: a line before the statement makes the
box, the call gets the box, and a line after the statement takes the value out again. These lines
travel up from the parts of an expression to the statement, which writes them around its own.
-/
namespace Recast

/-- Where a statement stands. -/
inductive Place where
  | line
  /-- As the body of another statement, which has opened the block already. -/
  | inner
  | alternative
  deriving DecidableEq, Repr

structure LoweredArgs where
  codes : List String := []
  hoists : Hoists := {}

/-- A reference to something by name, without any effect of its own. -/
def Expr.isPlainReference : Expr → Bool
  | .identifier .. | .this _ | .base _ | .typeOf .. => true
  | .memberAccess _ target _ => target.isPlainReference
  | .qualifiedName _ left _ => left.isPlainReference
  | .parenthesized _ inner => inner.isPlainReference
  | _ => false

namespace Surroundings
variable (env : Surroundings)

def blockText (lines : List String) : Lower String := do
  if lines.isEmpty then return env.dialect.blockOpen ++ env.dialect.blockClose
  return env.dialect.blockOpen ++ "\n" ++ String.intercalate "\n" lines ++ "\n" ++
    env.indentation (← get).depth ++ env.dialect.blockClose

/-- The body of a lambda that is an expression; if the expression has lines, it becomes a block. -/
def lambdaResult (l : Lowered) : Lower String := do
  if l.hoists.isEmpty then return l.code
  let lines ← Lower.collected <| Lower.indented do
    let code ← env.bind "ret" l
    env.emit (env.dialect.returnStatement (some code))
  env.blockText lines

def lambdaParams : List LambdaParam → Lower (List String)
  | [] => return []
  | p :: ps => do
    let ty ← env.spellType? (SourceType.explicit? p.ty)
    return env.dialect.lambdaParameter p.name ty :: (← lambdaParams ps)

/-- The value of a type that has one of its own, or else what the dialect writes for it. -/
def defaultValue (ty : Option TypeDesc) : Lower Lowered := do
  let code ← match ty.bind TypeDesc.defaultValue? with
    | some "false" => pure (env.dialect.literal .boolFalse "false")
    | some value => pure (env.dialect.literal .numeric value)
    | none => do
      match ty with
      | some d => return { code := env.dialect.defaultValue (some (← env.spell d)), ty }
      | none => pure (env.dialect.defaultValue none)
  return { code, ty }

def predefinedType (name : String) : Lower Lowered := do
  let ty := TypeDesc.ofType (.predefined name)
  match env.known.get? name 0 with
  | some known =>
    Lower.addImport known.importLine
    return { code := env.dialect.typeReference known.target, ty := some ty }
  | none => return { code := env.dialect.typeReference (← env.spell ty), ty := some ty }

/-- An argument `out var x`: the box is empty, and the local is declared after the statement. -/
def outDeclaration (ty : Option SourceType) (name : String) : Lower LoweredArgs := do
  let d := env.dialect
  let temp ← Lower.temp "out"
  let ty ← env.spellType? (SourceType.explicit? ty)
  let mutable ← env.declareLocal name true
  return {
    codes := [d.boxArgument temp]
    hoists := ⟨[d.boxDeclaration temp none],
      [d.localDeclaration name ty (some (d.boxValue temp)) mutable]⟩ }

/-- An argument by reference: what the box holds in the end is written back. -/
def boxed (l : Lowered) (withValue : Bool) : Lower LoweredArgs := do
  let d := env.dialect
  let temp ← Lower.temp "out"
  let initial := if withValue then some l.code else none
  let writeBack := d.expressionStatement (d.assignment l.code .assign (d.boxValue temp))
  return {
    codes := [d.boxArgument temp]
    hoists := ⟨l.hoists.before ++ [d.boxDeclaration temp initial], writeBack :: l.hoists.after⟩ }

def argument (passing : Passing) (e : Expr) (lowered : Lower Lowered) : Lower LoweredArgs :=
  match passing, e with
  | .byOut, .declaration _ ty name => env.outDeclaration ty name
  | .byOut, _ => do env.boxed (← lowered) false
  | .byRef, _ => do env.boxed (← lowered) true
  | _, _ => do
    let l ← lowered
    return ⟨[l.code], l.hoists⟩

def expressionStatement (l : Lowered) : Lower Unit := do
  if l.processed then env.splice l.hoists (env.dialect.expressionStatement l.code)

def bound (word : String) (l : Lowered) (line : String → String) : Lower Unit := do
  let code ← env.bind word l
  env.emit (line code)

def exitUnless (condition : Lowered) : Lower Unit := do
  let d := env.dialect
  let code ← env.bind "cond" condition
  env.emit (d.ifHeader (d.prefixUnary .not (d.parenthesized code)))
  Lower.indented (env.emit d.breakStatement)
  env.emit d.blockClose

/-- A loop whose condition has lines of its own, written as an endless loop with an exit. A loop
that tests last skips the test in the first round, so that the body may still continue. -/
def loopWithExit (condition : Lowered) (testLast : Bool) (body : Lower Unit) : Lower Unit := do
  let d := env.dialect
  let always := d.literal .boolTrue "true"
  if testLast then
    let first ← Lower.temp "first"
    env.emit (d.localDeclaration first none (some always) true)
    env.emit (d.whileHeader always)
    Lower.indented do
      env.emit (d.ifHeader (d.prefixUnary .not first))
      Lower.indented (env.exitUnless condition)
      env.emit d.blockClose
      env.emit (d.expressionStatement
        (d.assignment first .assign (d.literal .boolFalse "false")))
      body
  else
    env.emit (d.whileHeader always)
    Lower.indented do
      env.exitUnless condition
      body
  env.emit d.blockClose

/-- A block that releases resources in the end, the last one first. -/
def guarded (acquire : Lower (List String)) (body : Lower Unit) : Lower Unit := do
  let d := env.dialect
  env.emit d.blockOpen
  Lower.indented do
    let resources ← acquire
    env.emit d.tryHeader
    Lower.indented body
    env.emit d.finallyHeader
    Lower.indented (env.emitAll (resources.reverse.map d.dispose))
    env.emit d.blockClose
  env.emit d.blockClose

/-- A statement in its place: as an alternative it gets a block of its own. -/
def placed (place : Place) (m : Lower Unit) : Lower Unit :=
  match place with
  | .alternative => do
    env.emit env.dialect.elseHeader
    Lower.indented m
  | _ => m

/-- A name behind a dot, given how to lower what stands before it and the name itself. Behind the
name of a namespace the name stands alone. -/
def access (id : NodeId) (target name : Expr) (lowerTarget lowerName : Lower Lowered) :
    Lower Lowered := do
  let arity ← Lower.takeArity
  let l ← lowerTarget
  if !l.processed then Lower.calling arity lowerName
  else
    let scope := (← get).scope
    let receiver := env.receiverFor scope target l
    let member ← Lower.memberOf receiver arity lowerName
    let ty := env.typeOf? id <|> member.ty
    match env.redirect? scope receiver target name arity with
    | some className =>
      env.reference className
      return .join (env.dialect.staticMember className member.code) ty [l, member]
    | none => return .join (env.dialect.memberAccess l.code member.code) ty [l, member]

mutual

/-- Lower an expression. The members that an initializer sets are those of `owner`. -/
def expr (owner : Option ClassId) (e : Expr) : Lower Lowered :=
  let d := env.dialect
  Lower.isolated <| match e with
  | .assignment _ op target value => do
    let target ← expr none target
    let value ← expr none value
    return .join (d.assignment target.code op value.code) target.ty [target, value]
  | .identifier id name => env.identifier id name
  | .genericName id name typeArgs => do
    let base ← env.identifier id name
    let args ← env.spellTypes typeArgs
    return .join (d.genericName base.code args) base.ty [base]
  | .memberAccess id target name => env.access id target name (expr none target) (expr none name)
  | .qualifiedName id target name => env.access id target name (expr none target) (expr none name)
  | .conditionalAccess id target whenNotNull => do
    let _ ← Lower.takeArity
    let l ← expr none target
    let receiver := env.receiverFor (← get).scope target l
    let rest ← Lower.withBinding receiver (expr none whenNotNull)
    let ty := env.typeOf? id <|> rest.ty
    return .join (d.conditionalAccess l.code rest.code) ty [l, rest]
  | .memberBinding id name => do
    let arity ← Lower.takeArity
    let receiver := (← get).bindingReceiver.getD (.external "")
    let member ← Lower.memberOf receiver arity (expr none name)
    let ty := env.typeOf? id <|> member.ty
    return .join (d.memberBinding member.code) ty [member]
  | .invocation id target args => do
    let callee ← Lower.calling (some args.length) (expr none target)
    let rest ← arguments args
    return { callee with
      code := d.invocation callee.code rest.codes
      ty := env.typeOf? id <|> callee.ty
      hoists := callee.hoists ++ rest.hoists }
  | .objectCreation id ty args init => do
    let created := TypeDesc.ofType ty
    let mapped ← env.spell created
    let owner := ty.simpleName?.bind env.program.find?
    let rest ← arguments args
    let count := (env.oracle.symbolOf? id).bind Symbol.parameterCount
    let constructor := env.constructorName? owner ((count.map UInt64.toNat).getD args.length)
    match init with
    | some init => do
      let init ← expr owner init
      return {
        code := d.objectCreation mapped constructor rest.codes (some init.code)
        ty := some created
        hoists := rest.hoists ++ init.hoists }
    | none => return {
        code := d.objectCreation mapped constructor rest.codes none
        ty := some created
        hoists := rest.hoists }
  | .this _ => do
    let owner := (← get).scope.memberOwner?
    return { code := d.thisExpr, ty := owner.map fun id => .object (env.className id) }
  | .base _ => return { code := d.baseExpr }
  | .literal id kind text => return { code := d.literal kind text, ty := env.typeOf? id }
  | .binary id op left right => do
    let left ← expr none left
    let right ← expr none right
    return .join (d.binary left.code op right.code) (env.typeOf? id) [left, right]
  | .simpleLambda _ param body => do
    let params ← env.lambdaParams [param]
    let body ← lambdaBody body
    return { code := d.lambda params body }
  | .parenthesizedLambda _ params body => do
    let params ← env.lambdaParams params
    let body ← lambdaBody body
    return { code := d.lambda params body }
  | .conditional id condition whenTrue whenFalse => do
    let condition ← expr none condition
    let whenTrue ← expr none whenTrue
    let whenFalse ← expr none whenFalse
    let branches := whenTrue.hoists ++ whenFalse.hoists
    env.refuse .conditionalBranch (branches.before ++ branches.after)
    let ty := env.typeOf? id <|> whenTrue.ty
    return .join (d.conditional condition.code whenTrue.code whenFalse.code) ty
      [condition, whenTrue, whenFalse]
  | .cast _ ty operand => do
    let target := TypeDesc.ofType ty
    let mapped ← env.spell target
    let operand ← expr none operand
    return .join (d.cast mapped operand.code) (some target) [operand]
  | .prefixUnary _ op operand => do
    let operand ← expr none operand
    return .join (d.prefixUnary op operand.code) operand.ty [operand]
  | .postfixUnary _ op operand => do
    let operand ← expr none operand
    return .join (d.postfixUnary op operand.code) operand.ty [operand]
  | .elementAccess id target args => do
    let l ← expr none target
    let rest ← arguments args
    return { l with
      code := d.elementAccess l.code rest.codes
      ty := env.typeOf? id <|> l.ty.bind TypeDesc.element?
      hoists := l.hoists ++ rest.hoists }
  | .interpolatedString _ parts => do
    let (fragments, hoists) ← interpolation parts
    return {
      code := d.interpolatedString fragments
      ty := some { kind := .string, name := "string" }
      hoists }
  | .defaultValue id ty =>
    match ty with
    | some ty => env.defaultValue (some (.ofType ty))
    | none => env.defaultValue (env.typeOf? id)
  | .predefinedType _ name => env.predefinedType name
  | .tuple id elements => do
    let rest ← arguments elements
    return { code := d.tupleLiteral rest.codes, ty := env.typeOf? id, hoists := rest.hoists }
  | .initializer id shape elements => do
    let rest ← initializers owner shape elements
    return { code := d.initializer shape rest.codes, ty := env.typeOf? id, hoists := rest.hoists }
  | .parenthesized _ inner => do
    let inner ← expr none inner
    return .join (d.parenthesized inner.code) inner.ty [inner]
  | .arrayCreation _ element sizes init => do
    let element := TypeDesc.ofType element
    let mapped ← env.spell element
    let rest ← exprs sizes
    let ty := some { kind := .array, name := "Array", genericArgs := [element] }
    match init with
    | some init => do
      let init ← expr none init
      return {
        code := d.arrayCreation mapped rest.codes (some init.code)
        ty
        hoists := rest.hoists ++ init.hoists }
    | none => return {
        code := d.arrayCreation mapped rest.codes none
        ty
        hoists := rest.hoists }
  | .typeOf _ ty => return { code := d.typeOf (← env.spellType ty) }
  | .await id operand => do
    let operand ← expr none operand
    return .join (d.await operand.code) (env.typeOf? id) [operand]
  | .implicitArrayCreation id init => do
    let init ← expr none init
    return .join (d.implicitArray init.code) (env.typeOf? id) [init]
  | .declaration _ _ name => do
    Lower.declare { name }
    return { code := d.declarationExpression name }
  | .other id construct => env.unsupported construct id

def exprs : List Expr → Lower LoweredArgs
  | [] => return {}
  | e :: es => do
    let l ← expr none e
    let rest ← exprs es
    return ⟨l.code :: rest.codes, l.hoists ++ rest.hoists⟩

def arguments : List Argument → Lower LoweredArgs
  | [] => return {}
  | ⟨passing, e⟩ :: args => do
    let first ← env.argument passing e (expr none e)
    let rest ← arguments args
    return ⟨first.codes ++ rest.codes, first.hoists ++ rest.hoists⟩

/-- Lower the elements of an initializer; in the initializer of an object, `name = value` sets the
member of `owner` with the name. -/
def initializers (owner : Option ClassId) (shape : InitializerShape) :
    List Expr → Lower LoweredArgs
  | [] => return {}
  | e :: es => do
    let first ← match shape, e with
      | .object, .assignment _ _ (.identifier _ name) value => do
        let info := owner.bind fun id => env.memberInfo? id name none
        let l ← expr none value
        let code := env.dialect.initializerMember ((info.map MemberInfo.emitted).getD name) l.code
        pure { l with code }
      | _, e => expr none e
    let rest ← initializers owner shape es
    return ⟨first.code :: rest.codes, first.hoists ++ rest.hoists⟩

def interpolation : List InterpolationPart → Lower (List Fragment × Hoists)
  | [] => return ([], {})
  | .text text :: parts => do
    let (fragments, hoists) ← interpolation parts
    return (.text text :: fragments, hoists)
  | .expression e format :: parts => do
    let l ← expr none e
    let (fragments, hoists) ← interpolation parts
    return (.code l.code format :: fragments, l.hoists ++ hoists)

def lambdaBody : LambdaBody → Lower String
  | .block statements => do
    let lines ← Lower.collected (Lower.indented (stmts statements))
    env.blockText lines
  | .expression e => do env.lambdaResult (← expr none e)

def declarators (ty : Option String) : List Declarator → Lower Unit
  | [] => return ()
  | ⟨_, name, init⟩ :: ds => do
    match init with
    | some e => do
      let l ← expr none e
      let mutable ← env.declareLocal name true
      env.splice l.hoists (env.dialect.localDeclaration name ty (some l.code) mutable)
    | none => do
      let mutable ← env.declareLocal name false
      env.emit (env.dialect.localDeclaration name ty none mutable)
    declarators ty ds

def headDeclarators : List Declarator → Lower (List (String × Option String))
  | [] => return []
  | ⟨_, name, init⟩ :: ds => do
    Lower.declare { name }
    let value ← match init with
      | some e => do
        let l ← expr none e
        env.refuse .forInitializer l.hoists.after
        env.emitAll l.hoists.before
        pure (some l.code)
      | none => pure none
    return (name, value) :: (← headDeclarators ds)

def headInitializers : List Expr → Lower (List String)
  | [] => return []
  | e :: es => do
    let l ← expr none e
    env.refuse .forInitializer l.hoists.after
    env.emitAll l.hoists.before
    return l.code :: (← headInitializers es)

def headIncrementors : List Expr → Lower (List String)
  | [] => return []
  | e :: es => do
    let l ← expr none e
    env.refuse .forIncrementor (l.hoists.before ++ l.hoists.after)
    return l.code :: (← headIncrementors es)

def labels : List SwitchLabel → Lower Unit
  | [] => return ()
  | .case value :: rest => do
    let l ← expr none value
    env.refuse .caseLabel (l.hoists.before ++ l.hoists.after)
    env.emit (env.dialect.caseLabel l.code)
    labels rest
  | .default :: rest => do
    env.emit env.dialect.defaultLabel
    labels rest

def switchSections : List SwitchSection → Lower Unit
  | [] => return ()
  | ⟨ls, statements⟩ :: rest => do
    labels ls
    Lower.indented (stmts statements)
    switchSections rest

def catchClauses : List CatchClause → Lower Unit
  | [] => return ()
  | ⟨ty, name, block⟩ :: rest => do
    if let some name := name then
      Lower.declare { name }
    let ty ← env.spellType? ty
    env.emit (env.dialect.catchHeader name ty)
    Lower.indented (stmts block)
    catchClauses rest

def stmt (place : Place) (s : Stmt) : Lower Unit :=
  let d := env.dialect
  match s with
  | .expression _ e => env.placed place do env.expressionStatement (← expr none e)
  | .ret _ value => env.placed place do
    match value with
    | some e => do env.bound "ret" (← expr none e) fun code => d.returnStatement (some code)
    | none => env.emit (d.returnStatement none)
  | .locals _ ⟨ty, ds⟩ => env.placed place do
    let ty ← env.spellType? (SourceType.explicit? ty)
    declarators ty ds
  | .switch _ subject sections => env.placed place do
    env.bound "cond" (← expr none subject) d.switchHeader
    Lower.indented (switchSections sections)
    env.emit d.blockClose
  | .block _ statements =>
    match place with
    | .line => do
      env.emit d.blockOpen
      Lower.indented (stmts statements)
      env.emit d.blockClose
    | place => env.placed place (stmts statements)
  | .breakLoop _ => env.placed place (env.emit d.breakStatement)
  | .continueLoop _ => env.placed place (env.emit d.continueStatement)
  | .throw _ value => env.placed place do
    match value with
    | some e => do env.bound "ret" (← expr none e) fun code => d.throwStatement (some code)
    | none => env.emit (d.throwStatement none)
  | .ifElse _ condition thenBranch otherwise => do
    let l ← expr none condition
    let branches : Lower Unit := do
      Lower.indented (stmt .inner thenBranch)
      match otherwise with
      | some s => stmt .alternative s
      | none => pure ()
    if place = .alternative ∧ l.hoists.isEmpty then
      env.emit (d.elseIfHeader l.code)
      branches
    else env.placed place do
      env.bound "cond" l d.ifHeader
      branches
      env.emit d.blockClose
  | .forLoop _ declaration initializers condition incrementors body => env.placed place do
    let init ← match declaration with
      | some ⟨_, ds⟩ => do pure (some (d.declarationClause (← headDeclarators ds)))
      | none => do
        let parts ← headInitializers initializers
        pure (if parts.isEmpty then none else some (String.intercalate ", " parts))
    let condition ← match condition with
      | some e => do
        let l ← expr none e
        env.refuse .forCondition (l.hoists.before ++ l.hoists.after)
        pure (some l.code)
      | none => pure none
    let steps ← headIncrementors incrementors
    env.emit (d.forHeader init condition steps)
    Lower.indented (stmt .inner body)
    env.emit d.blockClose
  | .whileLoop _ condition body => env.placed place do
    let l ← expr none condition
    if l.hoists.isEmpty then
      env.emit (d.whileHeader l.code)
      Lower.indented (stmt .inner body)
      env.emit d.blockClose
    else env.loopWithExit l false (stmt .inner body)
  | .doWhile _ body condition => env.placed place do
    let l ← expr none condition
    if l.hoists.isEmpty then
      env.emit d.doHeader
      Lower.indented (stmt .inner body)
      env.emit (d.doFooter l.code)
    else env.loopWithExit l true (stmt .inner body)
  | .forEach _ ty name iterable body => env.placed place do
    let code ← env.bind "iter" (← expr none iterable)
    Lower.declare { name }
    let ty ← env.spellType? (SourceType.explicit? ty)
    env.emit (d.forEachHeader name ty code)
    Lower.indented (stmt .inner body)
    env.emit d.blockClose
  | .tryCatch _ block catches finallyBlock => env.placed place do
    env.emit d.tryHeader
    Lower.indented (stmts block)
    catchClauses catches
    match finallyBlock with
    | some statements => do
      env.emit d.finallyHeader
      Lower.indented (stmts statements)
    | none => pure ()
    env.emit d.blockClose
  | .lock _ target body => env.placed place do
    if !target.isPlainReference then env.expressionStatement (← expr none target)
    env.emit d.blockOpen
    Lower.indented (stmt .inner body)
    env.emit d.blockClose
  | .useResource _ declaration target body => env.placed place do
    let acquire : Lower (List String) :=
      match declaration, target with
      | some ⟨ty, ds⟩, _ => do
        let ty ← env.spellType? (SourceType.explicit? ty)
        declarators ty ds
        return ds.map Declarator.name
      | none, some e => do
        let l ← expr none e
        let temp ← Lower.temp "using"
        env.splice l.hoists (d.localDeclaration temp none (some l.code) false)
        return [temp]
      | none, none => return []
    env.guarded acquire (stmt .inner body)
  | .empty _ => env.placed place (return ())
  | .other id construct => env.placed place (env.unsupported construct id)

def stmts : List Stmt → Lower Unit
  | [] => return ()
  | s :: ss => do
    stmt .line s
    stmts ss

end

end Surroundings

end Recast
