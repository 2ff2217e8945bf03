import Recast.Text.Blank
import Recast.Text.Search
import Recast.Lower.Dialect

/-! # The TypeScript dialect

Lists are arrays, dictionaries are maps, and an argument by reference travels in an object with the
one property `value`. A class with several constructors creates an empty instance first and then
calls the constructor by its name.
-/
namespace Recast.TypeScript

def commas (items : List String) : String := String.intercalate ", " items

def angled (items : List String) : String := "<" ++ commas items ++ ">"

def array (element : String) : String :=
  if element.toList.contains ' ' then "(" ++ element ++ ")[]" else element ++ "[]"

def callback (params : List String) (returns : Option String) : String :=
  let named := params.zipIdx.map fun (ty, i) => "a" ++ toString i ++ ": " ++ ty
  "(" ++ commas named ++ ") => " ++ returns.getD "void"

def forms : TypeForms where
  array := array
  list := array
  dictionary key value := "Map<" ++ key ++ ", " ++ value ++ ">"
  tuple elements := "[" ++ commas elements ++ "]"
  callback := callback
  generic name args := name ++ angled args
  nullable inner := inner ++ " | null"
  unknown := "any"

/-- A number without the letters at its end that give its type. -/
def stripSuffix (text : String) : String :=
  let isHex := Text.startsWith text "0x" || Text.startsWith text "0X"
  let suffixes := if isHex then "lLuU".toList else "fFdDmMlLuU".toList
  Text.trimEnd (suffixes.contains ·) text

def literal (kind : LiteralKind) (text : String) : String :=
  match kind with
  | .numeric => stripSuffix text
  | .string => "\"" ++ text ++ "\""
  | .char => "'" ++ text ++ "'"
  | .boolTrue => "true"
  | .boolFalse => "false"
  | .null => "null"
  | .default => "undefined"

def binary (left : String) (op : BinaryOp) (right : String) : String :=
  match op with
  | .eq => left ++ " === " ++ right
  | .ne => left ++ " !== " ++ right
  | .isType => left ++ " instanceof " ++ right
  | .asType => "(" ++ left ++ " as " ++ right ++ ")"
  | op => left ++ " " ++ op.token ++ " " ++ right

/-- The creation of an object. A type that is written as an array is created by its initializer. -/
def objectCreation (ty : String) (constructor : Option String) (args : List String)
    (initializer : Option String) : String :=
  if Text.endsWith ty "[]" then initializer.getD "[]"
  else
    let created := match constructor with
      | some name => "new " ++ ty ++ "()." ++ name ++ "(" ++ commas args ++ ")"
      | none => "new " ++ ty ++ "(" ++ commas args ++ ")"
    match initializer with
    | some init =>
      if Text.startsWith init "[" && args.isEmpty && constructor.isNone then
        "new " ++ ty ++ "(" ++ init ++ ")"
      else "Object.assign(" ++ created ++ ", " ++ init ++ ")"
    | none => created

/-- The characters of a template string, with backquotes and starts of holes escaped. -/
def escapeTemplate : List Char → List Char
  | [] => []
  | '$' :: '\x7b' :: cs => '\\' :: '$' :: '\x7b' :: escapeTemplate cs
  | c :: cs => if c == '\x60' then '\\' :: '\x60' :: escapeTemplate cs else c :: escapeTemplate cs

def fragment : Fragment → String
  | .text text => String.ofList (escapeTemplate text.toList)
  | .code code _ => "$\x7b" ++ code ++ "\x7d"

def initializer (shape : InitializerShape) (elements : List String) : String :=
  match shape with
  | .object => if elements.isEmpty then "\x7b\x7d" else "\x7b " ++ commas elements ++ " \x7d"
  | .collection | .array | .complex => "[" ++ commas elements ++ "]"

def arrayCreation (element : String) (sizes : List String) (initializer : Option String) :
    String :=
  match initializer, sizes with
  | some init, _ => init
  | none, size :: _ => "new Array<" ++ element ++ ">(" ++ size ++ ")"
  | none, [] => "[]"

def localDeclaration (name : String) (ty init : Option String) (mutable : Bool) : String :=
  (if mutable || init.isNone then "let " else "const ") ++ name ++
    (match ty with
      | some ty => ": " ++ ty
      | none => "") ++
    (match init with
      | some init => " = " ++ init
      | none => "") ++ ";"

def declarationClause (declarators : List (String × Option String)) : String :=
  let parts := declarators.map fun
    | (name, some init) => name ++ " = " ++ init
    | (name, none) => name
  "let " ++ commas parts

/-- The name of a caught value that has none. -/
def caught : String := "e"

def returnStatement : Option String → String
  | some value => "return " ++ value ++ ";"
  | none => "return;"

def constructorChain (target : ChainTarget) (constructor : Option String) (args : List String) :
    String :=
  let receiver := match target with
    | .base => "super"
    | .this => "this"
  let callee := match target, constructor with
    | _, some name => receiver ++ "." ++ name
    | .base, none => "super"
    | .this, none => "this.constructor"
  callee ++ "(" ++ commas args ++ ");"

def dialect : Dialect where
  types := forms
  indentUnit := "  "
  assignment target op value := target ++ " " ++ op.token ++ " " ++ value
  thisMember member := "this." ++ member
  staticMember className member := className ++ "." ++ member
  memberAccess target member := target ++ "." ++ member
  objectCreation := objectCreation
  invocation target args := target ++ "(" ++ commas args ++ ")"
  thisExpr := "this"
  baseExpr := "super"
  literal := literal
  binary := binary
  genericName name args := name ++ angled args
  lambdaParameter name ty := match ty with
    | some ty => name ++ ": " ++ ty
    | none => name
  lambda params body := "(" ++ commas params ++ ") => " ++ body
  conditional condition whenTrue whenFalse := condition ++ " ? " ++ whenTrue ++ " : " ++ whenFalse
  cast ty operand := "(" ++ operand ++ " as " ++ ty ++ ")"
  conditionalAccess target rest := target ++ rest
  memberBinding member := "?." ++ member
  prefixUnary op operand := op.token ++ operand
  postfixUnary op operand := operand ++ op.token
  elementAccess target args := target ++ "[" ++ String.intercalate "][" args ++ "]"
  interpolatedString parts := "\x60" ++ String.join (parts.map fragment) ++ "\x60"
  defaultValue ty := if ty.isSome then "null" else "undefined"
  typeReference ty := ty
  tupleLiteral elements := "[" ++ commas elements ++ "]"
  initializer := initializer
  initializerMember name value := name ++ ": " ++ value
  parenthesized inner := "(" ++ inner ++ ")"
  arrayCreation := arrayCreation
  typeOf ty := ty
  await operand := "await " ++ operand
  implicitArray initializer := initializer
  declarationExpression name := name
  boxDeclaration temp initial :=
    "const " ++ temp ++ ": \x7b value: any \x7d = \x7b value: " ++ initial.getD "undefined" ++
      " \x7d;"
  boxArgument temp := temp
  boxValue temp := temp ++ ".value"
  parameterValue parameter := parameter ++ ".value"
  expressionStatement expr := expr ++ ";"
  returnStatement := returnStatement
  localDeclaration := localDeclaration
  declarationClause := declarationClause
  throwStatement value := "throw " ++ value.getD caught ++ ";"
  breakStatement := "break;"
  continueStatement := "continue;"
  blockOpen := "\x7b"
  blockClose := "\x7d"
  ifHeader condition := "if (" ++ condition ++ ") \x7b"
  elseIfHeader condition := "\x7d else if (" ++ condition ++ ") \x7b"
  elseHeader := "\x7d else \x7b"
  whileHeader condition := "while (" ++ condition ++ ") \x7b"
  doHeader := "do \x7b"
  doFooter condition := "\x7d while (" ++ condition ++ ");"
  forHeader init condition steps :=
    "for (" ++ init.getD "" ++ "; " ++ condition.getD "" ++ "; " ++ commas steps ++ ") \x7b"
  forEachHeader name _ iterable := "for (const " ++ name ++ " of " ++ iterable ++ ") \x7b"
  switchHeader subject := "switch (" ++ subject ++ ") \x7b"
  caseLabel value := "case " ++ value ++ ":"
  defaultLabel := "default:"
  tryHeader := "try \x7b"
  catchHeader name _ := "\x7d catch (" ++ name.getD caught ++ ") \x7b"
  finallyHeader := "\x7d finally \x7b"
  dispose target := target ++ ".Dispose();"
  constructorChain := constructorChain

end Recast.TypeScript
