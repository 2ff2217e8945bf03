import Recast.Lower.Routine
import Recast.TypeScript.Dialect

/-! # TypeScript pages

One page per class. It starts with the imports that its types and bodies need, in order, and then
declares the class.
-/
namespace Recast

/-- The finished text of a class and the classes it mentions, in the order they come up. -/
structure Page where
  contents : String
  referenced : List String

namespace TypeScript

/-- Lines of a page and what they need. -/
structure Sheet where
  lines : List String := []
  imports : List String := []
  /-- Names of types, classes of the program among them. -/
  mentions : List String := []

namespace Sheet

instance : Append Sheet :=
  ⟨fun a b => ⟨a.lines ++ b.lines, a.imports ++ b.imports, a.mentions ++ b.mentions⟩⟩

def concat (sheets : List Sheet) : Sheet := sheets.foldl (· ++ ·) {}

/-- A line at a level of indentation; an empty line stays empty. -/
def line (level : Nat) (text : String) : Sheet :=
  { lines := [if text == "" then "" else Text.times level "  " ++ text] }

/-- What writing some types needs. -/
def uses (t : TypeTables) (types : List TypeDesc) : Sheet :=
  { imports := types.flatMap fun d => (t.spell d).imports
    mentions := types.flatMap TypeDesc.names }

def mention (names : List String) : Sheet := { mentions := names }

/-- What the lines of a body need, without the lines. -/
def needs (b : LoweredBody) : Sheet :=
  { imports := SortedSet.toList b.imports, mentions := b.referenced }

/-- The lines of a body; one that holds line breaks counts as several. -/
def body (level : Nat) (b : LoweredBody) : Sheet :=
  concat ((b.lines.flatMap (Text.split '\n')).map (line level)) ++ needs b

end Sheet

/-- A literal as the initial value of a variable or parameter; `default` is left out. -/
def initialValue? (text : String) : Option String :=
  let digits := match text.toList with
    | '-' :: cs => cs
    | cs => cs
  if text == "default" then none
  else if digits.head?.any fun c => ('0' ≤ c && c ≤ '9') || c == '.' then some (stripSuffix text)
  else some text

def accessWord : Access → String
  | .publicAccess | .internalAccess => "public "
  | .protectedAccess => "protected "
  | .privateAccess => "private "

def when (condition : Bool) (text : String) : String := if condition then text else ""

def genericParams (names : List String) : String := if names.isEmpty then "" else angled names

def tables (l : Lowering) : TypeTables := ⟨l.program.typeTable, l.known, forms⟩

section
variable (t : TypeTables)

def parameter (p : Parameter) : String :=
  let ty := (t.spell p.ty).text
  let typed := if ParameterFlag.isByReference p.flags then
      p.name ++ ": \x7b value: " ++ ty ++ " \x7d"
    else if p.flags.contains .params then "..." ++ p.name ++ ": " ++ ty
    else p.name ++ ": " ++ ty
  match p.default.bind initialValue? with
  | some value => typed ++ " = " ++ value
  | none => typed

def parameters (ps : List Parameter) : String := commas (ps.map (parameter t))

def returns (f : Routine) : String :=
  let ty := match f.effectiveReturnType? with
    | some ty => (t.spell ty).text
    | none => "void"
  if f.isAsync then "Promise<" ++ ty ++ ">" else ty

/-- The types in the signature of a routine. -/
def signatureTypes (f : Routine) : List TypeDesc :=
  f.parameters.map Parameter.ty ++
    if f.isConstructor then [] else f.effectiveReturnType?.toList

def enumSheet (c : Class) : Sheet :=
  .line 0 ("export enum " ++ c.name ++ " \x7b") ++
    .concat (c.enumMembers.map fun m => .line 1 (m ++ ",")) ++ .line 0 "\x7d"

def delegateSheet (c : Class) : Sheet :=
  let head := "export type " ++ c.name ++ genericParams c.genericParams ++ " = "
  match c.routines with
  | f :: _ =>
    .uses t (f.parameters.map Parameter.ty ++ f.effectiveReturnType?.toList) ++
      .line 0 (head ++ "(" ++ parameters t f.parameters ++ ") => " ++ returns t f ++ ";")
  | [] => .line 0 (head ++ "() => void;")

def interfaceVariable (v : Variable) : Sheet :=
  .uses t [v.ty] ++
    .line 1 (when (!v.hasSet) "readonly " ++ v.emittedName ++ ": " ++ (t.spell v.ty).text ++ ";")

def interfaceRoutine (f : Routine) : Sheet :=
  .uses t (f.parameters.map Parameter.ty ++ f.effectiveReturnType?.toList) ++
    .line 1 (f.emittedName ++ genericParams f.genericParams ++ "(" ++ parameters t f.parameters ++
      "): " ++ returns t f ++ ";")

def interfaceSheet (c : Class) : Sheet :=
  let bases := when (!c.extensions.isEmpty) (" extends " ++ commas c.extensions)
  .mention c.extensions ++
    .line 0 ("export interface " ++ c.name ++ genericParams c.genericParams ++ bases ++ " \x7b") ++
    .concat (c.vars.map (interfaceVariable t)) ++
    .concat (c.routines.map (interfaceRoutine t)) ++ .line 0 "\x7d"

end

/-- The base of a class, which is the first extension that is no interface of the program, and the
extensions that are left. -/
def splitBases (p : Program) : List String → Option String × List String
  | [] => (none, [])
  | name :: names =>
    if ((p.find? name).bind p.class?).any Class.isInterface then
      let (base, interfaces) := splitBases p names
      (base, name :: interfaces)
    else (some name, names)

def classHeader (p : Program) (c : Class) : String :=
  let (base, interfaces) := splitBases p c.extensions
  "export " ++ when (c.declaration == .abstractDecl) "abstract " ++ "class " ++ c.name ++
    genericParams c.genericParams ++
    (match base with
      | some base => " extends " ++ base
      | none => "") ++
    when (!interfaces.isEmpty) (" implements " ++ commas interfaces) ++ " \x7b"

section
variable (l : Lowering) (id : ClassId)

/-- A variable without accessor bodies. -/
def plainVariable (index : Nat) (v : Variable) : Except LowerError Sheet := do
  let typed := accessWord v.access ++ when v.isStatic "static " ++
    when v.isReadonly "readonly " ++ v.emittedName ++ ": " ++ ((tables l).spell v.ty).text
  let written (value : Option String) := match value with
    | some value => typed ++ " = " ++ value ++ ";"
    | none => typed ++ ";"
  match v.assignment with
  | some text => return .line 1 (written (initialValue? text))
  | none =>
    match ← l.initializer id index with
    | some b => return .needs b ++ .line 1 (written b.lines.head?)
    | none => return .line 1 (written none)

/-- One accessor of a property: its head and the lowered body. -/
def accessor (index : Nat) (kind : AccessorKind) (head : String) : Except LowerError Sheet := do
  let b ← l.accessor id index kind
  return .line 1 head ++ .body 2 b ++ .line 1 "\x7d"

def property (index : Nat) (v : Variable) : Except LowerError Sheet := do
  let ty := ((tables l).spell v.ty).text
  let head := accessWord v.access ++ when v.isStatic "static "
  let getter ← if v.expressionBody.isSome || v.getBody.isSome then
      accessor l id index .get (head ++ "get " ++ v.emittedName ++ "(): " ++ ty ++ " \x7b")
    else pure {}
  let setter ← if v.setBody.isSome then
      accessor l id index .set (head ++ "set " ++ v.emittedName ++ "(value: " ++ ty ++ ") \x7b")
    else pure {}
  return getter ++ setter

def variableSheet (index : Nat) (v : Variable) : Except LowerError Sheet := do
  let members ← if v.isPlain then plainVariable l id index v else property l id index v
  return .uses (tables l) [v.ty] ++ members

/-- A constructor. One that was renamed is a method that returns its instance. -/
def constructorSheet (className : String) (f : Routine) (b : LoweredBody) : Sheet :=
  let params := "(" ++ parameters (tables l) f.parameters ++ ")"
  if f.isStatic then .line 1 "static \x7b" ++ .body 2 b ++ .line 1 "\x7d"
  else
    match f.remap with
    | some name =>
      .line 1 (accessWord f.access ++ name ++ params ++ ": " ++ className ++ " \x7b") ++
        .body 2 b ++ .line 2 "return this;" ++ .line 1 "\x7d"
    | none => .line 1 ("constructor" ++ params ++ " \x7b") ++ .body 2 b ++ .line 1 "\x7d"

/-- The name of a method and what follows it up to the body. -/
def signature (f : Routine) : String :=
  let t := tables l
  f.emittedName ++ genericParams f.genericParams ++ "(" ++ parameters t f.parameters ++ "): " ++
    returns t f

def routineSheet (className : String) (index : Nat) (f : Routine) : Except LowerError Sheet := do
  let used := Sheet.uses (tables l) (signatureTypes f)
  if f.isConstructor then
    return used ++ constructorSheet l className f (← l.routine id index)
  else if f.body.isNone then
    return used ++ .line 1 (accessWord f.access ++
      when (f.declaration == .abstractDecl) "abstract " ++ signature l f ++ ";")
  else
    let b ← l.routine id index
    return used ++ .line 1 (accessWord f.access ++ when f.isStatic "static " ++
      when f.isAsync "async " ++ signature l f ++ " \x7b") ++ .body 2 b ++ .line 1 "\x7d"

def variableSheets : Nat → List Variable → Except LowerError Sheet
  | _, [] => return {}
  | i, v :: vs => return (← variableSheet l id i v) ++ (← variableSheets (i + 1) vs)

/-- The methods of a class, each after an empty line unless it is the first member. -/
def routineSheets (c : Class) : Nat → List Routine → Except LowerError Sheet
  | _, [] => return {}
  | i, f :: fs => do
    let gap : Sheet := if 0 < i || !c.vars.isEmpty then .line 1 "" else {}
    return gap ++ (← routineSheet l id c.name i f) ++ (← routineSheets c (i + 1) fs)

def classSheet (c : Class) : Except LowerError Sheet := do
  let vars ← variableSheets l id 0 c.vars
  let routines ← routineSheets l id c 0 c.routines
  return .mention c.extensions ++ .line 0 (classHeader l.program c) ++ vars ++ routines ++
    .line 0 "\x7d"

end

/-- The classes of the program among some names, each once and never the class itself. -/
def references (p : Program) (c : Class) (names : List String) : List String :=
  names.foldl (fun noted name =>
    if name != c.name && (p.find? name).isSome && !noted.contains name then noted ++ [name]
    else noted) []

def importLine (name : String) : String :=
  "import \x7b " ++ name ++ " \x7d from \"./" ++ name ++ "\";"

def endLines (lines : List String) : String := String.join (lines.map (· ++ "\n"))

/-- A page from its sheet: imports, references, an empty line if there are any, and the class. -/
def assemble (p : Program) (c : Class) (s : Sheet) : Page :=
  let imports := SortedSet.toList (SortedSet.addAll SortedMap.empty s.imports)
  let referenced := references p c s.mentions
  let sorted := sortBy (fun a b => decide (a ≤ b)) referenced
  let header := endLines (imports ++ sorted.map importLine)
  { contents := header ++ when (header != "") "\n" ++ endLines s.lines, referenced }

def page (l : Lowering) (id : ClassId) (c : Class) : Except LowerError Page := do
  let sheet ← match c.declaration with
    | .enumDecl => pure (enumSheet c)
    | .delegate => pure (delegateSheet (tables l) c)
    | .interface => pure (interfaceSheet (tables l) c)
    | _ => classSheet l id c
  return assemble l.program c sheet

end TypeScript

end Recast
