import Recast.Text.Blank
import Recast.Program.Locals

/-! # Discovery

The classes that the members of a document declare, in the order of their declarations, a type
before the types nested in it. What the rules ignore and what is no declaration is counted.
-/
namespace Recast

/-- What the words in front of a declaration say. -/
structure Modifiers where
  access : Option Access := none
  declaration : Declaration := .plain
  isStatic : Bool := false
  isOverride : Bool := false
  isAsync : Bool := false
  isReadonly : Bool := false

namespace Modifiers

/-- Of several access words the widest counts. -/
def allow (m : Modifiers) (access : Access) : Modifiers :=
  { m with access := some ((m.access.map (·.wider access)).getD access) }

def take (m : Modifiers) (word : String) : Modifiers :=
  match word with
  | "public" => m.allow .publicAccess
  | "internal" => m.allow .internalAccess
  | "protected" => m.allow .protectedAccess
  | "private" => m.allow .privateAccess
  | "static" | "const" => { m with isStatic := true }
  | "override" => { m with isOverride := true }
  | "abstract" => { m with declaration := .abstractDecl }
  | "virtual" => { m with declaration := .virtualDecl }
  | "async" => { m with isAsync := true }
  | "readonly" => { m with isReadonly := true }
  | _ => m

def ofWords (words : List String) : Modifiers := words.foldl take {}

/-- The members of an interface are public unless another access is given, all others private. -/
def accessIn (m : Modifiers) (owner : Declaration) : Access :=
  m.access.getD (if owner = .interface then .publicAccess else .privateAccess)

end Modifiers

/-- The text of a literal, which may be negated. -/
def Expr.literalText? : Expr → Option String
  | .literal _ .string text => some ("\"" ++ text ++ "\"")
  | .literal _ .char text => some ("'" ++ text ++ "'")
  | .literal _ _ text => some text
  | .prefixUnary _ .minus operand => operand.literalText?.map ("-" ++ ·)
  | .defaultValue .. => some "default"
  | _ => none

namespace Parameter

def ofDecl (d : ParameterDecl) : Parameter where
  name := d.name
  ty := .ofType d.ty
  flags := ParameterFlag.ofWords d.modifiers
  default := d.default.bind Expr.literalText?

end Parameter

namespace Variable

/-- Give a variable its initial value; without one it starts with the default of its type. -/
def withInitial (v : Variable) : Option Expr → Variable
  | none => { v with assignment := v.ty.defaultValue? }
  | some e =>
    match e.literalText? with
    | some text => { v with assignment := some text }
    | none => { v with initializer := some e }

def ofField (owner : Declaration) (d : FieldDecl) : List Variable :=
  let m := Modifiers.ofWords d.modifiers
  let ty := TypeDesc.ofType d.ty
  d.declarators.map fun x =>
    Variable.withInitial
      { name := x.name, ty, kind := .field, access := m.accessIn owner, isStatic := m.isStatic,
        isReadonly := m.isReadonly, hasGet := true, hasSet := !m.isReadonly }
      x.init

def addAccessor (v : Variable) (a : AccessorDecl) : Variable :=
  match a.kind with
  | .get => { v with hasGet := true, getBody := a.body }
  | .set | .init => { v with hasSet := true, setBody := a.body }

def ofProperty (owner : Declaration) (d : PropertyDecl) : Variable :=
  let m := Modifiers.ofWords d.modifiers
  let v : Variable :=
    { name := d.name, ty := .ofType d.ty, kind := .property, access := m.accessIn owner,
      declaration := m.declaration, isStatic := m.isStatic, isOverride := m.isOverride,
      hasGet := d.expressionBody.isSome, expressionBody := d.expressionBody }
  Variable.withInitial (d.accessors.foldl addAccessor v) d.initializer

def ofEvent (owner : Declaration) (d : EventDecl) : List Variable :=
  let m := Modifiers.ofWords d.modifiers
  let ty := TypeDesc.ofType d.ty
  d.names.map fun name =>
    { name, ty, kind := .event, access := m.accessIn owner, isStatic := m.isStatic,
      hasGet := true, hasSet := true }

end Variable

namespace Routine

def returned? (ty : SourceType) : Option TypeDesc :=
  some (TypeDesc.ofType ty) |>.filter fun d => !d.isVoid

/-- A routine with what its body tells. -/
def scanned (oracle : Oracle) (f : Routine) : Routine :=
  match f.body with
  | none => f
  | some body =>
    let s := Scan.body oracle f.returnType.isSome body
    { f with analyzedReturns := s.returns, locals := s.locals }

def ofMethod (oracle : Oracle) (owner : Declaration) (d : MethodDecl) : Routine :=
  let m := Modifiers.ofWords d.modifiers
  Routine.scanned oracle
    { name := d.name, access := m.accessIn owner, declaration := m.declaration,
      isStatic := m.isStatic, isAsync := m.isAsync, isOverride := m.isOverride,
      genericParams := d.genericParams, parameters := d.params.map Parameter.ofDecl,
      returnType := returned? d.returns, body := d.body }

def ofConstructor (oracle : Oracle) (owner : Declaration) (d : ConstructorDecl) : Routine :=
  let m := Modifiers.ofWords d.modifiers
  Routine.scanned oracle
    { name := d.name, access := m.accessIn owner, isStatic := m.isStatic, isConstructor := true,
      parameters := d.params.map Parameter.ofDecl, chain := d.chain, body := d.body }

end Routine

namespace Class

def enumMemberText (d : EnumMemberDecl) : String :=
  match d.value with
  | some value => d.name ++ " = " ++ Text.trim value
  | none => d.name

/-- A type with its head alone. -/
def ofHead (oracle : Oracle) (namespaceName : Option String) (h : TypeHead) : Class :=
  let m := Modifiers.ofWords h.modifiers
  let bases := h.bases.filterMap fun b => b.ty.simpleName?.map fun name =>
    (name, ((oracle.typeOf? b.id).getD b.ty).display)
  { name := h.name
    namespaceName
    declaration := match h.keyword with
      | .interfaceKind => .interface
      | .enumKind => .enumDecl
      | .structKind => .struct
      | .classKind => if m.declaration = .abstractDecl then .abstractDecl else .plain
    isStatic := m.isStatic
    extensions := bases.map Prod.fst
    extensionDisplay := bases.map Prod.snd
    genericParams := h.genericParams
    oracle := some oracle }

/-- A class with one more of its direct members; nested declarations are no part of it. -/
def addMember (oracle : Oracle) (c : Class) : Member → Class
  | .field d => { c with vars := c.vars ++ Variable.ofField c.declaration d }
  | .property d => { c with vars := c.vars ++ [Variable.ofProperty c.declaration d] }
  | .event d => { c with vars := c.vars ++ Variable.ofEvent c.declaration d }
  | .method d => { c with routines := c.routines ++ [Routine.ofMethod oracle c.declaration d] }
  | .constructor d =>
    { c with routines := c.routines ++ [Routine.ofConstructor oracle c.declaration d] }
  | .enumMember d => { c with enumMembers := c.enumMembers ++ [enumMemberText d] }
  | _ => c

def ofType (oracle : Oracle) (namespaceName : Option String) (h : TypeHead)
    (members : List Member) : Class :=
  members.foldl (addMember oracle) (ofHead oracle namespaceName h)

/-- A delegate is a class with the one method `Invoke`. -/
def ofDelegate (oracle : Oracle) (namespaceName : Option String) (d : DelegateDecl) : Class where
  name := d.name
  namespaceName := namespaceName
  declaration := .delegate
  genericParams := d.genericParams
  routines := [{
    name := "Invoke", access := .publicAccess, parameters := d.params.map Parameter.ofDecl,
    returnType := Routine.returned? d.returns }]
  oracle := some oracle

end Class

/-- What some members declare. -/
structure Harvest where
  classes : List Class := []
  skippedNamespaces : Nat := 0
  skippedClasses : Nat := 0
  skippedMembers : Nat := 0

namespace Harvest

def append (a b : Harvest) : Harvest where
  classes := a.classes ++ b.classes
  skippedNamespaces := a.skippedNamespaces + b.skippedNamespaces
  skippedClasses := a.skippedClasses + b.skippedClasses
  skippedMembers := a.skippedMembers + b.skippedMembers

instance : Append Harvest := ⟨append⟩

end Harvest

/-- The full name of a namespace inside another one. -/
def qualifiedName (outer : Option String) (name : String) : String :=
  match outer with
  | some outer => outer ++ "." ++ name
  | none => name

def DelegateDecl.harvest (rules : Rules) (oracle : Oracle) (namespaceName : Option String)
    (d : DelegateDecl) : Harvest :=
  if rules.ignoresClass d.name then { skippedClasses := 1 }
  else { classes := [Class.ofDelegate oracle namespaceName d] }

namespace Member

mutual

/-- What a member outside of types declares. -/
def harvest (rules : Rules) (oracle : Oracle) (outer : Option String) : Member → Harvest
  | .namespaceDecl name members =>
    let name := qualifiedName outer name
    if rules.ignoresNamespace name then { skippedNamespaces := 1 }
    else harvestAll rules oracle (some name) members
  | .typeDecl head members =>
    if rules.ignoresClass head.name then { skippedClasses := 1 }
    else
      { classes := [Class.ofType oracle outer head members] } ++
        harvestNested rules oracle outer members
  | .delegate d => d.harvest rules oracle outer
  | _ => { skippedMembers := 1 }

def harvestAll (rules : Rules) (oracle : Oracle) (outer : Option String) : List Member → Harvest
  | [] => {}
  | m :: ms => harvest rules oracle outer m ++ harvestAll rules oracle outer ms

/-- What the members of a type declare beside the type. -/
def harvestNested (rules : Rules) (oracle : Oracle) (outer : Option String) :
    List Member → Harvest
  | [] => {}
  | m :: ms =>
    let here : Harvest := match m with
      | .field _ | .property _ | .event _ | .method _ | .constructor _ | .enumMember _ => {}
      | .namespaceDecl .. => { skippedMembers := 1 }
      | m => harvest rules oracle outer m
    here ++ harvestNested rules oracle outer ms

end

end Member

/-- What discovery did. -/
structure Discovery where
  documents : Nat := 0
  classes : Nat := 0
  skippedNamespaces : Nat := 0
  skippedClasses : Nat := 0
  skippedMembers : Nat := 0
  deriving DecidableEq, Repr

namespace Discovery

def count (d : Discovery) (h : Harvest) : Discovery where
  documents := d.documents + 1
  classes := d.classes + h.classes.length
  skippedNamespaces := d.skippedNamespaces + h.skippedNamespaces
  skippedClasses := d.skippedClasses + h.skippedClasses
  skippedMembers := d.skippedMembers + h.skippedMembers

end Discovery

namespace Program

def harvest (p : Program) (d : Document) : Harvest :=
  Member.harvestAll p.rules d.oracle none d.members

/-- Add all that a document declares. -/
def discover (p : Program) (d : Document) : Except ProgramError Program :=
  p.addAll (p.harvest d).classes

end Program

end Recast
