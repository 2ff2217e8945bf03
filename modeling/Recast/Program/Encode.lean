import Recast.Program.Basic

/-! # Programs as JSON

Bodies, oracles and flags of the work in progress are left out, as are empty lists and absent values
where they carry nothing.
-/
namespace Recast

/-- A member that is there only if it has a value. -/
def Json.present {α : Type} (name : String) (f : α → Json) (value : Option α) :
    List (String × Json) :=
  match value with
  | some a => [(name, f a)]
  | none => []

/-- A list that is there only if it is not empty. -/
def Json.nonempty {α : Type} (name : String) (f : α → Json) (items : List α) :
    List (String × Json) :=
  if items.isEmpty then [] else [(name, .array (items.map f))]

open Json (ofWord present nonempty)

def Parameter.toJson (p : Parameter) : Json :=
  .object ([("name", .string p.name), ("ty", p.ty.toJson),
    ("modifiers", .string (ParameterFlag.display p.flags))] ++ present "default" .string p.default)

def LocalVariable.toJson (v : LocalVariable) : Json :=
  .object ([("name", .string v.name), ("occurrence", .natural v.occurrence)] ++
    present "ty" TypeDesc.toJson v.ty ++ [("reassigned", .bool v.reassigned)])

def Routine.toJson (f : Routine) : Json :=
  .object ([("name", .string f.name)] ++ present "remap" .string f.remap ++
    [("access", ofWord f.access), ("declaration", ofWord f.declaration),
      ("is_static", .bool f.isStatic), ("is_async", .bool f.isAsync),
      ("is_constructor", .bool f.isConstructor), ("is_override", .bool f.isOverride)] ++
    nonempty "generic_args" .string f.genericParams ++
    [("parameters", .array (f.parameters.map Parameter.toJson))] ++
    present "return_type" TypeDesc.toJson f.returnType ++
    nonempty "analyzed_returns" TypeDesc.toJson f.analyzedReturns ++
    nonempty "body_variables" LocalVariable.toJson f.locals)

def Variable.toJson (v : Variable) : Json :=
  .object ([("name", .string v.name)] ++ present "remap" .string v.remap ++
    present "remap_class" .string v.remapClass ++
    [("ty", v.ty.toJson), ("kind", ofWord v.kind), ("access", ofWord v.access),
      ("declaration", ofWord v.declaration), ("is_static", .bool v.isStatic),
      ("is_override", .bool v.isOverride), ("is_readonly", .bool v.isReadonly),
      ("has_get", .bool v.hasGet), ("has_set", .bool v.hasSet)] ++
    present "assignment" .string v.assignment)

def Class.toJson (c : Class) : Json :=
  .object ([("name", .string c.name)] ++ present "namespace" .string c.namespaceName ++
    [("declaration", ofWord c.declaration), ("is_static", .bool c.isStatic),
      ("extensions", .strings c.extensions)] ++
    nonempty "extension_display" .string c.extensionDisplay ++
    [("variables", .array (c.vars.map Variable.toJson)),
      ("functions", .array (c.routines.map Routine.toJson))] ++
    nonempty "generic_args" .string c.genericParams ++
    nonempty "enum_members" .string c.enumMembers ++
    nonempty "referenced_classes" .string c.referencedClasses)

def Program.toJson (p : Program) : Json :=
  .object [("classes", .array (p.classes.map Class.toJson)), ("rules", p.rules.toJson),
    ("type_map", p.typeTable.toJson)]

end Recast
