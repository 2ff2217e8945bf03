import Recast.Lower.Routine
import Recast.Program.Discovery
import Recast.Program.Naming

/-! # Reports on the work as JSON

What the steps did to a program, where a lowering stands, and what came of it.
-/
namespace Recast

def Discovery.toJson (d : Discovery) : Json :=
  .object [("documents", .natural d.documents), ("classes", .natural d.classes),
    ("skipped_namespaces", .natural d.skippedNamespaces),
    ("skipped_classes", .natural d.skippedClasses),
    ("skipped_members", .natural d.skippedMembers)]

def Program.Resolution.toJson (r : Program.Resolution) : Json :=
  .object [("classes", .natural r.classes), ("renamed", .natural r.renamed)]

def ClassRef.toJson : ClassRef → Json
  | .program id => .object [("program", .natural id)]
  | .external name => .object [("external", .string name), ("id", .null)]

/-- A member by its class and its position there. -/
def memberToJson (place : Nat × Nat) : Json := .array [.natural place.1, .natural place.2]

def Frame.toJson : Frame → Json
  | .ofClass c => c.toJson
  | .ofRoutine owner index => .object [("function", memberToJson (owner, index))]
  | .ofVariable owner index => .object [("variable", memberToJson (owner, index))]

def Scope.toJson (s : Scope) : Json :=
  .object [("depth", .natural s.depth), ("frames", .array (s.frames.map Frame.toJson)),
    ("current_class", .ofOption .natural s.currentClass?),
    ("current_function", .ofOption memberToJson s.currentRoutine?),
    ("current_variable", .ofOption memberToJson s.currentVariable?),
    ("member_owner", .ofOption .natural s.memberOwner?),
    ("receiver", .ofOption ClassRef.toJson s.receiver?)]

def LoweredBody.toJson (b : LoweredBody) : Json :=
  .object [("lines", .strings b.lines), ("imports", .strings (SortedSet.toList b.imports)),
    ("referenced", .strings b.referenced)]

end Recast
