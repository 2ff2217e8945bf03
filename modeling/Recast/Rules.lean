import Recast.Sorted
import Recast.Text.Search
import Recast.Json.Decode

/-! # Rules

What is left out of a program, by patterns that occur in names, and where static members of a class
are redirected to.
-/
namespace Recast

open Json (Decoder Record)

structure Rules where
  ignoredNamespaces : List String := []
  ignoredClasses : List String := []
  /-- The class that access to the static members of a class is redirected to. -/
  staticRedirects : SortedMap String String := .empty

namespace Rules

instance : Inhabited Rules := ⟨{}⟩

/-- Some pattern, not an empty one, occurs in the name. -/
def matchesAny (patterns : List String) (name : String) : Bool :=
  patterns.any fun pattern => pattern != "" && Text.contains name pattern

def ignoresNamespace (r : Rules) (name : String) : Bool := matchesAny r.ignoredNamespaces name

def ignoresClass (r : Rules) (name : String) : Bool := matchesAny r.ignoredClasses name

/-- Append the elements that are missing, in order. -/
def union (xs ys : List String) : List String :=
  ys.foldl (fun xs y => if xs.contains y then xs else xs ++ [y]) xs

/-- Both sets of rules; on a redirect of the same class the second one wins. -/
def merge (r s : Rules) : Rules where
  ignoredNamespaces := union r.ignoredNamespaces s.ignoredNamespaces
  ignoredClasses := union r.ignoredClasses s.ignoredClasses
  staticRedirects := r.staticRedirects.extend s.staticRedirects

end Rules

/-- A sorted table of texts by text. -/
def SortedMap.toJson (table : SortedMap String String) : Json :=
  .object (table.toList.map fun (k, v) => (k, .string v))

/-- A table of texts; of a repeated key the last entry counts. -/
def SortedMap.ofJson? (j : Json) : Option (SortedMap String String) :=
  (Decoder.entries some Decoder.string j).map SortedMap.ofList

namespace Rules

def toJson (r : Rules) : Json :=
  .object [("ignored_namespaces", .strings r.ignoredNamespaces),
    ("ignored_classes", .strings r.ignoredClasses),
    ("static_redirects", r.staticRedirects.toJson)]

def ofJson? (j : Json) : Option Rules := do
  let r ← Record.ofJson? ["ignored_namespaces", "ignored_classes", "static_redirects"] j
  return ⟨← r.list "ignored_namespaces" .string, ← r.list "ignored_classes" .string,
    ← r.orElse "static_redirects" SortedMap.ofJson? .empty⟩

end Rules

end Recast
