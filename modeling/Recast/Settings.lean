import Recast.Source.Region
import Recast.Toml.Reader
import Recast.Type.Mapping

/-! # Settings

What a user may change: rules, defined symbols, spellings of types and known classes. Settings come
in layers, of which the later ones win.
-/
namespace Recast

open Json (Record)

structure Settings where
  rules : Rules := {}
  symbols : List String := []
  types : TypeTable := .empty
  knownClasses : List KnownClass := []

namespace Settings

instance : Inhabited Settings := ⟨{}⟩

/-- Both layers; where they disagree the second one wins. -/
def merge (s t : Settings) : Settings where
  rules := s.rules.merge t.rules
  symbols := Rules.union s.symbols t.symbols
  types := s.types.extend t.types
  knownClasses := ((⟨s.knownClasses⟩ : KnownClasses).registerAll t.knownClasses).entries

/-- The types of a target with these settings on top. -/
def typeTable (s : Settings) (target : TypeTable) : TypeTable := target.extend s.types

def known (s : Settings) (target : KnownClasses) : KnownClasses :=
  target.registerAll s.knownClasses

def defines (s : Settings) (target : List String) : Defines :=
  (({} : Defines).defineAll target).defineAll s.symbols

def symbolsOfJson? (j : Json) : Option (List String) := do
  let r ← Record.ofJson? ["preprocessor_symbols"] j
  r.list "preprocessor_symbols" .string

def ofJson? (j : Json) : Option Settings := do
  let r ← Record.ofJson? ["rules", "parse", "types", "known_classes"] j
  return ⟨← r.orElse "rules" Rules.ofJson? {}, ← r.orElse "parse" symbolsOfJson? [],
    ← r.orElse "types" SortedMap.ofJson? .empty, ← r.list "known_classes" KnownClass.ofJson?⟩

def toJson (s : Settings) : Json :=
  .object [("rules", s.rules.toJson), ("preprocessor_symbols", .strings s.symbols),
    ("types", s.types.toJson), ("known_classes", .array (s.knownClasses.map KnownClass.toJson))]

def ofToml? (text : String) : Option Settings := (Toml.parse text).bind ofJson?

end Settings

end Recast
