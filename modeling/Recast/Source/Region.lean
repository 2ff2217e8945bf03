import Recast.Text.Quoted
import Recast.Source.Document

/-! # Conditional regions

A set of defined symbols decides for every region which of its two branches is kept. Reading a
document settles all regions that can be reached through kept branches, namespaces and types.
-/
namespace Recast

/-- The defined symbols: trimmed, none of them empty. -/
structure Defines where
  symbols : SortedSet String := SortedMap.empty

namespace Defines

instance : Inhabited Defines := ⟨{}⟩

def toList (d : Defines) : List String := SortedSet.toList d.symbols

def isDefined (d : Defines) (symbol : String) : Bool :=
  SortedSet.contains d.symbols (Text.trim symbol)

/-- Define a symbol; white space around it does not count and an empty one is ignored. -/
def define (d : Defines) (symbol : String) : Defines :=
  let symbol := Text.trim symbol
  if symbol == "" then d else ⟨SortedSet.add d.symbols symbol⟩

/-- Defining the symbol adds it. -/
def isNew (d : Defines) (symbol : String) : Bool :=
  Text.trim symbol != "" && !d.isDefined symbol

def defineAll (d : Defines) (symbols : List String) : Defines := symbols.foldl define d

/-- The condition `SYMBOL` or `!SYMBOL`. -/
def holds (d : Defines) (condition : String) : Bool :=
  match (Text.trim condition).toList with
  | '!' :: negated => !d.isDefined (String.ofList negated)
  | _ => d.isDefined condition

end Defines

inductive ReadError where
  /-- The text is not a document. -/
  | invalid
  /-- A region without a symbol. -/
  | emptySymbol (symbol : String)
  deriving DecidableEq, Repr

namespace ReadError

def message : ReadError → String
  | .invalid => "invalid syntax document"
  | .emptySymbol symbol => "expected region symbol, got " ++ Text.quoted symbol

end ReadError

namespace Member

/-- The symbol of a region names nothing. -/
def namesNothing (symbol : String) : Bool :=
  ((Text.trim symbol).toList.dropWhile (· == '!')).isEmpty

mutual

/-- What stands in place of a member once its regions are settled. -/
def settle (defines : Defines) : Member → Except ReadError (List Member)
  | .region symbol thenMembers otherwise =>
    if namesNothing symbol then .error (.emptySymbol symbol)
    else if defines.holds symbol then settleAll defines thenMembers
    else settleAll defines otherwise
  | .namespaceDecl name members => do
    return [.namespaceDecl name (← settleAll defines members)]
  | .typeDecl head members => do
    return [.typeDecl head (← settleAll defines members)]
  | member => .ok [member]

def settleAll (defines : Defines) : List Member → Except ReadError (List Member)
  | [] => .ok []
  | m :: ms => do return (← settle defines m) ++ (← settleAll defines ms)

end

end Member

namespace Document

/-- Read a document and settle its regions. -/
def read (defines : Defines) (text : String) : Except ReadError Document :=
  match ofText? text with
  | none => .error .invalid
  | some document => do
    return { document with members := ← Member.settleAll defines document.members }

end Document

/-- A format that documents are read from. -/
structure Reader where
  language : String
  extensions : List String
  read : Defines → String → Except ReadError Document

namespace Reader

def json : Reader where
  language := "json"
  extensions := ["json"]
  read := Document.read

def all : List Reader := [json]

def forLanguage? (language : String) : Option Reader :=
  all.find? (fun r => r.language == language)

def forExtension? (extension : String) : Option Reader :=
  all.find? (fun r => r.extensions.contains extension)

end Reader

end Recast
