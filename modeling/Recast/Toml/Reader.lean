import Recast.Toml.Scalar
import Recast.Toml.Table

/-! # Reading TOML text

A document is a list of lines, each a header, a key with its value, or nothing. The result is an
object of the values by key.
-/
namespace Recast.Toml

mutual

def value : Nat → Nat → Chars → Option (Json × Chars)
  | 0, _, _ => none
  | fuel + 1, room, cs =>
    match cs with
    | '"' :: _ => (string cs).map fun (s, rest) => (.string s, rest)
    | '\'' :: _ => (string cs).map fun (s, rest) => (.string s, rest)
    | '[' :: cs =>
      match room with
      | 0 => none
      | room + 1 => (items fuel room cs).map fun (js, rest) => (.array js, rest)
    | '\x7b' :: cs =>
      match room, skipBlanks cs with
      | 0, _ => none
      | _ + 1, '\x7d' :: rest => some (.object [], rest)
      | room + 1, cs => (pairs fuel room .root cs).map fun (t, rest) => (t.toJson, rest)
    | cs =>
      let (w, rest) := word cs
      (wordValue? w).map (·, rest)

/-- The items of an array up to its end; a comma may follow the last one. -/
def items : Nat → Nat → Chars → Option (List Json × Chars)
  | 0, _, _ => none
  | fuel + 1, room, cs => do
    match ← gap false cs with
    | ']' :: rest => return ([], rest)
    | cs =>
      let (j, cs) ← value fuel room cs
      match ← gap false cs with
      | ']' :: rest => return ([j], rest)
      | ',' :: cs =>
        let (js, rest) ← items fuel room cs
        return (j :: js, rest)
      | _ => none

def pairs : Nat → Nat → Table → Chars → Option (Table × Chars)
  | 0, _, _, _ => none
  | fuel + 1, room, t, cs => do
    let (path, cs) ← key nesting cs
    match cs with
    | '=' :: cs =>
      let (j, cs) ← value fuel room (skipBlanks cs)
      let t ← t.set path j
      match skipBlanks cs with
      | '\x7d' :: rest => return (t, rest)
      | ',' :: cs => pairs fuel room t cs
      | _ => none
    | _ => none

end

def header (close : Chars) (cs : Chars) : Option (List String × Chars) := do
  let (path, cs) ← key nesting cs
  if close.isPrefixOf cs then return (path, ← lineEnd (cs.drop close.length)) else none

/-- The lines of a document, added to a table; `current` is the path of the last header. Each line
takes at least one character. -/
def lines : Nat → List String → Table → Chars → Option Table
  | 0, _, _, _ => none
  | n + 1, current, t, cs =>
    match skipBlanks cs with
    | [] => some t
    | '#' :: cs => do lines n current t (← lineEnd ('#' :: cs))
    | '[' :: '[' :: cs => do
      let (path, rest) ← header [']', ']'] cs
      lines n path (← t.appendTable path) rest
    | '[' :: cs => do
      let (path, rest) ← header [']'] cs
      lines n path (← t.openTable path) rest
    | cs =>
      match newline? cs with
      | some rest => lines n current t rest
      | none => do
        let (path, cs) ← key nesting cs
        match cs with
        | '=' :: cs =>
          let (j, cs) ← value (2 * cs.length + 2) nesting (skipBlanks cs)
          lines n current (← t.setUnder current path j) (← lineEnd cs)
        | _ => none

/-- The object that a TOML text is. A mark of the byte order at the start does not count. -/
def parse (text : String) : Option Json :=
  let cs := match text.toList with
    | '\ufeff' :: cs => cs
    | cs => cs
  (lines (cs.length + 1) [] .root cs).map Table.toJson

end Recast.Toml
