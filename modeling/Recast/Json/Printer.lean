import Recast.Json.Basic

/-! # Printing JSON

The compact text of a value: no spaces, members in their order, only quotes, backslashes and
control characters escaped.
-/
namespace Recast.Json

def hexChar (n : Nat) : Char := Nat.digitChar n

/-- The written form of one character of a string literal. -/
def escapeChar (c : Char) : List Char :=
  if c == '"' then ['\\', '"']
  else if c == '\\' then ['\\', '\\']
  else if c == '\x08' then ['\\', 'b']
  else if c == '\t' then ['\\', 't']
  else if c == '\n' then ['\\', 'n']
  else if c == '\x0c' then ['\\', 'f']
  else if c == '\r' then ['\\', 'r']
  else if c.toNat < 0x20 then ['\\', 'u', '0', '0', hexChar (c.toNat / 16), hexChar (c.toNat % 16)]
  else [c]

def stringLiteral (s : String) : String :=
  String.ofList ('"' :: s.toList.flatMap escapeChar ++ ['"'])

mutual

def print : Json → String
  | .null => "null"
  | .bool b => if b then "true" else "false"
  | .natural n => toString n
  | .decimal text => text
  | .string s => stringLiteral s
  | .array items => "[" ++ String.intercalate "," (printItems items) ++ "]"
  | .object fields => "\x7b" ++ String.intercalate "," (printFields fields) ++ "\x7d"

def printItems : List Json → List String
  | [] => []
  | j :: js => print j :: printItems js

def printFields : List (String × Json) → List String
  | [] => []
  | (key, j) :: fs => (stringLiteral key ++ ":" ++ print j) :: printFields fs

end

end Recast.Json
