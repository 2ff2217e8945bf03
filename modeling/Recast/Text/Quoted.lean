import Recast.Text.Blank

/-! # Quoted text

A text between double quotes, as it stands in messages. Quotes and backslashes are escaped, tab,
line feed and carriage return have their own escapes, and every other control character or white
space beyond the plain space is written by its code point.
-/
namespace Recast.Text

def hexDigits (n : Nat) : List Char := Nat.toDigits 16 n

/-- The written form of one character inside quotes. -/
def quoteChar (c : Char) : List Char :=
  if c == '"' then ['\\', '"']
  else if c == '\\' then ['\\', '\\']
  else if c == '\t' then ['\\', 't']
  else if c == '\n' then ['\\', 'n']
  else if c == '\r' then ['\\', 'r']
  else if c.toNat == 0 then ['\\', '0']
  else if c.toNat < 0x20 || c.toNat == 0x7f || (isBlank c && c != ' ') then
    ['\\', 'u', '\x7b'] ++ hexDigits c.toNat ++ ['\x7d']
  else [c]

def quoted (s : String) : String :=
  String.ofList ('"' :: s.toList.flatMap quoteChar ++ ['"'])

end Recast.Text
