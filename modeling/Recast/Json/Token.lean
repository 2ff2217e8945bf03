import Recast.Json.Basic

/-! # JSON tokens

The lexical level of JSON text. A string literal with an unpaired surrogate escape has a form but
no value, so a string token carries its text only when it has one.
-/
namespace Recast.Json

inductive Token where
  | openBrace
  | closeBrace
  | openBracket
  | closeBracket
  | colon
  | comma
  | null
  | bool (b : Bool)
  | number (text : List Char)
  | string (value : Option String)

/-- A piece of a string literal: a character, or the code unit of a `\u` escape. -/
inductive Piece where
  | char (c : Char)
  | unit (n : Nat)

def isSpace (c : Char) : Bool := c == ' ' || c == '\n' || c == '\r' || c == '\t'

def hexValue (c : Char) : Option Nat :=
  if '0' ≤ c && c ≤ '9' then some (c.toNat - '0'.toNat)
  else if 'a' ≤ c && c ≤ 'f' then some (c.toNat - 'a'.toNat + 10)
  else if 'A' ≤ c && c ≤ 'F' then some (c.toNat - 'A'.toNat + 10)
  else none

def hexUnit (a b c d : Char) : Option Nat := do
  return (((← hexValue a) * 16 + (← hexValue b)) * 16 + (← hexValue c)) * 16 + (← hexValue d)

def simpleEscape (c : Char) : Option Char :=
  match c with
  | '"' => some '"'
  | '\\' => some '\\'
  | '/' => some '/'
  | 'b' => some '\x08'
  | 'f' => some '\x0c'
  | 'n' => some '\n'
  | 'r' => some '\r'
  | 't' => some '\t'
  | _ => none

/-- The pieces of a string literal behind its opening quote, and the text behind its end. -/
def pieces : List Char → Option (List Piece × List Char)
  | [] => none
  | '"' :: rest => some ([], rest)
  | '\\' :: 'u' :: a :: b :: c :: d :: rest => do
    let n ← hexUnit a b c d
    let (ps, rest) ← pieces rest
    return (.unit n :: ps, rest)
  | '\\' :: e :: rest => do
    let c ← simpleEscape e
    let (ps, rest) ← pieces rest
    return (.char c :: ps, rest)
  | c :: rest =>
    if c.toNat < 0x20 then none
    else do
      let (ps, rest) ← pieces rest
      return (.char c :: ps, rest)

def isHigh (n : Nat) : Bool := 0xD800 ≤ n && n < 0xDC00

def isLow (n : Nat) : Bool := 0xDC00 ≤ n && n < 0xE000

/-- Characters of a list of pieces, surrogates paired; none if one stays unpaired. -/
def assemble : List Piece → Option (List Char)
  | [] => some []
  | .char c :: ps => (assemble ps).map (c :: ·)
  | .unit n :: ps =>
    if isHigh n then
      match ps with
      | .unit m :: ps =>
        if isLow m then
          (assemble ps).map (Char.ofNat (0x10000 + (n - 0xD800) * 0x400 + (m - 0xDC00)) :: ·)
        else none
      | _ => none
    else if isLow n then none
    else (assemble ps).map (Char.ofNat n :: ·)

def isDigit (c : Char) : Bool := '0' ≤ c && c ≤ '9'

/-- Longest head of digits, which must not be empty. -/
def digits (cs : List Char) : Option (List Char × List Char) :=
  match cs.takeWhile isDigit with
  | [] => none
  | ds => some (ds, cs.dropWhile isDigit)

def integerPart (cs : List Char) : Option (List Char × List Char) :=
  match cs with
  | '0' :: rest => some (['0'], rest)
  | cs => digits cs

def fractionPart (cs : List Char) : Option (List Char × List Char) :=
  match cs with
  | '.' :: rest => (digits rest).map fun (ds, rest) => ('.' :: ds, rest)
  | cs => some ([], cs)

def exponentPart (cs : List Char) : Option (List Char × List Char) :=
  match cs with
  | c :: rest =>
    if c == 'e' || c == 'E' then
      match rest with
      | s :: more =>
        if s == '+' || s == '-' then (digits more).map fun (ds, rest) => (c :: s :: ds, rest)
        else (digits rest).map fun (ds, rest) => (c :: ds, rest)
      | [] => none
    else some ([], cs)
  | [] => some ([], [])

/-- A number literal and the text behind it. -/
def numeral (cs : List Char) : Option (List Char × List Char) := do
  let (sign, cs) := match cs with
    | '-' :: rest => (['-'], rest)
    | cs => ([], cs)
  let (whole, cs) ← integerPart cs
  let (fraction, cs) ← fractionPart cs
  let (exponent, cs) ← exponentPart cs
  return (sign ++ whole ++ fraction ++ exponent, cs)

/-- The token at the head of a text that starts with no space. -/
def token (c : Char) (rest : List Char) : Option (Token × List Char) :=
  match c with
  | '\x7b' => some (.openBrace, rest)
  | '\x7d' => some (.closeBrace, rest)
  | '[' => some (.openBracket, rest)
  | ']' => some (.closeBracket, rest)
  | ':' => some (.colon, rest)
  | ',' => some (.comma, rest)
  | '"' => (pieces rest).map fun (ps, rest) => (.string ((assemble ps).map String.ofList), rest)
  | 'n' => if rest.take 3 == ['u', 'l', 'l'] then some (.null, rest.drop 3) else none
  | 't' => if rest.take 3 == ['r', 'u', 'e'] then some (.bool true, rest.drop 3) else none
  | 'f' => if rest.take 4 == ['a', 'l', 's', 'e'] then some (.bool false, rest.drop 4) else none
  | c => (numeral (c :: rest)).map fun (text, rest) => (.number text, rest)

/-- Tokens of a text, at most `fuel` of them. -/
def tokensUpTo : Nat → List Char → Option (List Token)
  | 0, cs => if cs.all isSpace then some [] else none
  | fuel + 1, cs =>
    match cs.dropWhile isSpace with
    | [] => some []
    | c :: rest => do
      let (t, rest) ← token c rest
      return t :: (← tokensUpTo fuel rest)

/-- All tokens of a text; every token takes at least one character. -/
def tokens (text : String) : Option (List Token) :=
  let cs := text.toList
  tokensUpTo cs.length cs

end Recast.Json
