import Recast.Json.Reader

/-! # TOML: strings, numbers and dates

The parts of TOML text that hold no other values. A reader takes the head of a text and gives back
what is left of it.
-/
namespace Recast.Toml

open Json (isDigit hexValue)

abbrev Chars := List Char

def isBlank (c : Char) : Bool := c == ' ' || c == '\t'

def skipBlanks (cs : Chars) : Chars := cs.dropWhile isBlank

/-- A character that may stand in a comment or, but for delimiters, in a string on one line. -/
def isPlain (c : Char) : Bool := c == '\t' || (0x20 ≤ c.toNat && c.toNat != 0x7f)

def newline? : Chars → Option Chars
  | '\n' :: cs => some cs
  | '\r' :: '\n' :: cs => some cs
  | _ => none

def lineEnd (cs : Chars) : Option Chars :=
  let cs := skipBlanks cs
  let cs := match cs with
    | '#' :: comment => comment.dropWhile isPlain
    | cs => cs
  if cs.isEmpty then some [] else newline? cs

/-- The text behind blanks, line ends and comments. -/
def gap (inComment : Bool) : Chars → Option Chars
  | [] => some []
  | '\n' :: cs => gap false cs
  | '\r' :: '\n' :: cs => gap false cs
  | c :: cs =>
    if inComment then (if isPlain c then gap true cs else none)
    else if isBlank c then gap false cs
    else if c == '#' then gap true cs
    else some (c :: cs)

def scalar? (n : Nat) : Option Char :=
  if n < 0xD800 || (0xDFFF < n && n < 0x110000) then some (Char.ofNat n) else none

def hexNumber? (ds : Chars) : Option Nat :=
  ds.foldlM (fun n d => (hexValue d).map (n * 16 + ·)) 0

def escape : Chars → Option (Char × Chars)
  | 'b' :: cs => some ('\x08', cs)
  | 't' :: cs => some ('\t', cs)
  | 'n' :: cs => some ('\n', cs)
  | 'f' :: cs => some ('\x0c', cs)
  | 'r' :: cs => some ('\r', cs)
  | '"' :: cs => some ('"', cs)
  | '\\' :: cs => some ('\\', cs)
  | 'u' :: cs => point 4 cs
  | 'U' :: cs => point 8 cs
  | _ => none
where
  point (width : Nat) (cs : Chars) : Option (Char × Chars) := do
    if cs.length < width then none
    let c ← scalar? (← hexNumber? (cs.take width))
    return (c, cs.drop width)

/-- A string in double quotes, from the text behind the opening quote. Every step takes a
character, so the length of the text is fuel enough. -/
def basic : Nat → Chars → Option (Chars × Chars)
  | 0, _ => none
  | _, [] => none
  | _, '"' :: cs => some ([], cs)
  | n + 1, '\\' :: cs => do
    let (c, cs) ← escape cs
    let (s, cs) ← basic n cs
    return (c :: s, cs)
  | n + 1, c :: cs =>
    if isPlain c then do
      let (s, cs) ← basic n cs
      return (c :: s, cs)
    else none

def literal : Chars → Option (Chars × Chars)
  | [] => none
  | '\'' :: cs => some ([], cs)
  | c :: cs =>
    if isPlain c then do
      let (s, cs) ← literal cs
      return (c :: s, cs)
    else none

/-- The end of a string over several lines: three quotes, before which up to two quotes belong to
the string. -/
def longEnd? (quote : Char) (cs : Chars) : Option (Chars × Chars) :=
  let n := (cs.takeWhile (· == quote)).length
  if n < 3 then none else some (List.replicate (min n 5 - 3) quote, cs.drop (min n 5))

/-- The text behind a backslash at the end of a line, and behind all white space after it. -/
def continued? (cs : Chars) : Option Chars := do
  let cs ← newline? (skipBlanks cs)
  return skip cs.length cs
where
  skip : Nat → Chars → Chars
    | 0, cs => cs
    | n + 1, cs =>
      match newline? (skipBlanks cs) with
      | some cs => skip n cs
      | none => skipBlanks cs

def longBasic : Nat → Chars → Option (Chars × Chars)
  | 0, _ => none
  | n + 1, cs =>
    match longEnd? '"' cs, newline? cs, cs with
    | some done, _, _ => some done
    | none, some cs, _ => do
      let (s, cs) ← longBasic n cs
      return ('\n' :: s, cs)
    | none, none, '\\' :: cs =>
      match continued? cs with
      | some cs => longBasic n cs
      | none => do
        let (c, cs) ← escape cs
        let (s, cs) ← longBasic n cs
        return (c :: s, cs)
    | none, none, c :: cs =>
      if isPlain c then do
        let (s, cs) ← longBasic n cs
        return (c :: s, cs)
      else none
    | none, none, [] => none

def longLiteral : Nat → Chars → Option (Chars × Chars)
  | 0, _ => none
  | n + 1, cs =>
    match longEnd? '\'' cs, newline? cs, cs with
    | some done, _, _ => some done
    | none, some cs, _ => do
      let (s, cs) ← longLiteral n cs
      return ('\n' :: s, cs)
    | none, none, c :: cs =>
      if isPlain c then do
        let (s, cs) ← longLiteral n cs
        return (c :: s, cs)
      else none
    | none, none, [] => none

/-- The line end right behind the opening of a long string does not count. -/
def firstLine (cs : Chars) : Chars := (newline? cs).getD cs

def string (cs : Chars) : Option (String × Chars) := do
  let (s, rest) ← match cs with
    | '"' :: '"' :: '"' :: cs => longBasic (cs.length + 1) (firstLine cs)
    | '\'' :: '\'' :: '\'' :: cs => longLiteral (cs.length + 1) (firstLine cs)
    | '"' :: cs => basic (cs.length + 1) cs
    | '\'' :: cs => literal cs
    | _ => none
  return (String.ofList s, rest)

def isBareKey (c : Char) : Bool :=
  isDigit c || ('a' ≤ c && c ≤ 'z') || ('A' ≤ c && c ≤ 'Z') || c == '_' || c == '-'

def keyPart (cs : Chars) : Option (String × Chars) :=
  match cs with
  | '"' :: cs => (basic (cs.length + 1) cs).map fun (s, rest) => (String.ofList s, rest)
  | '\'' :: cs => (literal cs).map fun (s, rest) => (String.ofList s, rest)
  | cs =>
    match cs.takeWhile isBareKey with
    | [] => none
    | s => some (String.ofList s, cs.dropWhile isBareKey)

def key : Nat → Chars → Option (List String × Chars)
  | 0, _ => none
  | n + 1, cs => do
    let (part, cs) ← keyPart (skipBlanks cs)
    match skipBlanks cs with
    | '.' :: cs => do
      let (parts, cs) ← key n cs
      return (part :: parts, cs)
    | cs => return ([part], cs)

/-- Keys have at most this many parts, and values are nested at most this deep. -/
def nesting : Nat := 79

def isDigits (p : Char → Bool) : Chars → Bool
  | [] => false
  | [c] => p c
  | c :: '_' :: cs => p c && isDigits p cs
  | c :: cs => p c && isDigits p cs

def isDecimal (cs : Chars) : Bool :=
  isDigits isDigit cs && (cs.length == 1 || cs.head? != some '0')

def unsigned (cs : Chars) : Chars :=
  match cs with
  | '+' :: cs => cs
  | '-' :: cs => cs
  | cs => cs

/-- The number that digits in a base write; underscores do not count. -/
def numberIn (base : Nat) (cs : Chars) : Nat :=
  cs.foldl (fun n c => if c == '_' then n else n * base + (hexValue c).getD 0) 0

/-- An integer between `-2 ^ 63` and `2 ^ 63 - 1`. -/
def integer? (cs : Chars) : Option Int := do
  let n ← match cs with
    | '0' :: 'x' :: ds => if isDigits (fun c => (hexValue c).isSome) ds then
        some (Int.ofNat (numberIn 16 ds)) else none
    | '0' :: 'o' :: ds => if isDigits (fun c => '0' ≤ c && c ≤ '7') ds then
        some (Int.ofNat (numberIn 8 ds)) else none
    | '0' :: 'b' :: ds => if isDigits (fun c => c == '0' || c == '1') ds then
        some (Int.ofNat (numberIn 2 ds)) else none
    | cs =>
      if isDecimal (unsigned cs) then
        let n := Int.ofNat (numberIn 10 (unsigned cs))
        some (if cs.head? == some '-' then -n else n)
      else none
  if -9223372036854775808 ≤ n && n ≤ 9223372036854775807 then some n else none

def isFloat (cs : Chars) : Bool :=
  let body := unsigned cs
  let mantissa := body.takeWhile fun c => c != 'e' && c != 'E'
  let exponent := (body.dropWhile fun c => c != 'e' && c != 'E').drop 1
  let whole := mantissa.takeWhile (· != '.')
  let fraction := (mantissa.dropWhile (· != '.')).drop 1
  let hasPoint := mantissa.contains '.'
  let hasExponent := mantissa.length < body.length
  body == ['i', 'n', 'f'] || body == ['n', 'a', 'n'] ||
    ((hasPoint || hasExponent) && isDecimal whole && (!hasPoint || isDigits isDigit fraction) &&
      (!hasExponent || isDigits isDigit (unsigned exponent)))

def fixed? (n : Nat) (cs : Chars) : Option (Nat × Chars) :=
  let ds := cs.take n
  if ds.length == n && ds.all isDigit then some (numberIn 10 ds, cs.drop n) else none

def daysIn (year month : Nat) : Nat :=
  if month == 2 then
    if year % 4 == 0 && (year % 100 != 0 || year % 400 == 0) then 29 else 28
  else if [4, 6, 9, 11].contains month then 30
  else 31

def date? (cs : Chars) : Option (Chars × Chars) := do
  let (year, rest) ← fixed? 4 cs
  let '-' :: rest := rest | none
  let (month, rest) ← fixed? 2 rest
  let '-' :: rest := rest | none
  let (day, rest) ← fixed? 2 rest
  if 1 ≤ month && month ≤ 12 && 1 ≤ day && day ≤ daysIn year month then some (cs.take 10, rest)
  else none

/-- The shortest form of a fraction of a second, cut at nine digits. -/
def fractionText (ds : Chars) : Chars :=
  match ((ds.take 9).reverse.dropWhile (· == '0')).reverse with
  | [] => []
  | ds => '.' :: ds

def time? (cs : Chars) : Option (Chars × Chars) := do
  let (hour, rest) ← fixed? 2 cs
  let ':' :: rest := rest | none
  let (minute, rest) ← fixed? 2 rest
  let ':' :: rest := rest | none
  let (second, rest) ← fixed? 2 rest
  if hour ≤ 23 && minute ≤ 59 && second ≤ 60 then
    match rest with
    | '.' :: ds =>
      if ds.head?.any isDigit then
        some (cs.take 8 ++ fractionText (ds.takeWhile isDigit), ds.dropWhile isDigit)
      else none
    | rest => some (cs.take 8, rest)
  else none

/-- A distance from universal time, to the end of the text. -/
def offset? (cs : Chars) : Option Chars :=
  match cs with
  | [] => some []
  | ['Z'] | ['z'] => some ['Z']
  | sign :: cs => do
    let (hour, rest) ← fixed? 2 cs
    let ':' :: rest := rest | none
    let (minute, rest) ← fixed? 2 rest
    if (sign == '+' || sign == '-') && rest.isEmpty && hour ≤ 23 && minute ≤ 59 then
      some ((if hour + minute == 0 then '+' else sign) :: cs)
    else none

def dateTime? (cs : Chars) : Option Chars :=
  match date? cs with
  | some (day, []) => some day
  | some (day, c :: cs) =>
    if c == 'T' || c == 't' || c == ' ' then do
      let (time, cs) ← time? cs
      return day ++ 'T' :: time ++ (← offset? cs)
    else none
  | none =>
    match time? cs with
    | some (time, []) => some time
    | _ => none

def isWordChar (c : Char) : Bool := isBareKey c || c == '+' || c == '.' || c == ':'

/-- The longest head of a text that may be one number, date or word. A date and a time may have a
space between them. -/
def word (cs : Chars) : Chars × Chars :=
  let w := cs.takeWhile isWordChar
  let rest := cs.dropWhile isWordChar
  match date? w, rest with
  | some (_, []), ' ' :: d :: more =>
    if isDigit d then
      (w ++ ' ' :: (d :: more).takeWhile isWordChar, (d :: more).dropWhile isWordChar)
    else (w, rest)
  | _, _ => (w, rest)

/-- The value of a number with a fraction or an exponent; none if it is too large for a double. -/
def float? (cs : Chars) : Option Json :=
  if !isFloat cs then none
  else if (unsigned cs).head?.any isDigit && cs.head? != some '-' then
    Json.numberValue ((unsigned cs).filter (· != '_'))
  else some (.decimal (String.ofList cs))

/-- A date is an object with this one member. -/
def dateKey : String := "$__toml_private_datetime"

def wordValue? (w : Chars) : Option Json :=
  if w == ['t', 'r', 'u', 'e'] then some (.bool true)
  else if w == ['f', 'a', 'l', 's', 'e'] then some (.bool false)
  else
    match integer? w, float? w with
    | some (.ofNat n), _ => some (.natural n)
    | some n, _ => some (.decimal (toString n))
    | none, some j => some j
    | none, none => (dateTime? w).map fun d => .object [(dateKey, .string (String.ofList d))]

end Recast.Toml
