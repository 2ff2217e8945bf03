import Recast.Json.Token

/-! # Reading JSON text

Reading is strict: the text is one value, arrays and objects are nested at most `depthLimit` deep,
strings have well-paired surrogates and numbers are finite. An `Outline` names the parts of a text
that are wanted; the other parts only have to be well formed.
-/
namespace Recast.Json

/-- Arrays and objects may be nested this deep in the wanted parts of a text. -/
def depthLimit : Nat := 127

inductive Outline where
  | whole
  | skipped
  /-- An object of which only the named members are wanted. -/
  | record (fields : List (String × Outline))
  /-- An object of which every member is wanted. -/
  | table (entry : Outline)

namespace Outline

def member (outline : Outline) (key : String) : Outline :=
  match outline with
  | .whole => .whole
  | .skipped => .skipped
  | .record fields => (fields.lookup key).getD .skipped
  | .table entry => entry

def item : Outline → Outline
  | .skipped => .skipped
  | _ => .whole

def isSkipped : Outline → Bool
  | .skipped => true
  | _ => false

end Outline

def digitsValue (ds : List Char) : Nat :=
  ds.foldl (fun n c => n * 10 + (c.toNat - '0'.toNat)) 0

/-- The number `significand * 10 ^ exponent` is below the largest finite double and its
rounding range. -/
def isFinite (significand : Nat) (exponent : Int) : Bool :=
  if significand == 0 then true
  else
    let size := Int.ofNat (Nat.toDigits 10 significand).length + exponent
    if size < 309 then true
    else if 309 < size then false
    else
      let limit := Nat.pow 2 1024 - Nat.pow 2 970
      match exponent with
      | .ofNat k => significand * Nat.pow 10 k < limit
      | .negSucc k => significand < limit * Nat.pow 10 (k + 1)

/-- Natural numbers below this limit are kept exactly. -/
def naturalLimit : Nat := 18446744073709551616

def numberValue (text : List Char) : Option Json :=
  if text.all isDigit && digitsValue text < naturalLimit then some (.natural (digitsValue text))
  else
    let body := text.filter (· != '-')
    let mantissa := (text.takeWhile (fun c => c != 'e' && c != 'E')).filter (· != '-')
    let exponentText := (text.dropWhile (fun c => c != 'e' && c != 'E')).drop 1
    let exponentSize := Int.ofNat (digitsValue (exponentText.filter isDigit))
    let exponent := if exponentText.head? == some '-' then -exponentSize else exponentSize
    let places := (mantissa.dropWhile (· != '.')).drop 1
    if body.isEmpty then none
    else if isFinite (digitsValue (mantissa.filter isDigit)) (exponent - Int.ofNat places.length) then
      some (.decimal (String.ofList text))
    else none

def scalar (outline : Outline) (t : Token) : Option Json :=
  match t with
  | .null => some .null
  | .bool b => some (.bool b)
  | .number text =>
    if outline.isSkipped then some .null else numberValue text
  | .string value =>
    if outline.isSkipped then some .null else value.map .string
  | _ => none

/-- Room left for a container one level down; none if there is none. -/
def enter (outline : Outline) (room : Nat) : Option Nat :=
  if outline.isSkipped then some room
  else
    match room with
    | 0 => none
    | room + 1 => some room

def memberKey (outline : Outline) (key : Option String) : Option String :=
  if outline.isSkipped then some (key.getD "") else key

mutual

def value : Nat → Outline → Nat → List Token → Option (Json × List Token)
  | 0, _, _, _ => none
  | fuel + 1, outline, room, ts =>
    match ts with
    | [] => none
    | .openBracket :: .closeBracket :: rest => (enter outline room).map fun _ => (.array [], rest)
    | .openBracket :: rest => do
      let room ← enter outline room
      let (items, rest) ← items fuel outline room rest
      return (.array items, rest)
    | .openBrace :: .closeBrace :: rest => (enter outline room).map fun _ => (.object [], rest)
    | .openBrace :: rest => do
      let room ← enter outline room
      let (fields, rest) ← fields fuel outline room rest
      return (.object fields, rest)
    | t :: rest => (scalar outline t).map (·, rest)

def items : Nat → Outline → Nat → List Token → Option (List Json × List Token)
  | 0, _, _, _ => none
  | fuel + 1, outline, room, ts => do
    let (item, rest) ← value fuel outline.item room ts
    match rest with
    | .closeBracket :: rest => return ([item], rest)
    | .comma :: rest =>
      let (more, rest) ← items fuel outline room rest
      return (item :: more, rest)
    | _ => none

def fields : Nat → Outline → Nat → List Token → Option (List (String × Json) × List Token)
  | 0, _, _, _ => none
  | fuel + 1, outline, room, ts =>
    match ts with
    | .string key :: .colon :: rest => do
      let key ← memberKey outline key
      let (value, rest) ← value fuel (outline.member key) room rest
      match rest with
      | .closeBrace :: rest => return ([(key, value)], rest)
      | .comma :: rest =>
        let (more, rest) ← fields fuel outline room rest
        return ((key, value) :: more, rest)
      | _ => none
    | _ => none

end

/-- The value that a text is, of which the parts named by `outline` are wanted. Unwanted parts of
the value mean nothing. Each call of the reader takes a token or hands one on, so twice the number
of tokens is fuel enough. -/
def read (outline : Outline) (text : String) : Option Json := do
  let ts ← tokens text
  let (j, rest) ← value (2 * ts.length + 2) outline depthLimit ts
  match rest with
  | [] => return j
  | _ => none

def parse (text : String) : Option Json := read .whole text

end Recast.Json
