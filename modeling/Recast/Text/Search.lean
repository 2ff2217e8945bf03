/-! # Occurrences

Searching a text for another one, and cutting a text at a separator character.
-/
namespace Recast.Text

/-- `needle` stands somewhere in `hay` as a run of consecutive characters. -/
def occursIn (needle : List Char) : List Char → Bool
  | [] => needle.isEmpty
  | c :: hay => needle.isPrefixOf (c :: hay) || occursIn needle hay

def contains (s needle : String) : Bool := occursIn needle.toList s.toList

theorem occursIn_iff {needle hay : List Char} : occursIn needle hay = true ↔ needle <:+: hay := by
  induction hay with
  | nil => rw [occursIn, List.isEmpty_iff, List.infix_nil]
  | cons c hay ih =>
    rw [occursIn, Bool.or_eq_true, ih, List.isPrefixOf_iff_prefix, List.infix_cons_iff]

theorem contains_iff {s needle : String} :
    contains s needle = true ↔ needle.toList <:+: s.toList := occursIn_iff

def startsWith (s head : String) : Bool := head.toList.isPrefixOf s.toList

def endsWith (s tail : String) : Bool := tail.toList.isSuffixOf s.toList

/-- The parts of a character list between the separators; a list without one is its only part. -/
def splitChars (sep : Char) : List Char → List (List Char)
  | [] => [[]]
  | c :: cs =>
    if c == sep then [] :: splitChars sep cs
    else
      match splitChars sep cs with
      | part :: parts => (c :: part) :: parts
      | [] => [[c]]

def split (sep : Char) (s : String) : List String :=
  (splitChars sep s.toList).map String.ofList

/-- A text written `n` times in a row. -/
def times (n : Nat) (s : String) : String :=
  match n with
  | 0 => ""
  | n + 1 => s ++ times n s

end Recast.Text
