/-! # White space

The Unicode `White_Space` property and trimming by it. The set is fixed by the standard: five
control characters, the space, and eighteen characters beyond ASCII.
-/
namespace Recast.Text

/-- Membership in the Unicode `White_Space` set. -/
def isBlank (c : Char) : Bool :=
  let n := c.toNat
  (9 ≤ n && n ≤ 13) || n == 0x20 || n == 0x85 || n == 0xA0 || n == 0x1680 ||
    (0x2000 ≤ n && n ≤ 0x200A) || n == 0x2028 || n == 0x2029 || n == 0x202F || n == 0x205F ||
    n == 0x3000

def dropEndWhile (p : Char → Bool) (cs : List Char) : List Char :=
  (cs.reverse.dropWhile p).reverse

/-- A text without the white space at its two ends. -/
def trim (s : String) : String :=
  String.ofList (dropEndWhile isBlank (s.toList.dropWhile isBlank))

def trimEnd (p : Char → Bool) (s : String) : String :=
  String.ofList (dropEndWhile p s.toList)

end Recast.Text
