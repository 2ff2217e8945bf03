/-! # Paths

A path is a text whose parts stand between slashes. Empty parts and a `.` behind the first part say
nothing about where a path leads.
-/
namespace Recast.Path

def splitParts : List Char → List (List Char)
  | [] => [[]]
  | c :: cs =>
    match splitParts cs with
    | part :: parts => if c == '/' then [] :: part :: parts else (c :: part) :: parts
    | [] => [[c]]

/-- What stands between the slashes of a path, empty texts included. -/
def pieces (path : String) : List String := (splitParts path.toList).map String.ofList

def isAbsolute (path : String) : Bool := path.toList.head? == some '/'

def parts (path : String) : List String :=
  match pieces path with
  | "." :: rest => "." :: rest.filter (fun part => part != "" && part != ".")
  | all => all.filter fun part => part != "" && part != "."

/-- The path of a name inside a directory; an absolute name stands for itself. -/
def join (dir name : String) : String :=
  if isAbsolute name || dir == "" then name
  else if dir.toList.getLast? == some '/' then dir ++ name
  else dir ++ "/" ++ name

def joinAll (dir : String) (names : List String) : String := names.foldl join dir

def fileName? (path : String) : Option String :=
  match (parts path).getLast? with
  | some name => if name == "." || name == ".." then none else some name
  | none => none

/-- What stands behind the last dot of the file name. A dot at the start of a name does not
count. -/
def extension? (path : String) : Option String := do
  let name ← fileName? path
  let reversed := name.toList.reverse
  let before := (reversed.dropWhile (· != '.')).drop 1
  if before.isEmpty then none else some (String.ofList (reversed.takeWhile (· != '.')).reverse)

def upTo (path : String) (n : Nat) : String :=
  (if isAbsolute path then "/" else "") ++ "/".intercalate ((parts path).take n)

/-- The directories above a path that have a name, the nearest one first. -/
def above (path : String) : List String :=
  (List.range (parts path).length).reverse.filterMap fun n =>
    if n == 0 then (if isAbsolute path then some "/" else none) else some (upTo path n)

end Recast.Path
