import Recast.Command.Files

/-! # Trees of files

A tree lists its directories and files by the names that lead to them. Reading and writing it gives
the operations that the commands need, so that a command runs as a function from tree to tree.
-/
namespace Recast

inductive FileEntry where
  | dir
  | file (bytes : ByteArray)

structure FileTree where
  entries : List (List String × FileEntry) := []

namespace FileTree

/-- The entry at a place; the root is a directory. -/
def entry? (t : FileTree) (place : List String) : Option FileEntry :=
  if place.isEmpty then some .dir else t.entries.lookup place

/-- Put an entry at a place, instead of the one that is there. -/
def put (t : FileTree) (place : List String) (entry : FileEntry) : FileTree :=
  ⟨t.entries.filter (fun e => e.1 != place) ++ [(place, entry)]⟩

/-- Put an entry at a place and directories on the way to it. -/
def plant (t : FileTree) (place : List String) (entry : FileEntry) : FileTree :=
  let ways := (List.range place.length).drop 1 |>.map place.take
  (ways.foldl (fun t way => if (t.entry? way).isSome then t else t.put way .dir) t).put place entry

/-- Names have at most this many bytes. -/
def nameLimit : Nat := 255

/-- Paths have fewer bytes than this. -/
def pathLimit : Nat := 4096

def enter (t : FileTree) (place : List String) (part : String) : Except FileError (List String) :=
  match t.entry? place with
  | none => .error .notFound
  | some (.file _) => .error .notDirectory
  | some .dir =>
    if part == "" || part == "." then .ok place
    else if part == ".." then .ok place.dropLast
    else if nameLimit < part.utf8ByteSize then .error .nameTooLong
    else .ok (place ++ [part])

def checkPath (path : String) : Except FileError Unit :=
  if path.toList.contains '\x00' then .error .badName
  else if path == "" then .error .notFound
  else if pathLimit ≤ path.utf8ByteSize then .error .nameTooLong
  else .ok ()

/-- The place that a path leads to from a working directory; there may be nothing at it. -/
def resolve (t : FileTree) (cwd : List String) (path : String) :
    Except FileError (List String) := do
  checkPath path
  (Path.pieces path).foldlM t.enter (if Path.isAbsolute path then [] else cwd)

def find (t : FileTree) (cwd : List String) (path : String) : Except FileError FileEntry := do
  match t.entry? (← t.resolve cwd path) with
  | some entry => .ok entry
  | none => .error .notFound

def isDir (t : FileTree) (cwd : List String) (path : String) : Bool :=
  match t.find cwd path with
  | .ok .dir => true
  | _ => false

def isFile (t : FileTree) (cwd : List String) (path : String) : Bool :=
  match t.find cwd path with
  | .ok (.file _) => true
  | _ => false

def names (t : FileTree) (place : List String) : List String :=
  t.entries.filterMap fun (other, _) =>
    if other.dropLast == place then other.getLast? else none

def list (t : FileTree) (cwd : List String) (path : String) : Except FileError (List String) := do
  let place ← t.resolve cwd path
  match t.entry? place with
  | some .dir => .ok (t.names place)
  | some (.file _) => .error .notDirectory
  | none => .error .notFound

def read (t : FileTree) (cwd : List String) (path : String) : Except FileError String := do
  match ← t.find cwd path with
  | .dir => .error .isDirectory
  | .file bytes =>
    match String.fromUTF8? bytes with
    | some text => .ok text
    | none => .error .notText

/-- Slashes at the end of the path of a directory to make do not count. -/
def withoutSlashes (path : String) : String :=
  String.ofList (path.toList.reverse.dropWhile (· == '/')).reverse

def makeDir (t : FileTree) (cwd : List String) (path : String) : Except FileError FileTree := do
  checkPath path
  let parts := Path.pieces (withoutSlashes path)
  let place ← parts.dropLast.foldlM t.enter (if Path.isAbsolute path then [] else cwd)
  let target ← t.enter place (parts.getLast?.getD "")
  if (t.entry? target).isSome then .error .alreadyExists else .ok (t.put target .dir)

def write (t : FileTree) (cwd : List String) (path contents : String) :
    Except FileError FileTree := do
  let place ← t.resolve cwd path
  match t.entry? place with
  | some .dir => .error .isDirectory
  | _ =>
    match t.entry? place.dropLast with
    | some .dir => .ok (t.put place (.file contents.toUTF8))
    | some (.file _) => .error .notDirectory
    | none => .error .notFound

/-- The files below a place that are not in an earlier tree or have changed since. -/
def changes (t earlier : FileTree) (place : List String) : List (List String × ByteArray) :=
  t.entries.filterMap fun (names, entry) =>
    match entry, earlier.entry? names with
    | .dir, _ => none
    | .file new, some (.file old) =>
      if old == new || !place.isPrefixOf names then none
      else some (names.drop place.length, new)
    | .file new, _ => if place.isPrefixOf names then some (names.drop place.length, new) else none

def update (change : FileTree → Except FileError FileTree) :
    StateM FileTree (Except FileError Unit) := fun t =>
  match change t with
  | .ok t => (.ok (), t)
  | .error e => (.error e, t)

/-- File access that works on a tree, from a working directory. -/
def files (cwd : List String) : Files (StateM FileTree) where
  isDir path := return (← get).isDir cwd path
  isFile path := return (← get).isFile cwd path
  list path := return (← get).list cwd path
  read path := return (← get).read cwd path
  makeDir path := update fun t => t.makeDir cwd path
  write path contents := update fun t => t.write cwd path contents

end FileTree

end Recast
