import Recast.Source.Document

/-! # Building trees

Short ways to write down trees without node ids, for programs that make documents themselves.
-/
namespace Recast

namespace SourceType

def ofName (name : String) : SourceType := .named name []

def arrayOf (element : SourceType) : SourceType := .array element 1

end SourceType

namespace Expr

def ofName (name : String) : Expr := .identifier 0 name

def number (text : String) : Expr := .literal 0 .numeric text

def text (text : String) : Expr := .literal 0 .string text

def boolean (value : Bool) : Expr :=
  if value then .literal 0 .boolTrue "true" else .literal 0 .boolFalse "false"

def self : Expr := .this 0

def memberOf (target : Expr) (name : String) : Expr := .memberAccess 0 target (ofName name)

def call (target : Expr) (args : List Argument) : Expr := .invocation 0 target args

def assign (target value : Expr) : Expr := .assignment 0 .assign target value

def operation (left : Expr) (op : BinaryOp) (right : Expr) : Expr := .binary 0 op left right

def create (ty : SourceType) (args : List Argument) : Expr := .objectCreation 0 ty args none

def declareOut (name : String) : Expr := .declaration 0 none name

def unknown (construct : String) : Expr := .other 0 construct

end Expr

namespace Declarator

def ofName (name : String) (init : Option Expr) : Declarator := ⟨0, name, init⟩

end Declarator

namespace Stmt

def ofExpr (expr : Expr) : Stmt := .expression 0 expr

def giveBack (value : Option Expr) : Stmt := .ret 0 value

def declareLocal (ty : Option SourceType) (name : String) (init : Option Expr) : Stmt :=
  .locals 0 ⟨ty, [.ofName name init]⟩

def ofList (statements : List Stmt) : Stmt := .block 0 statements

def branch (condition : Expr) (thenBranch : Stmt) (otherwise : Option Stmt) : Stmt :=
  .ifElse 0 condition thenBranch otherwise

def repeatWhile (condition : Expr) (body : Stmt) : Stmt := .whileLoop 0 condition body

def unknown (construct : String) : Stmt := .other 0 construct

end Stmt

namespace Member

/-- A class with the given bases and members. -/
def classNamed (name : String) (modifiers : List String) (bases : List SourceType)
    (members : List Member) : Member :=
  .typeDecl
    { keyword := .classKind, name, modifiers, bases := bases.map fun ty => { ty } } members

/-- A method; a body is given by its statements. -/
def methodNamed (name : String) (returns : SourceType) (modifiers : List String)
    (params : List ParameterDecl) (body : Option (List Stmt)) : Member :=
  .method { name, returns, modifiers, params, body := body.map .block }

/-- A public constructor that does nothing. -/
def constructorNamed (name : String) (params : List ParameterDecl) : Member :=
  .constructor { name, modifiers := ["public"], params, body := some (.block []) }

end Member

namespace Oracle

/-- The answers of a list, by position. -/
def tableOfList {α : Type} (items : List α) : SortedMap NodeId α :=
  .ofList (items.zipIdx.map fun (a, i) => (UInt32.ofNat i, a))

def ofLists (types : List SourceType) (symbols : List Symbol) : Oracle :=
  ⟨tableOfList types, tableOfList symbols⟩

end Oracle

end Recast
