import Recast.Proofs.Lowering.Creations

/-! # Forms that show their operands

A form of a dialect shows an operand if the operand's text stands in it as it is. In TypeScript
every form of an expression and of a statement shows all that it is given, apart from the operands
of a creation that the initializer or the type replaces.
-/
namespace Recast

namespace Text

theorem contains_trans {s t u : String} (h : contains s t = true) (h' : contains t u = true) :
    contains s u = true :=
  contains_iff.mpr ((contains_iff.mp h').trans (contains_iff.mp h))

/-- Each of the parts stands in one of the texts. -/
def Covers (texts parts : List String) : Prop :=
  ∀ part ∈ parts, ∃ text ∈ texts, contains text part = true

theorem covers_one {text : String} {parts : List String} :
    Covers [text] parts ↔ ∀ part ∈ parts, contains text part = true := by
  simp [Covers]

namespace Covers
variable {texts parts more ts us : List String}

theorem of_subset (h : parts ⊆ texts) : Covers texts parts :=
  fun part hpart => ⟨part, h hpart, contains_self part⟩

theorem refl (texts : List String) : Covers texts texts := of_subset (List.Subset.refl texts)

theorem nil (texts : List String) : Covers texts [] := List.forall_mem_nil _

theorem trans (h : Covers texts parts) (h' : Covers parts more) : Covers texts more := by
  intro text htext
  obtain ⟨part, hpart, hin⟩ := h' text htext
  obtain ⟨whole, hwhole, hpart⟩ := h part hpart
  exact ⟨whole, hwhole, contains_trans hpart hin⟩

/-- A text covers itself. -/
theorem self (text : String) : Covers [text] [text] := refl _

theorem left {text after : String} (h : Covers [text] parts) : Covers [text ++ after] parts :=
  covers_one.mpr fun part hpart => contains_append_right (covers_one.mp h part hpart) _

theorem right {before text : String} (h : Covers [text] parts) : Covers [before ++ text] parts :=
  covers_one.mpr fun part hpart => contains_append_left (covers_one.mp h part hpart) _

theorem listed (parts : List String) (separator : String) :
    Covers [String.intercalate separator parts] parts :=
  covers_one.mpr fun _ hpart => contains_intercalate hpart separator

theorem append (h : Covers texts ts) (h' : Covers texts us) : Covers texts (ts ++ us) :=
  List.forall_mem_append.mpr ⟨h, h'⟩

theorem of_mem {part : String} (h : Covers texts parts) (hpart : part ∈ parts) :
    Covers texts [part] := h.trans (of_subset (by simpa using hpart))

/-- One text after the other covers what both cover. -/
theorem beside {text after : String} (h : Covers [text] ts) (h' : Covers [after] us) :
    Covers [text ++ after] (ts ++ us) := h.left.append h'.right

theorem cons {part : String} (h : Covers texts [part]) (h' : Covers texts parts) :
    Covers texts (part :: parts) := h.append h'

theorem mono (h : Covers texts parts) (hsub : texts ⊆ more) : Covers more parts :=
  (of_subset hsub).trans h

theorem anti (h : Covers texts parts) (hsub : more ⊆ parts) : Covers texts more :=
  h.trans (of_subset hsub)

end Covers

end Text

open Text in
/-- The forms of the dialect show what they are given. -/
structure Dialect.ShowsOperands (d : Dialect) : Prop where
  assignment (target : String) (op : AssignOp) (value : String) :
    Covers [d.assignment target op value] [target, value]
  genericName (name : String) (args : List String) : Covers [d.genericName name args] [name]
  staticMember (className member : String) : Covers [d.staticMember className member] [member]
  memberAccess (target member : String) : Covers [d.memberAccess target member] [target, member]
  objectCreation (ty : String) (constructor : Option String) (args : List String)
    (init : Option String) : Covers [d.objectCreation ty constructor args init]
      ((if endsWith ty "[]" then [] else args) ++ init.toList)
  invocation (target : String) (args : List String) :
    Covers [d.invocation target args] (target :: args)
  binary (left : String) (op : BinaryOp) (right : String) :
    Covers [d.binary left op right] [left, right]
  lambda (params : List String) (body : String) : Covers [d.lambda params body] [body]
  conditional (condition whenTrue whenFalse : String) :
    Covers [d.conditional condition whenTrue whenFalse] [condition, whenTrue, whenFalse]
  cast (ty operand : String) : Covers [d.cast ty operand] [operand]
  conditionalAccess (target rest : String) : Covers [d.conditionalAccess target rest] [target, rest]
  memberBinding (member : String) : Covers [d.memberBinding member] [member]
  prefixUnary (op : UnaryOp) (operand : String) : Covers [d.prefixUnary op operand] [operand]
  postfixUnary (op : UnaryOp) (operand : String) : Covers [d.postfixUnary op operand] [operand]
  elementAccess (target : String) (args : List String) :
    Covers [d.elementAccess target args] (target :: args)
  interpolatedString (fragments : List Fragment) {code : String} {format : Option String}
    (h : .code code format ∈ fragments) : Covers [d.interpolatedString fragments] [code]
  tupleLiteral (elements : List String) : Covers [d.tupleLiteral elements] elements
  initializer (shape : InitializerShape) (elements : List String) :
    Covers [d.initializer shape elements] elements
  initializerMember (name value : String) : Covers [d.initializerMember name value] [value]
  parenthesized (inner : String) : Covers [d.parenthesized inner] [inner]
  arrayCreation (element : String) (sizes : List String) (init : Option String) :
    Covers [d.arrayCreation element sizes init] (init <|> sizes.head?).toList
  await (operand : String) : Covers [d.await operand] [operand]
  implicitArray (init : String) : Covers [d.implicitArray init] [init]
  expressionStatement (code : String) : Covers [d.expressionStatement code] [code]
  returnStatement (value : String) : Covers [d.returnStatement (some value)] [value]
  localDeclaration (name : String) (ty : Option String) (init : String) (mutable : Bool) :
    Covers [d.localDeclaration name ty (some init) mutable] [init]
  declarationClause (declarators : List (String × Option String)) {name init : String}
    (h : (name, some init) ∈ declarators) : Covers [d.declarationClause declarators] [init]
  throwStatement (value : String) : Covers [d.throwStatement (some value)] [value]
  ifHeader (condition : String) : Covers [d.ifHeader condition] [condition]
  elseIfHeader (condition : String) : Covers [d.elseIfHeader condition] [condition]
  whileHeader (condition : String) : Covers [d.whileHeader condition] [condition]
  doFooter (condition : String) : Covers [d.doFooter condition] [condition]
  forHeader (init condition : Option String) (steps : List String) :
    Covers [d.forHeader init condition steps] (init.toList ++ (condition.toList ++ steps))
  forEachHeader (name : String) (ty : Option String) (iterable : String) :
    Covers [d.forEachHeader name ty iterable] [iterable]
  switchHeader (subject : String) : Covers [d.switchHeader subject] [subject]
  caseLabel (value : String) : Covers [d.caseLabel value] [value]
  constructorChain (target : ChainTarget) (constructor : Option String) (args : List String) :
    Covers [d.constructorChain target constructor args] args

namespace TypeScript
open Text Text.Covers

theorem covers_join (pieces : List String) : Covers [String.join pieces] pieces := by
  induction pieces with
  | nil => exact .nil _
  | cons piece pieces ih =>
    rw [String.join_cons]
    exact (self piece).beside ih

theorem covers_binary (left : String) (op : BinaryOp) (right : String) :
    Covers [binary left op right] [left, right] := by
  unfold binary
  split
  · exact (self left).left.beside (self right)
  · exact (self left).left.beside (self right)
  · exact (self left).left.beside (self right)
  · exact ((self left).right.left.beside (self right)).left
  · exact (self left).left.left.left.beside (self right)

theorem covers_objectCreation (ty : String) (constructor : Option String) (args : List String)
    (init : Option String) : Covers [objectCreation ty constructor args init]
      ((if endsWith ty "[]" then [] else args) ++ init.toList) := by
  refine (covers_one.mpr fun arg harg => ?_).append (covers_one.mpr fun text htext => ?_)
  · split at harg
    · cases harg
    · next h => exact contains_objectCreation (by simpa using h) harg constructor init
  · rw [Option.mem_toList] at htext
    rw [htext]
    exact contains_objectCreation_initializer ..

theorem covers_interpolatedString {fragments : List Fragment} {code : String}
    {format : Option String} (h : .code code format ∈ fragments) :
    Covers [dialect.interpolatedString fragments] [code] := by
  have hfragment : Covers [fragment (.code code format)] [code] := (self code).right.left
  exact (((covers_join _).of_mem (List.mem_map_of_mem h)).trans hfragment).right.left

theorem covers_initializer (shape : InitializerShape) (elements : List String) :
    Covers [initializer shape elements] elements := by
  cases shape with
  | object =>
    unfold initializer
    dsimp only
    split
    next hempty =>
      rw [List.isEmpty_iff.mp hempty]
      exact .nil _
    next => exact (listed elements ", ").right.left
  | collection | array | complex => exact (listed elements ", ").right.left

theorem covers_arrayCreation (element : String) (sizes : List String) (init : Option String) :
    Covers [arrayCreation element sizes init] (init <|> sizes.head?).toList := by
  cases init with
  | some init => exact self init
  | none =>
    cases sizes with
    | nil => exact .nil _
    | cons size sizes => exact (self size).right.left

theorem covers_declarationClause {declarators : List (String × Option String)}
    {name init : String} (h : (name, some init) ∈ declarators) :
    Covers [declarationClause declarators] [init] := by
  unfold declarationClause
  have hpart : Covers [name ++ " = " ++ init] [init] := (self init).right
  exact (((listed _ ", ").of_mem (List.mem_map.mpr ⟨_, h, rfl⟩)).trans hpart).right

theorem covers_getD (text : Option String) : Covers [text.getD ""] text.toList := by
  cases text with
  | none => exact .nil _
  | some text => exact self text

theorem covers_forHeader (init condition : Option String) (steps : List String) :
    Covers [dialect.forHeader init condition steps]
      (init.toList ++ (condition.toList ++ steps)) := by
  rw [← List.append_assoc]
  exact ((covers_getD init).right.left.beside (covers_getD condition)).left.beside
    (listed steps ", ") |>.left

theorem dialect_showsOperands : dialect.ShowsOperands where
  assignment target _ value := (self target).left.left.left.beside (self value)
  genericName name _ := (self name).left
  staticMember _ member := (self member).right
  memberAccess target member := (self target).left.beside (self member)
  objectCreation := covers_objectCreation
  invocation target args := ((self target).left.beside (listed args ", ")).left
  binary := covers_binary
  lambda _ body := (self body).right
  conditional condition whenTrue whenFalse :=
    ((self condition).left.beside (self whenTrue)).left.beside (self whenFalse)
  cast _ operand := (self operand).right.left.left.left
  conditionalAccess target rest := (self target).beside (self rest)
  memberBinding member := (self member).right
  prefixUnary _ operand := (self operand).right
  postfixUnary _ operand := (self operand).left
  elementAccess target args := ((self target).left.beside (listed args "][")).left
  interpolatedString _ _ _ := covers_interpolatedString
  tupleLiteral elements := (listed elements ", ").right.left
  initializer := covers_initializer
  initializerMember _ value := (self value).right
  parenthesized inner := (self inner).right.left
  arrayCreation := covers_arrayCreation
  await operand := (self operand).right
  implicitArray init := self init
  expressionStatement code := (self code).left
  returnStatement value := (self value).right.left
  localDeclaration _ _ init _ := (self init).right.right.left
  declarationClause _ _ _ := covers_declarationClause
  throwStatement value := (self value).right.left
  ifHeader condition := (self condition).right.left
  elseIfHeader condition := (self condition).right.left
  whileHeader condition := (self condition).right.left
  doFooter condition := (self condition).right.left
  forHeader := covers_forHeader
  forEachHeader _ _ iterable := (self iterable).right.left
  switchHeader subject := (self subject).right.left
  caseLabel value := (self value).right.left
  constructorChain _ _ args := (listed args ", ").right.left

end TypeScript

end Recast
