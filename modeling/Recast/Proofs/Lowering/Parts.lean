import Recast.Proofs.Lowering.Sheets

/-! # Parts of an expression

The lines of an argument by reference repeat its code: a box gets its value in one line, and another
line writes it back. So the code of what stands in such an argument can be written several times,
and that of what stands in a target that vanishes not at all. How often is read off the syntax: the
parts of an expression, each with the number of its copies. Nothing is written more than once unless
it stands in an argument by reference.
-/
namespace Recast

/-- A part of an expression: how often its code is written, how often the lines are that are hoisted
from it, and whether it stands behind a dot. -/
structure Part where
  copies : Nat
  lines : Nat
  facing : Bool
  expr : Expr

namespace Part

/-- What is passed by reference is written by the lines of its box. -/
def argument (copies lines : Nat) (facing : Bool) : Argument → List Part
  | ⟨.byOut,.declaration ..⟩ => []
  | ⟨.byOut,e⟩ => [⟨lines,lines,facing,e⟩]
  | ⟨.byRef,e⟩ => [⟨2 * lines,lines,facing,e⟩]
  | ⟨.value,e⟩ | ⟨.byIn,e⟩ => [⟨copies,lines,facing,e⟩]

def arguments (copies lines : Nat) (facing : Bool) : List Argument → List Part
  | [] => []
  | a :: args => argument copies lines facing a ++ arguments copies lines facing args

def all (copies lines : Nat) (facing : Bool) (es : List Expr) : List Part :=
  es.map fun e => ⟨copies,lines,facing,e⟩

/-- Of a member that the initializer of an object sets only the value is lowered. -/
def element : InitializerShape → Expr → Expr
  | .object, .assignment _ _ (.identifier ..) value => value
  | _, e => e

def interpolation (copies lines : Nat) (facing : Bool) : List InterpolationPart → List Part
  | [] => []
  | .text _ :: parts => interpolation copies lines facing parts
  | .expression e _ :: parts =>
    ⟨copies,lines,facing,e⟩ :: interpolation copies lines facing parts

/-- In a statement the lines are written as often as the code. -/
def optional (copies : Nat) (facing : Bool) (e : Option Expr) : List Part :=
  all copies copies facing e.toList

def declarators (copies : Nat) (facing : Bool) : List Declarator → List Part
  | [] => []
  | ⟨_,_,init⟩ :: ds => optional copies facing init ++ declarators copies facing ds

def labels (copies : Nat) (facing : Bool) : List SwitchLabel → List Part
  | [] => []
  | .case value :: ls => ⟨copies,copies,facing,value⟩ :: labels copies facing ls
  | .default :: ls => labels copies facing ls

section
variable (env : Surroundings) (owned : Bool)

/-- An expression that is written only if something is left of it. -/
def statement (copies : Nat) (facing written : Bool) (e : Expr) : Part :=
  let n := if written then copies else 0
  ⟨n,n,facing,e⟩

mutual

/-- The expressions in a statement. -/
def stmt (copies : Nat) (facing : Bool) : Stmt → List Part
  | .expression _ e => [statement copies facing (!e.vanishes env.oracle facing) e]
  | .ret _ value | .throw _ value => optional copies facing value
  | .locals _ ⟨_,ds⟩ => declarators copies facing ds
  | .switch _ subject sections =>
    ⟨copies,copies,facing,subject⟩ :: switchSections copies facing sections
  | .block _ statements => stmts copies facing statements
  | .ifElse _ condition thenBranch otherwise =>
    ⟨copies,copies,facing,condition⟩ :: (stmt copies facing thenBranch ++
      (match otherwise with
        | some s => stmt copies facing s
        | none => []))
  | .forLoop _ declaration initializers condition incrementors body =>
    (match declaration with
      | some ⟨_,ds⟩ => declarators copies facing ds
      | none => all copies copies facing initializers) ++
    (optional copies facing condition ++ (all copies copies facing incrementors ++
      stmt copies facing body))
  | .whileLoop _ condition body => ⟨copies,copies,facing,condition⟩ :: stmt copies facing body
  | .doWhile _ body condition => stmt copies facing body ++ [⟨copies,copies,facing,condition⟩]
  | .forEach _ _ _ iterable body => ⟨copies,copies,facing,iterable⟩ :: stmt copies facing body
  | .tryCatch _ block catches finallyBlock =>
    stmts copies facing block ++ (catchClauses copies facing catches ++
      (match finallyBlock with
        | some statements => stmts copies facing statements
        | none => []))
  | .lock _ target body =>
    statement copies facing (!target.isPlainReference && !target.vanishes env.oracle facing)
      target :: stmt copies facing body
  | .useResource _ (some ⟨_,ds⟩) _ body => declarators copies facing ds ++ stmt copies facing body
  | .useResource _ none target body => optional copies facing target ++ stmt copies facing body
  | .breakLoop _ | .continueLoop _ | .empty _ | .other .. => []

def stmts (copies : Nat) (facing : Bool) : List Stmt → List Part
  | [] => []
  | s :: ss => stmt copies facing s ++ stmts copies facing ss

def switchSections (copies : Nat) (facing : Bool) : List SwitchSection → List Part
  | [] => []
  | ⟨ls,statements⟩ :: rest =>
    labels copies facing ls ++ stmts copies facing statements ++ switchSections copies facing rest

def catchClauses (copies : Nat) (facing : Bool) : List CatchClause → List Part
  | [] => []
  | ⟨_,_,block⟩ :: rest => stmts copies facing block ++ catchClauses copies facing rest

end

/-- In the body of a lambda the lines are part of the code. -/
def lambdaBody (copies : Nat) (facing : Bool) : LambdaBody → List Part
  | .block statements => stmts env copies facing statements
  | .expression e => [⟨copies,copies,facing,e⟩]

/-- The parts that an expression is put together from. -/
def ofExpr (copies lines : Nat) (facing : Bool) : Expr → List Part
  | .assignment _ _ first second | .binary _ _ first second =>
    all copies lines facing [first,second]
  | .memberAccess _ target name | .qualifiedName _ target name =>
    if target.vanishes env.oracle facing then [⟨0,0,facing,target⟩,⟨copies,lines,facing,name⟩]
    else [⟨copies,lines,facing,target⟩,⟨copies,lines,owned,name⟩]
  | .conditionalAccess _ target rest => all copies lines facing [target,rest]
  | .memberBinding _ name => [⟨copies,lines,owned,name⟩]
  | .invocation _ target args | .elementAccess _ target args =>
    ⟨copies,lines,facing,target⟩ :: arguments copies lines facing args
  | .objectCreation _ ty args init =>
    let written := if Text.endsWith (env.tables.spell (.ofType ty)).text "[]" then 0 else copies
    arguments written lines facing args ++ all copies lines facing init.toList
  | .simpleLambda _ _ body | .parenthesizedLambda _ _ body => lambdaBody env copies facing body
  | .conditional _ condition whenTrue whenFalse =>
    all copies lines facing [condition,whenTrue,whenFalse]
  | .cast _ _ operand | .prefixUnary _ _ operand | .postfixUnary _ _ operand | .await _ operand
  | .parenthesized _ operand | .implicitArrayCreation _ operand =>
    [⟨copies,lines,facing,operand⟩]
  | .interpolatedString _ parts => interpolation copies lines facing parts
  | .tuple _ elements => arguments copies lines facing elements
  | .initializer _ shape elements => all copies lines facing (elements.map (element shape))
  | .arrayCreation _ _ sizes (some init) =>
    all 0 lines facing sizes ++ [⟨copies,lines,facing,init⟩]
  | .arrayCreation _ _ (size :: sizes) none =>
    ⟨copies,lines,facing,size⟩ :: all 0 lines facing sizes
  | .arrayCreation _ _ [] none | .identifier .. | .genericName .. | .this _ | .base _ | .literal ..
  | .defaultValue .. | .predefinedType .. | .typeOf .. | .declaration .. | .other .. => []

/-- The parts of a part. -/
def parts (p : Part) : List Part := ofExpr env owned p.copies p.lines p.facing p.expr

/-- The part itself, or a part of one of its parts. -/
inductive Within : Part → Part → Prop
  | here (p : Part) : Within p p
  | inside {p c q : Part} (hc : c ∈ p.parts env owned) (h : Within c q) : Within p q

/-- Some of the parts in a list, none of which stands in another: each part of the list is taken or
left out, or its own parts stand for it. -/
inductive Apart : List Part → List Part → Prop
  | nil : Apart [] []
  | take (p : Part) {ps qs : List Part} (h : Apart ps qs) : Apart (p :: ps) (p :: qs)
  | leave (p : Part) {ps qs : List Part} (h : Apart ps qs) : Apart (p :: ps) qs
  | enter (p : Part) {ps qs : List Part} (h : Apart (p.parts env owned ++ ps) qs) :
    Apart (p :: ps) qs

end

/-- The arguments that an expression passes itself. -/
def passed : Expr → List Argument
  | .invocation _ _ args | .elementAccess _ _ args | .objectCreation _ _ args _ | .tuple _ args =>
    args
  | _ => []

/-- A part stands in an argument by reference. -/
def InReference (env : Surroundings) (owned : Bool) (root p : Part) : Prop :=
  ∃ q c, Within env owned root q ∧ c ∈ q.parts env owned ∧ ⟨.byRef,c.expr⟩ ∈ passed q.expr ∧
    Within env owned c p

/-- Each part is written at most `n` times, if it is not one of the arguments by reference. -/
def AtMost (n : Nat) (args : List Argument) (ps : List Part) : Prop :=
  ∀ p ∈ ps, ⟨.byRef,p.expr⟩ ∈ args ∨ p.copies ≤ n ∧ p.lines ≤ n

section
variable {env : Surroundings} {owned : Bool} {n copies lines : Nat} {facing : Bool}
  {args args' : List Argument} {ps qs : List Part} {p : Part}

namespace AtMost

theorem nil : AtMost n args [] := List.forall_mem_nil _

theorem cons (hc : p.copies ≤ n) (hl : p.lines ≤ n) (hps : AtMost n args ps) :
    AtMost n args (p :: ps) := List.forall_mem_cons.mpr ⟨.inr ⟨hc,hl⟩,hps⟩

theorem one (hc : p.copies ≤ n) (hl : p.lines ≤ n) : AtMost n args [p] := cons hc hl nil

theorem append (hps : AtMost n args ps) (hqs : AtMost n args qs) : AtMost n args (ps ++ qs) :=
  List.forall_mem_append.mpr ⟨hps,hqs⟩

theorem mono (h : AtMost n args ps) (hargs : args ⊆ args') : AtMost n args' ps :=
  fun p hp => (h p hp).imp_left (hargs ·)

theorem all (hc : copies ≤ n) (hl : lines ≤ n) (es : List Expr) :
    AtMost n args (Part.all copies lines facing es) := by
  intro p hp
  obtain ⟨e,-,rfl⟩ := List.mem_map.mp hp
  exact .inr ⟨hc,hl⟩

theorem optional (hc : copies ≤ n) (e : Option Expr) :
    AtMost n args (Part.optional copies facing e) := all hc hc _

theorem argument (hc : copies ≤ n) (hl : lines ≤ n) (a : Argument) :
    AtMost n [a] (Part.argument copies lines facing a) := by
  obtain ⟨passing,e⟩ := a
  cases passing with
  | value | byIn => exact one hc hl
  | byRef => exact List.forall_mem_cons.mpr ⟨.inl List.mem_cons_self,nil⟩
  | byOut =>
    cases e with
    | declaration id ty name => exact nil
    | _ => exact one hl hl

theorem arguments (hc : copies ≤ n) (hl : lines ≤ n) (args : List Argument) :
    AtMost n args (Part.arguments copies lines facing args) := by
  induction args with
  | nil => exact nil
  | cons a args ih =>
    have ha : AtMost n (a :: args) (Part.argument copies lines facing a) :=
      (argument hc hl a).mono (by simp)
    exact ha.append (ih.mono (List.subset_cons_self a args))

theorem interpolation (hc : copies ≤ n) (hl : lines ≤ n) (parts : List InterpolationPart) :
    AtMost n args (Part.interpolation copies lines facing parts) := by
  induction parts with
  | nil => exact nil
  | cons part parts ih =>
    cases part with
    | text text => exact ih
    | expression e format => exact cons hc hl ih

theorem declarators (hc : copies ≤ n) (ds : List Declarator) :
    AtMost n args (Part.declarators copies facing ds) := by
  induction ds with
  | nil => exact nil
  | cons d ds ih =>
    obtain ⟨id,name,init⟩ := d
    exact (optional hc init).append ih

theorem labels (hc : copies ≤ n) (ls : List SwitchLabel) :
    AtMost n args (Part.labels copies facing ls) := by
  induction ls with
  | nil => exact nil
  | cons l ls ih =>
    cases l with
    | case value => exact cons hc hc ih
    | default => exact ih

theorem statement (hc : copies ≤ n) (written : Bool) (e : Expr) :
    AtMost n args [Part.statement copies facing written e] := by
  cases written with
  | true => exact one hc hc
  | false => exact one (Nat.zero_le n) (Nat.zero_le n)

mutual

theorem stmt (hc : copies ≤ n) (s : Stmt) : AtMost n args (Part.stmt env copies facing s) := by
  cases s with
  | expression id e => exact statement hc _ e
  | ret id value | throw id value => exact optional hc value
  | locals id l =>
    obtain ⟨ty,ds⟩ := l
    exact declarators hc ds
  | switch id subject sections => exact cons hc hc (switchSections hc sections)
  | block id statements => exact stmts hc statements
  | ifElse id condition thenBranch otherwise =>
    rw [Part.stmt.eq_def]
    refine cons hc hc ((stmt hc thenBranch).append ?_)
    cases otherwise with
    | none => exact nil
    | some s => exact stmt hc s
  | forLoop id declaration initializers condition incrementors body =>
    rw [Part.stmt.eq_def]
    refine append ?_ ((optional hc condition).append ((all hc hc incrementors).append
      (stmt hc body)))
    cases declaration with
    | none => exact all hc hc initializers
    | some d =>
      obtain ⟨ty,ds⟩ := d
      exact declarators hc ds
  | whileLoop id condition body | forEach id ty name condition body =>
    exact cons hc hc (stmt hc body)
  | doWhile id body condition => exact (stmt hc body).append (one hc hc)
  | tryCatch id block catches finallyBlock =>
    rw [Part.stmt.eq_def]
    refine (stmts hc block).append ((catchClauses hc catches).append ?_)
    cases finallyBlock with
    | none => exact nil
    | some statements => exact stmts hc statements
  | lock id target body => exact (statement hc _ target).append (stmt hc body)
  | useResource id declaration target body =>
    cases declaration with
    | none => exact (optional hc target).append (stmt hc body)
    | some d =>
      obtain ⟨ty,ds⟩ := d
      exact (declarators hc ds).append (stmt hc body)
  | breakLoop id | continueLoop id | empty id | other id kind => exact nil

theorem stmts (hc : copies ≤ n) (ss : List Stmt) :
    AtMost n args (Part.stmts env copies facing ss) := by
  cases ss with
  | nil => exact nil
  | cons s ss => exact (stmt hc s).append (stmts hc ss)

theorem switchSections (hc : copies ≤ n) (sections : List SwitchSection) :
    AtMost n args (Part.switchSections env copies facing sections) := by
  cases sections with
  | nil => exact nil
  | cons s rest =>
    obtain ⟨ls,statements⟩ := s
    exact ((labels hc ls).append (stmts hc statements)).append (switchSections hc rest)

theorem catchClauses (hc : copies ≤ n) (catches : List CatchClause) :
    AtMost n args (Part.catchClauses env copies facing catches) := by
  cases catches with
  | nil => exact nil
  | cons c rest =>
    obtain ⟨ty,name,block⟩ := c
    exact (stmts hc block).append (catchClauses hc rest)

end

theorem lambdaBody (hc : copies ≤ n) (body : LambdaBody) :
    AtMost n args (Part.lambdaBody env copies facing body) := by
  cases body with
  | block statements => exact stmts hc statements
  | expression e => exact one hc hc

/-- Only what is passed by reference is written more often than the expression. -/
theorem ofExpr (hc : copies ≤ n) (hl : lines ≤ n) (e : Expr) :
    AtMost n (passed e) (Part.ofExpr env owned copies lines facing e) := by
  have hz := Nat.zero_le n
  cases e with
  | assignment id op first second | binary id op first second
  | conditionalAccess id first second => exact all hc hl _
  | memberAccess id target name | qualifiedName id target name =>
    rw [Part.ofExpr]
    split
    · exact cons hz hz (one hc hl)
    · exact cons hc hl (one hc hl)
  | invocation id target args | elementAccess id target args =>
    exact cons hc hl (arguments hc hl args)
  | objectCreation id ty args init =>
    refine append (arguments ?_ hl args) (all hc hl _)
    split
    · exact hz
    · exact hc
  | simpleLambda id param body | parenthesizedLambda id params body => exact lambdaBody hc body
  | conditional id condition whenTrue whenFalse => exact all hc hl _
  | memberBinding id operand | cast id ty operand | prefixUnary id op operand
  | postfixUnary id op operand | await id operand | parenthesized id operand
  | implicitArrayCreation id operand => exact one hc hl
  | interpolatedString id parts => exact interpolation hc hl parts
  | tuple id elements => exact arguments hc hl elements
  | initializer id shape elements => exact all hc hl _
  | arrayCreation id element sizes init =>
    cases init with
    | some init => exact (all hz hl sizes).append (one hc hl)
    | none =>
      cases sizes with
      | nil => exact nil
      | cons size sizes => exact cons hc hl (all hz hl sizes)
  | identifier id name | genericName id name typeArgs | this id | base id | literal id kind text
  | defaultValue id ty | predefinedType id name | typeOf id ty | declaration id ty name
  | other id kind => exact nil

end AtMost

/-- What stands around the list is left out. -/
theorem Apart.between (h : Apart env owned ps qs) (front back : List Part) :
    Apart env owned (front ++ (ps ++ back)) qs := by
  induction front with
  | cons p front ih => exact .leave p ih
  | nil =>
    induction h with
    | nil =>
      induction back with
      | nil => exact .nil
      | cons p back ih => exact .leave p ih
    | take p _ ih => exact .take p ih
    | leave p _ ih => exact .leave p ih
    | enter p _ ih =>
      rw [List.nil_append, List.append_assoc] at ih
      exact .enter p ih

/-- A part of a part is taken alone. -/
theorem Within.apart {root p : Part} (h : Within env owned root p) :
    Apart env owned [root] [p] := by
  induction h with
  | here p => exact .take p .nil
  | @inside root c q hc _ ih =>
    obtain ⟨front,back,hparts⟩ := List.append_of_mem hc
    refine .enter root ?_
    rw [hparts, List.append_nil]
    exact ih.between front back

theorem Apart.within {q : Part} (h : Apart env owned ps qs) (hq : q ∈ qs) :
    ∃ p ∈ ps, Within env owned p q := by
  induction h with
  | nil => cases hq
  | take p h ih =>
    obtain rfl | hq := List.mem_cons.mp hq
    · exact ⟨q,List.mem_cons_self,.here q⟩
    · obtain ⟨r,hr,hw⟩ := ih hq
      exact ⟨r,List.mem_cons_of_mem p hr,hw⟩
  | leave p h ih =>
    obtain ⟨r,hr,hw⟩ := ih hq
    exact ⟨r,List.mem_cons_of_mem p hr,hw⟩
  | enter p h ih =>
    obtain ⟨r,hr,hw⟩ := ih hq
    obtain hr | hr := List.mem_append.mp hr
    · exact ⟨p,List.mem_cons_self,.inside hr hw⟩
    · exact ⟨r,List.mem_cons_of_mem p hr,hw⟩

/-- What does not stand in an argument by reference is written at most as often as the whole. -/
theorem Within.atMost {root p : Part} (h : Within env owned root p) (hc : root.copies ≤ n)
    (hl : root.lines ≤ n) (hp : ¬ InReference env owned root p) :
    p.copies ≤ n ∧ p.lines ≤ n := by
  induction h with
  | here => exact ⟨hc,hl⟩
  | @inside root c q hmem h ih =>
    obtain href | ⟨hcc,hcl⟩ := AtMost.ofExpr hc hl root.expr c hmem
    · exact absurd ⟨root,c,.here root,hmem,href,h⟩ hp
    · refine ih hcc hcl ?_
      rintro ⟨r,d,hr,hd,href,hw⟩
      exact hp ⟨r,d,.inside hmem hr,hd,href,hw⟩

end

end Part

end Recast
