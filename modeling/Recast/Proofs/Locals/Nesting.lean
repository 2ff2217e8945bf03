import Recast.Proofs.Locals.LexicalScopes
import Recast.Proofs.Locals.Records

/-! # Scopes and the scan

The scan of a body comes to the declarations of the locals that the scopes mark as scanned. So the
table of a scanned routine has each local that binds a name in it and that the scan can see.
-/
namespace Recast

namespace Layout

/-- The names that the scan comes to. -/
def names (a : Layout) : List String := (a.scanned 0).map Prod.snd

theorem names_append (a b : Layout) : (a ++ b).names = a.names ++ b.names := by
  change ((a.scanned 0 ++ b.scanned (0 + a.size)).map Prod.snd) = _
  rw [List.map_append, map_snd_scanned b _ 0]
  rfl

theorem names_initialized (name : String) (value : Layout) :
    (initialized name value).names = name :: value.names := by
  change name :: (value.scanned (0 + 1)).map Prod.snd = _
  rw [map_snd_scanned value _ 0]
  rfl

end Layout

/-- The scan comes to all locals that are declared there, if `k`; and to none otherwise. -/
def Charts (k : Bool) (n : Nest) (a : Layout) : Prop :=
  ∀ name ∈ n.scanned, k = true ∧ name ∈ a.names

namespace Charts
variable {k : Bool} {m n : Nest} {a b : Layout}

theorem empty : Charts k .empty a := by
  intro name h
  cases h

theorem use (id : NodeId) (name : String) : Charts k (.use id name) a := by
  intro name h
  cases h

theorem scope (params : List String) (h : Charts k n a) : Charts k (.scope params n) a := h

theorem append (hm : Charts k m a) (hn : Charts k n b) : Charts k (m ++ n) (a ++ b) := by
  intro name h
  rw [Layout.names_append]
  rcases List.mem_append.mp h with h | h
  · exact ⟨(hm name h).1,List.mem_append_left _ (hm name h).2⟩
  · exact ⟨(hn name h).1,List.mem_append_right _ (hn name h).2⟩

/-- Where the scan does not come, nothing is said about the layout. -/
theorem of_false (h : Charts false n a) : Charts k n b := by
  intro name hn
  cases (h name hn).1

theorem left (h : Charts k n a) : Charts k n (a ++ b) := by
  intro name hn
  rw [Layout.names_append]
  exact ⟨(h name hn).1,List.mem_append_left _ (h name hn).2⟩

theorem skipped (c : Bool) (h : Charts k n a) :
    Charts k (if c then .empty else n) (if c then b else a) := by
  cases c with
  | true => exact empty
  | false => exact h

theorem append_empty (h : Charts k n a) : Charts k (n ++ .empty) a := by
  intro name hn
  rcases List.mem_append.mp hn with hn | hn
  · exact h name hn
  · cases hn

theorem declare (name : String) (valued : Option Bool) :
    Charts k (.declare name k) (.place { name, valued }) := by
  intro other h
  cases k with
  | false => cases h
  | true =>
    obtain rfl := List.mem_singleton.mp h
    exact ⟨rfl,List.mem_cons_self⟩

theorem initialized (name : String) (hn : Charts k n a) :
    Charts k (.declare name k ++ n) (.initialized name a) := by
  intro other h
  rw [Layout.names_initialized]
  rcases List.mem_append.mp h with h | h
  · obtain ⟨hk,hname⟩ := declare name none other h
    exact ⟨hk,List.mem_singleton.mp hname ▸ List.mem_cons_self⟩
  · exact ⟨(hn other h).1,List.mem_cons_of_mem _ (hn other h).2⟩

mutual

theorem expr (k : Bool) (e : Expr) : Charts k (Nest.expr k e) (Layout.expr e) := by
  cases e with
  | identifier id name | genericName id name typeArgs => exact use id name
  | assignment id op first second | binary id op first second
  | conditionalAccess id first second => exact (expr k first).append (expr k second)
  | memberAccess id target name => exact (expr k target).left
  | qualifiedName id target name => exact (expr false target).of_false
  | invocation id target args | elementAccess id target args =>
    exact (expr k target).append (arguments k args)
  | objectCreation id ty args init =>
    cases init with
    | none => exact (arguments k args).append empty
    | some e => exact (arguments k args).append (expr k e)
  | simpleLambda id param body | parenthesizedLambda id params body =>
    exact (lambdaBody k body).scope _
  | conditional id condition whenTrue whenFalse =>
    exact ((expr k condition).append (expr k whenTrue)).append (expr k whenFalse)
  | cast id ty operand | prefixUnary id op operand | postfixUnary id op operand | await id operand
  | parenthesized id operand | implicitArrayCreation id operand => exact expr k operand
  | interpolatedString id parts => exact interpolation k parts
  | tuple id elements => exact arguments k elements
  | initializer id shape elements => exact initializers k shape elements
  | arrayCreation id element sizes init =>
    cases init with
    | none => exact (exprs k sizes).append empty
    | some e => exact (exprs k sizes).append (expr k e)
  | declaration id ty name => exact declare name none
  | memberBinding id name | this id | base id | literal id kind text | defaultValue id ty
  | predefinedType id name | typeOf id ty | other id kind => exact empty

theorem exprs (k : Bool) (es : List Expr) : Charts k (Nest.exprs k es) (Layout.exprs es) := by
  cases es with
  | nil => exact empty
  | cons e es => exact (expr k e).append (exprs k es)

theorem arguments (k : Bool) (args : List Argument) :
    Charts k (Nest.arguments k args) (Layout.arguments args) := by
  cases args with
  | nil => exact empty
  | cons a args =>
    obtain ⟨passing,e⟩ := a
    have he := expr k e
    refine append ?_ (arguments k args)
    unfold Layout.argument
    split
    · rw [Nest.expr]
      exact declare _ _
    · exact he

theorem initializers (k : Bool) (shape : InitializerShape) (es : List Expr) :
    Charts k (Nest.initializers k shape es) (Layout.exprs es) := by
  cases es with
  | nil => exact empty
  | cons e es =>
    have he := expr k e
    rw [Nest.initializers.eq_def]
    refine append ?_ (initializers k shape es)
    split
    · -- The name of the member declares nothing.
      exact fun name h => he name h
    · exact he

theorem interpolation (k : Bool) (parts : List InterpolationPart) :
    Charts k (Nest.interpolation k parts) (Layout.interpolation parts) := by
  cases parts with
  | nil => exact empty
  | cons part parts =>
    cases part with
    | text text => exact interpolation k parts
    | expression e format => exact (expr k e).append (interpolation k parts)

theorem lambdaBody (k : Bool) (body : LambdaBody) :
    Charts k (Nest.lambdaBody k body) (Layout.lambdaBody body) := by
  cases body with
  | block statements => exact stmts k statements
  | expression e => exact expr k e

theorem declarators (k : Bool) (ds : List Declarator) :
    Charts k (Nest.declarators k ds) (Layout.declarators ds) := by
  cases ds with
  | nil => exact empty
  | cons d ds =>
    obtain ⟨id,name,init⟩ := d
    cases init with
    | none => exact (declare name _).append_empty.append (declarators k ds)
    | some e => exact ((expr k e).initialized name).append (declarators k ds)

theorem headDeclarators (k : Bool) (ds : List Declarator) :
    Charts k (Nest.declarators k ds) (Layout.headDeclarators ds) := by
  cases ds with
  | nil => exact empty
  | cons d ds =>
    obtain ⟨id,name,init⟩ := d
    cases init with
    | none => exact ((declare name _).append empty).append (headDeclarators k ds)
    | some e => exact ((declare name _).append (expr k e)).append (headDeclarators k ds)

theorem labels (ls : List SwitchLabel) : Charts false (Nest.labels ls) (Layout.labels ls) := by
  cases ls with
  | nil => exact empty
  | cons l ls =>
    cases l with
    | case value => exact (expr false value).of_false.append (labels ls)
    | default => exact labels ls

theorem switchSections (k : Bool) (sections : List SwitchSection) :
    Charts k (Nest.switchSections k sections) (Layout.switchSections sections) := by
  cases sections with
  | nil => exact empty
  | cons s rest =>
    obtain ⟨ls,statements⟩ := s
    exact ((labels ls).of_false.append (stmts k statements)).append (switchSections k rest)

theorem catchClauses (k : Bool) (clauses : List CatchClause) :
    Charts k (Nest.catchClauses k clauses) (Layout.catchClauses clauses) := by
  cases clauses with
  | nil => exact empty
  | cons c rest =>
    obtain ⟨ty,name,block⟩ := c
    cases name with
    | none => exact ((empty.append (stmts k block)).scope _).append (catchClauses k rest)
    | some name =>
      exact (((declare name _).append (stmts k block)).scope _).append (catchClauses k rest)

theorem stmt (k : Bool) (s : Stmt) : Charts k (Nest.stmt k s) (Layout.stmt s) := by
  cases s with
  | expression id e => exact expr k e
  | ret id value | throw id value =>
    cases value with
    | none => exact empty
    | some e => exact expr k e
  | locals id l =>
    obtain ⟨ty,ds⟩ := l
    exact declarators k ds
  | switch id subject sections =>
    exact (expr k subject).append ((switchSections k sections).scope _)
  | block id statements => exact (stmts k statements).scope _
  | ifElse id condition thenBranch otherwise =>
    have hthen := (expr k condition).append ((stmt k thenBranch).scope [])
    cases otherwise with
    | none => exact hthen.append empty
    | some s => exact hthen.append ((stmt k s).scope _)
  | forLoop id declaration inits condition incrementors body =>
    have hloop {start test : Nest} {a b : Layout} (hstart : Charts k start a)
        (htest : Charts k test b) :=
      (((hstart.append htest).append (exprs k incrementors)).append
        ((stmt k body).scope [])).scope []
    cases declaration with
    | none =>
      cases condition with
      | none => exact hloop (exprs k inits) empty
      | some e => exact hloop (exprs k inits) (expr k e)
    | some d =>
      obtain ⟨ty,ds⟩ := d
      cases condition with
      | none => exact hloop (headDeclarators k ds).left empty
      | some e => exact hloop (headDeclarators k ds).left (expr k e)
  | whileLoop id condition body | doWhile id body condition =>
    exact ((expr k condition).append ((stmt k body).scope _)).scope _
  | forEach id ty name iterable body =>
    have hbody := (declare name none).append ((stmt k body).scope [])
    exact ((expr k iterable).append (hbody.scope [])).scope _
  | tryCatch id block catches finallyBlock =>
    have htry := ((stmts k block).scope []).append (catchClauses k catches)
    cases finallyBlock with
    | none => exact htry.append empty
    | some statements => exact htry.append ((stmts k statements).scope _)
  | lock id target body => exact (skipped _ (expr k target)).append ((stmt k body).scope _)
  | useResource id declaration target body =>
    have hbody := (stmt k body).scope []
    cases declaration with
    | some d =>
      obtain ⟨ty,ds⟩ := d
      cases target with
      | none => exact ((declarators k ds).left.append hbody).scope _
      | some e => exact ((declarators k ds).left.append hbody).scope _
    | none =>
      cases target with
      | none => exact (empty.append hbody).scope _
      | some e => exact ((expr k e).append hbody).scope _
  | breakLoop id | continueLoop id | empty id | other id kind => exact Charts.empty

theorem stmts (k : Bool) (ss : List Stmt) : Charts k (Nest.stmts k ss) (Layout.stmts ss) := by
  cases ss with
  | nil => exact empty
  | cons s ss => exact (stmt k s).append (stmts k ss)

end

theorem body (b : Body) : Charts true (Nest.body b) (Layout.body b) := by
  cases b with
  | block statements => exact stmts true statements
  | expression e => exact expr true e

theorem routine (f : Routine) : Charts true (Nest.routine f) (Layout.routine f) := by
  unfold Nest.routine Layout.routine
  refine scope _ (append ?_ ?_)
  · cases f.chain with
    | none => exact empty
    | some c => exact (arguments false c.args).of_false
  · cases f.body with
    | none => exact empty
    | some b => exact body b

end Charts

/-- The locals that the names of a scanned routine are bound by are known to it. -/
theorem Routine.mem_locals_of_mem_scanned {f : Routine} (hs : f.IsScanned) {name : String}
    (h : name ∈ (Nest.routine f).scanned) : name ∈ f.locals.map LocalVariable.name := by
  have hname := (Charts.routine f name h).2
  cases hb : f.body with
  | some b => exact names_locals hs hb ▸ hname
  | none =>
    rw [Layout.names, scanned_of_body_eq_none hb] at hname
    cases hname

end Recast
