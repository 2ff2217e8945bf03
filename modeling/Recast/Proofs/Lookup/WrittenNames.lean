import Recast.Proofs.Locals.LexicalScopes
import Recast.Proofs.Lowering.ShownWithin

/-! # Names in the lines

Every name that a body uses is a part of the body that does not stand behind a dot. Lowering comes
to such a part in the scope of the body, and where the part is written, the lines have what the name
is lowered to there.
-/
namespace Recast

/-- The node and the name, if the expression is a name by itself. -/
def Expr.name? : Expr → Option (NodeId × String)
  | .identifier id name | .genericName id name _ => some (id,name)
  | _ => none

namespace Part

/-- The part is a use of the name: it stands in one of the roots, and not behind a dot. -/
structure IsUse (env : Surroundings) (roots : List Part) (x : NodeId × String) (q : Part) :
    Prop where
  within : ∃ root ∈ roots, Within env true root q
  free : q.facing = false
  name : q.expr.name? = some x

/-- One of the parts is a use of the name. -/
def HasUse (env : Surroundings) (roots : List Part) (x : NodeId × String) : Prop :=
  ∃ q, IsUse env roots x q

section
variable {env : Surroundings} {ps qs : List Part} {p : Part} {x : NodeId × String} {k : Bool}
  {e : Expr} {copies lines : Nat}

namespace HasUse

theorem mono (h : HasUse env ps x) (hsub : ps ⊆ qs) : HasUse env qs x := by
  obtain ⟨q,⟨root,hroot,hwithin⟩,hfree,hname⟩ := h
  exact ⟨q,⟨root,hsub hroot,hwithin⟩,hfree,hname⟩

theorem left (h : HasUse env ps x) : HasUse env (ps ++ qs) x := h.mono (List.subset_append_left ..)

theorem right (h : HasUse env qs x) : HasUse env (ps ++ qs) x :=
  h.mono (List.subset_append_right ..)

theorem head (h : HasUse env [p] x) : HasUse env (p :: ps) x := h.left

theorem tail (h : HasUse env ps x) : HasUse env (p :: ps) x :=
  h.mono (List.subset_cons_self p ps)

theorem here (h : e.name? = some x) : HasUse env [⟨copies,lines,false,e⟩] x :=
  ⟨_,⟨_,List.mem_singleton_self _,.here _⟩,rfl,h⟩

/-- A use in one of the parts of an expression. -/
theorem inside (h : HasUse env (ofExpr env true copies lines false e) x) :
    HasUse env [⟨copies,lines,false,e⟩] x := by
  obtain ⟨q,⟨c,hc,hwithin⟩,hfree,hname⟩ := h
  exact ⟨q,⟨_,List.mem_singleton_self _,.inside hc hwithin⟩,hfree,hname⟩

end HasUse

mutual

theorem hasUse_expr (k : Bool) (e : Expr) (copies lines : Nat) (h : x ∈ (Nest.expr k e).names) :
    HasUse env [⟨copies,lines,false,e⟩] x := by
  cases e with
  | identifier id name | genericName id name typeArgs =>
    obtain rfl := List.mem_singleton.mp h
    exact .here rfl
  | assignment id op first second | binary id op first second
  | conditionalAccess id first second =>
    refine .inside ?_
    rcases List.mem_append.mp h with h | h
    · exact .head (hasUse_expr k first copies lines h)
    · exact .tail (hasUse_expr k second copies lines h)
  | memberAccess id target name =>
    refine .inside ?_
    rw [ofExpr]
    split
    · exact .head (hasUse_expr k target 0 0 h)
    · exact .head (hasUse_expr k target copies lines h)
  | qualifiedName id target name =>
    refine .inside ?_
    rw [ofExpr]
    split
    · exact .head (hasUse_expr false target 0 0 h)
    · exact .head (hasUse_expr false target copies lines h)
  | invocation id target args | elementAccess id target args =>
    refine .inside ?_
    rcases List.mem_append.mp h with h | h
    · exact .head (hasUse_expr k target copies lines h)
    · exact .tail (hasUse_arguments k args copies lines h)
  | objectCreation id ty args init =>
    refine .inside ?_
    cases init with
    | none =>
      rcases List.mem_append.mp h with h | h
      · exact .left (hasUse_arguments k args _ lines h)
      · cases h
    | some e =>
      rcases List.mem_append.mp h with h | h
      · exact .left (hasUse_arguments k args _ lines h)
      · exact .right (hasUse_expr k e copies lines h)
  | simpleLambda id param body | parenthesizedLambda id params body =>
    exact .inside (hasUse_lambdaBody k body copies h)
  | conditional id condition whenTrue whenFalse =>
    refine .inside ?_
    rcases List.mem_append.mp h with h | h
    · rcases List.mem_append.mp h with h | h
      · exact .head (hasUse_expr k condition copies lines h)
      · exact .tail (.head (hasUse_expr k whenTrue copies lines h))
    · exact .tail (.tail (hasUse_expr k whenFalse copies lines h))
  | cast id ty operand | prefixUnary id op operand | postfixUnary id op operand
  | await id operand | parenthesized id operand | implicitArrayCreation id operand =>
    exact .inside (hasUse_expr k operand copies lines h)
  | interpolatedString id parts => exact .inside (hasUse_interpolation k parts copies lines h)
  | tuple id elements => exact .inside (hasUse_arguments k elements copies lines h)
  | initializer id shape elements =>
    exact .inside (hasUse_initializers k shape elements copies lines h)
  | arrayCreation id element sizes init =>
    refine .inside ?_
    cases init with
    | some e =>
      rcases List.mem_append.mp h with h | h
      · exact .left (hasUse_exprs k sizes 0 lines h)
      · exact .right (hasUse_expr k e copies lines h)
    | none =>
      rcases List.mem_append.mp h with h | h
      · cases sizes with
        | nil => cases h
        | cons size sizes =>
          rcases List.mem_append.mp h with h | h
          · exact .head (hasUse_expr k size copies lines h)
          · exact .tail (hasUse_exprs k sizes 0 lines h)
      · cases h
  | memberBinding id name | this id | base id | literal id kind text | defaultValue id ty
  | predefinedType id name | typeOf id ty | declaration id ty name | other id kind => cases h

theorem hasUse_exprs (k : Bool) (es : List Expr) (copies lines : Nat)
    (h : x ∈ (Nest.exprs k es).names) : HasUse env (all copies lines false es) x := by
  cases es with
  | nil => cases h
  | cons e es =>
    rcases List.mem_append.mp h with h | h
    · exact .head (hasUse_expr k e copies lines h)
    · exact .tail (hasUse_exprs k es copies lines h)

theorem hasUse_arguments (k : Bool) (args : List Argument) (copies lines : Nat)
    (h : x ∈ (Nest.arguments k args).names) :
    HasUse env (arguments copies lines false args) x := by
  cases args with
  | nil => cases h
  | cons a args =>
    obtain ⟨passing,e⟩ := a
    rcases List.mem_append.mp h with he | hargs
    · refine .left ?_
      cases passing with
      | value | byIn => exact hasUse_expr k e copies lines he
      | byRef => exact hasUse_expr k e (2 * lines) lines he
      | byOut =>
        have huse := hasUse_expr k e lines lines he
        cases e with
        | declaration id ty name => cases he
        | _ => exact huse
    · exact .right (hasUse_arguments k args copies lines hargs)

theorem hasUse_initializers (k : Bool) (shape : InitializerShape) (es : List Expr)
    (copies lines : Nat) (h : x ∈ (Nest.initializers k shape es).names) :
    HasUse env (all copies lines false (es.map (element shape))) x := by
  cases es with
  | nil => cases h
  | cons e es =>
    have hplain := hasUse_expr k e copies lines
    have hvalue : ∀ {id op i name value}, e = .assignment id op (.identifier i name) value →
        x ∈ (Nest.expr k value).names → HasUse env [⟨copies,lines,false,value⟩] x := by
      cases e with
      | assignment id op target value =>
        rintro _ _ _ _ _ ⟨⟩
        exact hasUse_expr k value copies lines
      | _ => nofun
    rw [Nest.initializers.eq_def] at h
    rcases List.mem_append.mp h with h | h
    · split at h
      · exact .head (hvalue rfl h)
      · next hx =>
        have helement : element shape e = e := by
          unfold element
          split
          · exact absurd rfl (hx _ _ _ _ _ rfl)
          · rfl
        rw [List.map_cons, helement]
        exact .head (hplain h)
    · exact .tail (hasUse_initializers k shape es copies lines h)

theorem hasUse_interpolation (k : Bool) (parts : List InterpolationPart) (copies lines : Nat)
    (h : x ∈ (Nest.interpolation k parts).names) :
    HasUse env (interpolation copies lines false parts) x := by
  cases parts with
  | nil => cases h
  | cons part parts =>
    cases part with
    | text text => exact hasUse_interpolation k parts copies lines h
    | expression e format =>
      rcases List.mem_append.mp h with h | h
      · exact .head (hasUse_expr k e copies lines h)
      · exact .tail (hasUse_interpolation k parts copies lines h)

theorem hasUse_lambdaBody (k : Bool) (body : LambdaBody) (copies : Nat)
    (h : x ∈ (Nest.lambdaBody k body).names) : HasUse env (lambdaBody env copies false body) x := by
  cases body with
  | block statements => exact hasUse_stmts k statements copies h
  | expression e => exact hasUse_expr k e copies copies h

theorem hasUse_declarators (k : Bool) (ds : List Declarator) (copies : Nat)
    (h : x ∈ (Nest.declarators k ds).names) : HasUse env (declarators copies false ds) x := by
  cases ds with
  | nil => cases h
  | cons d ds =>
    obtain ⟨id,name,init⟩ := d
    cases init with
    | none => exact .right (hasUse_declarators k ds copies h)
    | some e =>
      rcases List.mem_append.mp h with h | h
      · exact .left (hasUse_expr k e copies copies h)
      · exact .right (hasUse_declarators k ds copies h)

theorem hasUse_labels (ls : List SwitchLabel) (copies : Nat) (h : x ∈ (Nest.labels ls).names) :
    HasUse env (labels copies false ls) x := by
  cases ls with
  | nil => cases h
  | cons label ls =>
    cases label with
    | case value =>
      rcases List.mem_append.mp h with h | h
      · exact .head (hasUse_expr false value copies copies h)
      · exact .tail (hasUse_labels ls copies h)
    | default => exact hasUse_labels ls copies h

theorem hasUse_switchSections (k : Bool) (sections : List SwitchSection) (copies : Nat)
    (h : x ∈ (Nest.switchSections k sections).names) :
    HasUse env (switchSections env copies false sections) x := by
  cases sections with
  | nil => cases h
  | cons s rest =>
    obtain ⟨ls,statements⟩ := s
    rcases List.mem_append.mp h with h | h
    · rcases List.mem_append.mp h with h | h
      · exact .left (.left (hasUse_labels ls copies h))
      · exact .left (.right (hasUse_stmts k statements copies h))
    · exact .right (hasUse_switchSections k rest copies h)

theorem hasUse_catchClauses (k : Bool) (clauses : List CatchClause) (copies : Nat)
    (h : x ∈ (Nest.catchClauses k clauses).names) :
    HasUse env (catchClauses env copies false clauses) x := by
  cases clauses with
  | nil => cases h
  | cons c rest =>
    obtain ⟨ty,name,block⟩ := c
    have hclause : (Nest.catchClauses k (⟨ty,name,block⟩ :: rest)).names =
        (Nest.stmts k block).names ++ (Nest.catchClauses k rest).names := by
      cases name with
      | none => rfl
      | some name => rfl
    rw [hclause] at h
    rcases List.mem_append.mp h with h | h
    · exact .left (hasUse_stmts k block copies h)
    · exact .right (hasUse_catchClauses k rest copies h)

theorem hasUse_stmt (k : Bool) (st : Stmt) (copies : Nat) (h : x ∈ (Nest.stmt k st).names) :
    HasUse env (stmt env copies false st) x := by
  cases st with
  | expression id e => exact hasUse_expr k e _ _ h
  | ret id value | throw id value =>
    cases value with
    | none => cases h
    | some e => exact hasUse_expr k e copies copies h
  | locals id l =>
    obtain ⟨ty,ds⟩ := l
    exact hasUse_declarators k ds copies h
  | switch id subject sections =>
    rcases List.mem_append.mp h with h | h
    · exact .head (hasUse_expr k subject copies copies h)
    · exact .tail (hasUse_switchSections k sections copies h)
  | block id statements => exact hasUse_stmts k statements copies h
  | ifElse id condition thenBranch otherwise =>
    rw [Nest.stmt.eq_def] at h
    rw [stmt.eq_def]
    rcases List.mem_append.mp h with h | h
    · rcases List.mem_append.mp h with h | h
      · exact .head (hasUse_expr k condition copies copies h)
      · exact .tail (.left (hasUse_stmt k thenBranch copies h))
    · cases otherwise with
      | none => cases h
      | some s => exact .tail (.right (hasUse_stmt k s copies h))
  | forLoop id declaration initializers condition incrementors body =>
    rw [Nest.stmt.eq_def] at h
    rw [stmt.eq_def]
    rcases List.mem_append.mp h with h | h
    · rcases List.mem_append.mp h with h | h
      · rcases List.mem_append.mp h with h | h
        · refine .left ?_
          cases declaration with
          | none => exact hasUse_exprs k initializers copies copies h
          | some d =>
            obtain ⟨ty,ds⟩ := d
            exact hasUse_declarators k ds copies h
        · refine .right (.left ?_)
          cases condition with
          | none => cases h
          | some e => exact hasUse_expr k e copies copies h
      · exact .right (.right (.left (hasUse_exprs k incrementors copies copies h)))
    · exact .right (.right (.right (hasUse_stmt k body copies h)))
  | whileLoop id condition body | forEach id ty name condition body =>
    rcases List.mem_append.mp h with h | h
    · exact .head (hasUse_expr k condition copies copies h)
    · exact .tail (hasUse_stmt k body copies h)
  | doWhile id body condition =>
    rcases List.mem_append.mp h with h | h
    · exact .right (hasUse_expr k condition copies copies h)
    · exact .left (hasUse_stmt k body copies h)
  | tryCatch id block catches finallyBlock =>
    rw [Nest.stmt.eq_def] at h
    rw [stmt.eq_def]
    rcases List.mem_append.mp h with h | h
    · rcases List.mem_append.mp h with h | h
      · exact .left (hasUse_stmts k block copies h)
      · exact .right (.left (hasUse_catchClauses k catches copies h))
    · cases finallyBlock with
      | none => cases h
      | some statements => exact .right (.right (hasUse_stmts k statements copies h))
  | lock id target body =>
    rcases List.mem_append.mp h with h | h
    · refine .head ?_
      split at h
      · cases h
      · exact hasUse_expr k target _ _ h
    · exact .tail (hasUse_stmt k body copies h)
  | useResource id declaration target body =>
    cases declaration with
    | some d =>
      obtain ⟨ty,ds⟩ := d
      rcases List.mem_append.mp h with h | h
      · exact .left (hasUse_declarators k ds copies h)
      · exact .right (hasUse_stmt k body copies h)
    | none =>
      cases target with
      | none => exact .right (hasUse_stmt k body copies h)
      | some e =>
        rcases List.mem_append.mp h with h | h
        · exact .left (hasUse_expr k e copies copies h)
        · exact .right (hasUse_stmt k body copies h)
  | breakLoop id | continueLoop id | empty id | other id kind => cases h

theorem hasUse_stmts (k : Bool) (ss : List Stmt) (copies : Nat)
    (h : x ∈ (Nest.stmts k ss).names) : HasUse env (stmts env copies false ss) x := by
  cases ss with
  | nil => cases h
  | cons s ss =>
    rcases List.mem_append.mp h with h | h
    · exact .left (hasUse_stmt k s copies h)
    · exact .right (hasUse_stmts k ss copies h)

end

theorem hasUse_body (returns : Bool) (b : Body) (h : x ∈ (Nest.body b).names) :
    HasUse env (body env false returns b) x := by
  cases b with
  | block statements => exact hasUse_stmts true statements 1 h
  | expression e =>
    cases returns with
    | true => exact hasUse_expr true e 1 1 h
    | false => exact hasUse_expr true e _ _ h

/-- Every name that a routine uses is one of its parts. -/
theorem hasUse_routine (f : Routine) (h : x ∈ (Nest.routine f).names) :
    HasUse env (routine env false f) x := by
  unfold Nest.routine at h
  unfold routine
  rcases List.mem_append.mp h with h | h
  · refine .left ?_
    cases hc : f.chain with
    | none =>
      rw [hc] at h
      cases h
    | some c =>
      rw [hc] at h
      exact hasUse_arguments false c.args 1 1 h
  · refine .right ?_
    cases hb : f.body with
    | none =>
      rw [hb] at h
      cases h
    | some b =>
      rw [hb] at h
      exact hasUse_body _ b h

theorem hasUse_accessor (v : Variable) (kind : AccessorKind)
    (h : x ∈ (Nest.accessor v kind).names) : HasUse env (accessor env false v kind) x := by
  cases kind with
  | get =>
    unfold Nest.accessor at h
    unfold accessor
    cases he : v.expressionBody with
    | some e =>
      rw [he] at h
      exact hasUse_body true _ h
    | none =>
      cases hb : v.getBody with
      | some b =>
        rw [he, hb] at h
        exact hasUse_body true b h
      | none =>
        rw [he, hb] at h
        cases h
  | set | init =>
    unfold Nest.accessor at h
    unfold accessor
    cases hb : v.setBody with
    | some b =>
      rw [hb] at h
      exact hasUse_body false b h
    | none =>
      rw [hb] at h
      cases h

end

end Part

namespace Surroundings
open Text Lower
variable {env : Surroundings} {σ : Scope} {lines : List String} {x : NodeId × String}

/-- The lines have what the name is lowered to in the scope. -/
def ShowsName (env : Surroundings) (σ : Scope) (lines : List String) (x : NodeId × String) :
    Prop :=
  ∃ s l t, s.scope = σ ∧ env.identifier x.1 x.2 s = (.ok l,t) ∧ Covers lines [l.code]

theorem canNameClass_eq_false {e : Expr} (he : e.name? = some x)
    (ho : env.oracle.symbolOf? x.1 = none) (hfind : env.program.find? x.2 = none) :
    env.canNameClass e = false := by
  cases e with
  | identifier id name | genericName id name typeArgs =>
    cases he
    rw [canNameClass, ho, hfind]
    rfl
  | _ => rfl

/-- Lowering comes to a use in the scope of the body. -/
theorem showsName_of_isUse (H : env.dialect.ShowsOperands) {roots : List Part} {q : Part}
    (hroots : Part.AllShown env σ lines roots) (howned : σ.owned = true)
    (hq : q.IsUse env roots x) (hcopies : 0 < q.copies) (hclass : env.canNameClass q.expr = false) :
    env.ShowsName σ lines x := by
  obtain ⟨root,hroot,hwithin⟩ := hq.within
  rw [← howned] at hwithin
  obtain ⟨l,⟨owner,s,t,hrun,hs⟩,hcode,-⟩ := (hroots root hroot).of_within H hwithin (.inl hcopies)
  have hcovers := (hcode hcopies).resolve_left (Bool.eq_false_iff.mp hclass)
  have hscope := hs.same howned hq.free
  have hname := hq.name
  generalize q.expr = e at hrun hname
  cases e with
  | identifier id name =>
    cases hname
    rw [expr.eq_def] at hrun
    obtain ⟨u,hu,-⟩ := ok_of_isolated hrun
    exact ⟨s,l,u,hscope,hu,hcovers⟩
  | genericName id name typeArgs =>
    cases hname
    rw [expr.eq_def] at hrun
    obtain ⟨u,hu,-⟩ := ok_of_isolated hrun
    obtain ⟨base,v,hbase,hrest⟩ := ok_of_bind hu
    obtain ⟨args,w,-,hjoin⟩ := ok_of_bind hrest
    obtain ⟨rfl,-⟩ := ok_of_pure hjoin
    exact ⟨s,base,v,hscope,hbase,hcovers.trans (H.genericName base.code args)⟩
  | _ => cases hname

end Surroundings

end Recast
