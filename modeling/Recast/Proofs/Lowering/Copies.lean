import Mathlib.Algebra.GroupWithZero.Nat
import Recast.Proofs.Lowering.Accesses
import Recast.Proofs.Lowering.OutLocals
import Recast.Proofs.Lowering.Parts

/-! # How often code is written

A name stands in the text as often as the parts that use it are written. It can be the name of a
local, of the method that is called or of the class that an object is created of. For that, the
sheet of an expression is divided among its parts: what is done under the name is done in one of
them or in the expression itself, and what is written of it is that of the parts, each counted with
its copies.
-/
namespace Recast

namespace Sheet

/-- All that is done under the name, whether it is written or not. -/
def uses (s : Sheet) : List Mark := s.course.marks ++ s.pending

/-- The number of uses in the text, if the code and the lines are written so often. -/
def weight (s : Sheet) (copies lines : Nat) : Nat :=
  copies * s.code.length + lines * (s.before.length + s.after.length)

theorem weight_append (a b : Sheet) (copies lines : Nat) :
    (a ++ b).weight copies lines = a.weight copies lines + b.weight copies lines := by
  simp only [weight, before_append, code_append, after_append, List.length_append, Nat.mul_add]
  omega

theorem weight_eq_zero {s : Sheet} (h : s.uses = []) (copies lines : Nat) :
    s.weight copies lines = 0 := by
  have hall : s.before ++ s.code ++ s.after = [] :=
    List.subset_nil.mp fun m hm => h ▸ s.covers hm
  simp only [List.append_eq_nil_iff] at hall
  simp [weight, hall]

end Sheet

section
variable (env : Surroundings) (k : SoughtName) (owned : Bool)

namespace Part

def sheet (p : Part) : Sheet := Sheet.expr env k owned p.facing p.expr

def uses (p : Part) : List Mark := (p.sheet env k owned).uses

def weight (p : Part) : Nat := (p.sheet env k owned).weight p.copies p.lines

def totalWeight (ps : List Part) : Nat := (ps.map (weight env k owned)).sum

theorem totalWeight_append (ps qs : List Part) : totalWeight env k owned (ps ++ qs) =
    totalWeight env k owned ps + totalWeight env k owned qs := by
  rw [totalWeight, List.map_append, List.sum_append]
  rfl

end Part

/-- Some uses, with the number of them in the text, are those of the parts and some others. -/
def Divides (uses : List Mark) (weight : Nat) (ps : List Part) : Prop :=
  ∃ own rest, uses.Perm (own ++ ps.flatMap (Part.uses env k owned)) ∧
    weight = rest + Part.totalWeight env k owned ps ∧ (own = [] → rest = 0)

/-- A sheet that is written so often is put together from the parts. -/
def Sheet.Divides (s : Sheet) (copies lines : Nat) (ps : List Part) : Prop :=
  Recast.Divides env k owned s.uses (s.weight copies lines) ps

/-- A plan that is written so often is put together from the parts. -/
def Plan.Divides (p : Plan) (copies : Nat) (ps : List Part) : Prop :=
  Recast.Divides env k owned p.course.marks (copies * p.marks.length) ps

end

section
variable {env : Surroundings} {k : SoughtName} {owned : Bool} {ps qs rs : List Part}
  {us vs : List Mark} {m n : Nat}

namespace Divides

theorem own (us : List Mark) (h : us = [] → n = 0) : Divides env k owned us n [] :=
  ⟨us,n,by simp,rfl,h⟩

theorem congr (h : Divides env k owned us m ps) (hu : vs.Perm us) (hn : n = m) :
    Divides env k owned vs n ps := by
  obtain ⟨own,rest,hperm,hweight,hzero⟩ := h
  exact ⟨own,rest,hu.trans hperm,hn.trans hweight,hzero⟩

theorem append (h : Divides env k owned us m ps) (h' : Divides env k owned vs n qs) :
    Divides env k owned (us ++ vs) (m + n) (ps ++ qs) := by
  obtain ⟨own,rest,hperm,hweight,hzero⟩ := h
  obtain ⟨own',rest',hperm',hweight',hzero'⟩ := h'
  refine ⟨own ++ own',rest + rest',?_,?_,fun hnil => ?_⟩
  · refine (hperm.append hperm').trans ?_
    rw [List.flatMap_append, List.append_assoc, List.append_assoc]
    exact List.Perm.append_left own (List.perm_append_comm_assoc _ _ _)
  · rw [hweight, hweight', Part.totalWeight_append]
    omega
  · obtain ⟨rfl,rfl⟩ := List.append_eq_nil_iff.mp hnil
    rw [hzero rfl, hzero' rfl]

theorem whole (ps : List Part) :
    Divides env k owned (ps.flatMap (Part.uses env k owned)) (Part.totalWeight env k owned ps) ps :=
  ⟨[],0,.refl _,(Nat.zero_add _).symm,fun _ => rfl⟩

/-- What is put together from parts is put together from the parts of these. -/
theorem trans (h : Divides env k owned us n ps)
    (hps : Divides env k owned (ps.flatMap (Part.uses env k owned))
      (Part.totalWeight env k owned ps) qs) :
    Divides env k owned us n qs := by
  obtain ⟨own,rest,hperm,hweight,hzero⟩ := h
  obtain ⟨own',rest',hperm',hweight',hzero'⟩ := hps
  refine ⟨own ++ own',rest + rest',?_,?_,fun hnil => ?_⟩
  · rw [List.append_assoc]
    exact hperm.trans (hperm'.append_left own)
  · rw [hweight, hweight', Nat.add_assoc]
  · obtain ⟨rfl,rfl⟩ := List.append_eq_nil_iff.mp hnil
    rw [hzero rfl, hzero' rfl]

theorem perm (h : Divides env k owned us n ps) (hps : ps.Perm qs) :
    Divides env k owned us n qs := by
  obtain ⟨own,rest,hperm,hweight,hzero⟩ := h
  exact ⟨own,rest,hperm.trans ((hps.flatMap_right _).append_left own),
    hweight.trans (congrArg _ (hps.map _).sum_nat),hzero⟩

end Divides

namespace Sheet.Divides
variable {s a b : Sheet} {copies lines : Nat}

theorem empty : ({} : Sheet).Divides env k owned copies lines [] :=
  .own [] fun _ => by simp [Sheet.weight]

/-- A sheet without parts, all of whose uses are written equally often. -/
theorem of_weight (n : Nat) (h : s.weight copies lines = n * s.uses.length) :
    s.Divides env k owned copies lines [] := .own s.uses fun hnil => by rw [h, hnil]; rfl

theorem writes (ms : List Mark) : (Sheet.writes ms).Divides env k owned copies lines [] :=
  .of_weight copies (by simp [Sheet.weight, uses, Sheet.writes, Course.marks])

theorem awaits (ms : List Mark) : (Sheet.awaits ms).Divides env k owned copies lines [] :=
  .of_weight lines (by simp [Sheet.weight, uses, Sheet.awaits, Course.marks])

theorem trails (ms : List Mark) : (Sheet.trails ms).Divides env k owned copies lines [] :=
  .of_weight lines (by simp [Sheet.weight, uses, Sheet.trails, Course.marks])

theorem append (ha : a.Divides env k owned copies lines ps)
    (hb : b.Divides env k owned copies lines qs) :
    (a ++ b).Divides env k owned copies lines (ps ++ qs) := by
  refine (Recast.Divides.append ha hb).congr ?_ (weight_append a b copies lines)
  change ((a.course.marks ++ b.course.marks) ++ (a.pending ++ b.pending)).Perm _
  rw [uses, uses, List.append_assoc, List.append_assoc]
  exact List.Perm.append_left _ (List.perm_append_comm_assoc _ _ _)

theorem part (facing : Bool) (e : Expr) : (Sheet.expr env k owned facing e).Divides env k owned
    copies lines [⟨copies,lines,facing,e⟩] :=
  ⟨[],0,by simp [Part.uses, Part.sheet],by simp [Part.totalWeight, Part.weight, Part.sheet],
    fun _ => rfl⟩

theorem called (h : s.Divides env k owned copies lines ps) :
    s.called.Divides env k owned copies lines ps :=
  Recast.Divides.congr h (by simp [uses, Sheet.called, Course.marks]) rfl

theorem lost (h : s.Divides env k owned 0 0 ps) : s.lost.Divides env k owned copies lines ps :=
  Recast.Divides.congr h (.refl _) (by simp [Sheet.weight, Sheet.lost])

theorem uncoded (h : s.Divides env k owned 0 lines ps) :
    s.uncoded.Divides env k owned copies lines ps :=
  Recast.Divides.congr h (.refl _) (by simp [Sheet.weight, Sheet.uncoded])

theorem boxed_false (h : s.Divides env k owned lines lines ps) :
    (s.boxed false).Divides env k owned copies lines ps := by
  refine Recast.Divides.congr h (.refl _) ?_
  simp only [Sheet.weight, Sheet.boxed, Bool.false_eq_true, if_false, List.append_nil,
    List.length_append, List.length_nil, Nat.mul_add]
  omega

theorem boxed_true (h : s.Divides env k owned (2 * lines) lines ps) :
    (s.boxed true).Divides env k owned copies lines ps := by
  refine Recast.Divides.congr h (.refl _) ?_
  simp only [Sheet.weight, Sheet.boxed, if_true, List.length_append, List.length_nil, Nat.mul_add,
    Nat.mul_assoc]
  omega

end Sheet.Divides

namespace Plan.Divides
variable {s : Sheet} {p q : Plan} {copies : Nat}

theorem empty : ({} : Plan).Divides env k owned copies [] :=
  .own [] fun _ => by simp [Plan.marks]

theorem piece (h : s.Divides env k owned copies copies ps) :
    (Plan.piece s).Divides env k owned copies ps := by
  refine Recast.Divides.congr h (.refl _) ?_
  rw [marks_piece]
  simp only [Sheet.weight, Sheet.all, List.length_append, Nat.mul_add]
  omega

theorem seq (hp : p.Divides env k owned copies ps) (hq : q.Divides env k owned copies qs) :
    (p.seq q).Divides env k owned copies (ps ++ qs) :=
  Recast.Divides.congr (Recast.Divides.append hp hq) (.refl _)
    (by rw [marks_seq, List.length_append, Nat.mul_add])

theorem scope (hp : p.Divides env k owned copies ps) : p.scope.Divides env k owned copies ps := hp

theorem ofPlan (hp : p.Divides env k owned copies ps) {lines : Nat} :
    (Sheet.ofPlan p).Divides env k owned copies lines ps :=
  Recast.Divides.congr hp (by simp [Sheet.uses, Sheet.ofPlan, Course.marks])
    (by simp [Sheet.weight, Sheet.ofPlan])

theorem loop {head last : Sheet} (hh : head.Divides env k owned copies copies ps)
    (hl : last.Divides env k owned copies copies qs) (hp : p.Divides env k owned copies rs) :
    (Plan.loop head last p).Divides env k owned copies (ps ++ (qs ++ rs)) := by
  refine Recast.Divides.congr (Recast.Divides.append hh (Recast.Divides.append hl hp)) ?_ ?_
  · change (head.uses ++ (p.course.marks ++ last.uses)).Perm _
    exact List.Perm.append_left _ List.perm_append_comm
  · simp only [Plan.marks, Plan.loop, List.flatten_cons, Sheet.all, Sheet.before_append,
      Sheet.code_append, Sheet.after_append, List.length_append, Sheet.weight, Nat.mul_add]
    omega

end Plan.Divides

end

namespace Surroundings
variable (env : Surroundings) (k : SoughtName) (owned : Bool)

theorem divides_all (copies lines : Nat) (facing : Bool) (es : List Expr) :
    (Sheet.exprs env k owned facing es).Divides env k owned copies lines
      (Part.all copies lines facing es) := by
  induction es with
  | nil => exact .empty
  | cons e es ih => exact (Sheet.Divides.part facing e).append ih

theorem divides_argument (copies lines : Nat) (facing : Bool) (passing : Passing) (e : Expr) :
    (env.argumentSheet k passing e (Sheet.expr env k owned facing e)).Divides env k owned copies
      lines (Part.argument copies lines facing ⟨passing,e⟩) := by
  cases passing with
  | value | byIn => exact .part facing e
  | byRef => exact (Sheet.Divides.part facing e).boxed_true
  | byOut =>
    cases e with
    | declaration id ty name => exact .awaits _
    | _ => exact (Sheet.Divides.part facing _).boxed_false

theorem divides_arguments (copies lines : Nat) (facing : Bool) (args : List Argument) :
    (Sheet.arguments env k owned facing args).Divides env k owned copies lines
      (Part.arguments copies lines facing args) := by
  induction args with
  | nil => exact .empty
  | cons a args ih =>
    obtain ⟨passing,e⟩ := a
    exact (env.divides_argument k owned copies lines facing passing e).append ih

theorem divides_initializers (copies lines : Nat) (facing : Bool) (shape : InitializerShape)
    (es : List Expr) : (Sheet.initializers env k owned facing shape es).Divides env k owned copies
      lines (Part.all copies lines facing (es.map (Part.element shape))) := by
  induction es with
  | nil => exact .empty
  | cons e es ih =>
    rw [Sheet.initializers.eq_def]
    dsimp only
    split
    · exact ((Sheet.Divides.writes _).append (.part facing _)).append ih
    · next hne =>
      have he : Part.element shape e = e := by
        unfold Part.element
        split
        · next id op i name value => exact absurd rfl (hne id op i name value rfl)
        · rfl
      have hpart := (Sheet.Divides.part facing (Part.element shape e)).append ih
      rw [he] at hpart
      rw [List.map_cons, he]
      exact hpart

theorem divides_interpolation (copies lines : Nat) (facing : Bool)
    (parts : List InterpolationPart) : (Sheet.interpolation env k owned facing parts).Divides env k
      owned copies lines (Part.interpolation copies lines facing parts) := by
  induction parts with
  | nil => exact .empty
  | cons part parts ih =>
    cases part with
    | text text => exact (Sheet.Divides.writes _).append ih
    | expression e format => exact (Sheet.Divides.part facing e).append ih

theorem divides_optional (copies : Nat) (facing : Bool) (e : Option Expr) :
    Sheet.Divides env k owned (match e with
      | some e => Sheet.expr env k owned facing e
      | none => {}) copies copies (Part.optional copies facing e) := by
  cases e with
  | none => exact .empty
  | some e => exact .part facing e

theorem divides_heads (copies : Nat) (facing : Bool) (ds : List Declarator) :
    (Sheet.heads env k owned facing ds).Divides env k owned copies copies
      (Part.declarators copies facing ds) := by
  induction ds with
  | nil => exact .empty
  | cons d ds ih =>
    obtain ⟨id,name,init⟩ := d
    rw [Sheet.heads.eq_def]
    exact ((Sheet.Divides.writes _).append (env.divides_optional k owned copies facing init)).append
      ih

theorem divides_declarators (copies : Nat) (facing : Bool) (ty : List Mark)
    (ds : List Declarator) : (Plan.declarators env k owned facing ty ds).Divides env k owned copies
      (Part.declarators copies facing ds) := by
  induction ds with
  | nil => exact .empty
  | cons d ds ih =>
    obtain ⟨id,name,init⟩ := d
    rw [Plan.declarators.eq_def]
    exact Plan.Divides.seq (.piece ((Sheet.Divides.writes _).append
      (env.divides_optional k owned copies facing init))) ih

theorem divides_labels (copies : Nat) (facing : Bool) (ls : List SwitchLabel) :
    (Plan.labels env k owned facing ls).Divides env k owned copies
      (Part.labels copies facing ls) := by
  induction ls with
  | nil => exact .empty
  | cons l ls ih =>
    cases l with
    | case value => exact Plan.Divides.seq (.piece (.part facing value)) ih
    | default => exact ih

/-- What vanishes is not written. -/
theorem divides_statement (copies : Nat) (facing written : Bool) (e : Expr) :
    (Plan.statement (Sheet.expr env k owned facing e) written).Divides env k owned copies
      [Part.statement copies facing written e] := by
  cases written with
  | true => exact .piece (.part facing e)
  | false =>
    have hpart : (Sheet.expr env k owned facing e).Divides env k owned 0 0 [⟨0,0,facing,e⟩] :=
      .part facing e
    exact Recast.Divides.congr hpart (.refl _) (by simp [Plan.marks, Plan.statement, Sheet.weight])

mutual

theorem divides_stmt (copies : Nat) (facing : Bool) (s : Stmt) :
    (Plan.stmt env k owned facing s).Divides env k owned copies
      (Part.stmt env copies facing s) := by
  cases s with
  | expression id e => exact env.divides_statement k owned copies facing _ e
  | ret id value | throw id value =>
    rw [Plan.stmt.eq_def, Part.stmt]
    cases value with
    | none => exact .empty
    | some e => exact .piece (.part facing e)
  | locals id l =>
    obtain ⟨ty,ds⟩ := l
    exact env.divides_declarators k owned copies facing _ ds
  | switch id subject sections =>
    exact Plan.Divides.seq (.piece (.part facing subject))
      (divides_switchSections copies facing sections)
  | block id statements => exact (divides_stmts copies facing statements).scope
  | ifElse id condition thenBranch otherwise =>
    rw [Plan.stmt.eq_def, Part.stmt.eq_def]
    refine Plan.Divides.seq (.piece (.part facing condition))
      (Plan.Divides.seq (divides_stmt copies facing thenBranch).scope ?_)
    cases otherwise with
    | none => exact .empty
    | some s => exact (divides_stmt copies facing s).scope
  | forLoop id declaration initializers condition incrementors body =>
    rw [Plan.stmt.eq_def, Part.stmt.eq_def]
    have hlast := env.divides_all k owned copies copies facing incrementors
    have htest := env.divides_optional k owned copies facing condition
    have hbody := divides_stmt copies facing body
    dsimp only
    -- The head of the loop is all that is evaluated before the body.
    rw [← List.append_assoc]
    refine (Plan.Divides.loop (.append ?_ htest) hlast hbody).scope
    cases declaration with
    | none => exact env.divides_all k owned copies copies facing initializers
    | some d =>
      obtain ⟨ty,ds⟩ := d
      exact env.divides_heads k owned copies facing ds
  | whileLoop id condition body =>
    exact Plan.Divides.seq (.piece (.part facing condition))
      (divides_stmt copies facing body).scope
  | doWhile id body condition =>
    have hbody := divides_stmt copies facing body
    rw [Plan.stmt, Part.stmt]
    -- The condition is one of the parts on whichever side of the body it is written.
    split
    · exact Plan.Divides.seq hbody.scope (.piece (.part facing condition))
    · exact (Plan.Divides.loop .empty (.part facing condition) hbody).perm
        (List.perm_append_singleton _ _).symm
  | forEach id ty name iterable body =>
    exact Plan.Divides.seq (.piece (.append (.part facing iterable) (.trails _)))
      (divides_stmt copies facing body).scope
  | tryCatch id block catches finallyBlock =>
    rw [Plan.stmt.eq_def, Part.stmt.eq_def]
    refine Plan.Divides.seq (divides_stmts copies facing block).scope
      (Plan.Divides.seq (divides_catchClauses copies facing catches) ?_)
    cases finallyBlock with
    | none => exact .empty
    | some statements => exact (divides_stmts copies facing statements).scope
  | lock id target body =>
    exact Plan.Divides.seq (env.divides_statement k owned copies facing _ target)
      (divides_stmt copies facing body).scope
  | useResource id declaration target body =>
    have hbody := divides_stmt copies facing body
    cases declaration with
    | some d =>
      obtain ⟨ty,ds⟩ := d
      -- The lines at the end name the locals, but have no parts.
      rw [Plan.stmt, Part.stmt, ← List.append_nil (Part.stmt env copies facing body)]
      exact Plan.Divides.seq (env.divides_declarators k owned copies facing _ ds)
        (Plan.Divides.seq hbody.scope (.piece (.writes _)))
    | none =>
      rw [Part.stmt]
      cases target with
      | some e => exact Plan.Divides.seq (.piece (.part facing e)) hbody.scope
      | none => exact hbody.scope
  | breakLoop id | continueLoop id | empty id | other id kind => exact .empty

theorem divides_stmts (copies : Nat) (facing : Bool) (ss : List Stmt) :
    (Plan.stmts env k owned facing ss).Divides env k owned copies
      (Part.stmts env copies facing ss) := by
  cases ss with
  | nil => exact .empty
  | cons s ss => exact (divides_stmt copies facing s).seq (divides_stmts copies facing ss)

theorem divides_switchSections (copies : Nat) (facing : Bool) (sections : List SwitchSection) :
    (Plan.switchSections env k owned facing sections).Divides env k owned copies
      (Part.switchSections env copies facing sections) := by
  cases sections with
  | nil => exact .empty
  | cons s rest =>
    obtain ⟨ls,statements⟩ := s
    have hsection := (env.divides_labels k owned copies facing ls).seq
      (divides_stmts copies facing statements)
    exact hsection.scope.seq (divides_switchSections copies facing rest)

theorem divides_catchClauses (copies : Nat) (facing : Bool) (catches : List CatchClause) :
    (Plan.catchClauses env k owned facing catches).Divides env k owned copies
      (Part.catchClauses env copies facing catches) := by
  cases catches with
  | nil => exact .empty
  | cons c rest =>
    obtain ⟨ty,name,block⟩ := c
    have hhead : (Plan.piece (.writes (name.elim [] k.clashes))).Divides env k owned copies [] :=
      .piece (.writes _)
    exact (hhead.seq (divides_stmts copies facing block)).scope.seq
      (divides_catchClauses copies facing rest)

end

theorem divides_lambdaBody (copies lines : Nat) (facing : Bool) (body : LambdaBody) :
    (Sheet.lambdaBody env k owned facing body).Divides env k owned copies lines
      (Part.lambdaBody env copies facing body) := by
  cases body with
  | block statements => exact (env.divides_stmts k owned copies facing statements).ofPlan
  | expression e => exact Plan.Divides.ofPlan (.piece (.part facing e))

/-- An expression is put together from its parts. -/
theorem divides_expr (copies lines : Nat) (facing : Bool) (e : Expr) :
    (Sheet.expr env k owned facing e).Divides env k owned copies lines
      (Part.ofExpr env owned copies lines facing e) := by
  cases e with
  | identifier id name | genericName id name typeArgs | literal id kind text
  | predefinedType id name | typeOf id ty | declaration id ty name => exact .writes _
  | this id | base id | defaultValue id ty | other id kind => exact .empty
  | assignment id op first second | binary id op first second =>
    exact (Sheet.Divides.part facing first).append (.part facing second)
  | memberAccess id target name | qualifiedName id target name =>
    rw [Sheet.expr, Part.ofExpr]
    split
    · exact (Sheet.Divides.part facing target).lost.append (.part facing name)
    · exact (Sheet.Divides.part facing target).append (.part owned name)
  | conditionalAccess id target rest =>
    exact ((Sheet.Divides.part facing target).append (.writes _)).append (.part facing rest)
  | memberBinding id name => exact .part owned name
  | invocation id target args | elementAccess id target args =>
    exact (Sheet.Divides.part facing target).append
      (env.divides_arguments k owned copies lines facing args).called
  | objectCreation id ty args init =>
    rw [Sheet.expr.eq_def, Part.ofExpr.eq_def]
    dsimp only
    have hinit : Sheet.Divides env k owned (match init with
        | some e => Sheet.expr env k owned facing e
        | none => {}) copies lines (Part.all copies lines facing init.toList) := by
      cases init with
      | none => exact .empty
      | some e => exact .part facing e
    refine ((Sheet.Divides.writes _).append ?_).append hinit
    split
    · exact (env.divides_arguments k owned 0 lines facing args).called.uncoded
    · exact (env.divides_arguments k owned copies lines facing args).called
  | simpleLambda id param body | parenthesizedLambda id params body =>
    exact (Sheet.Divides.writes _).append (env.divides_lambdaBody k owned copies lines facing body)
  | conditional id condition whenTrue whenFalse =>
    exact ((Sheet.Divides.part facing condition).append (.part facing whenTrue)).append
      (.part facing whenFalse)
  | cast id ty operand => exact (Sheet.Divides.part facing operand).append (.writes _)
  | prefixUnary id op operand | postfixUnary id op operand | await id operand
  | parenthesized id operand | implicitArrayCreation id operand => exact .part facing operand
  | interpolatedString id parts => exact env.divides_interpolation k owned copies lines facing parts
  | tuple id elements => exact (env.divides_arguments k owned copies lines facing elements).called
  | initializer id shape elements =>
    exact env.divides_initializers k owned copies lines facing shape elements
  | arrayCreation id element sizes init =>
    cases init with
    | some init =>
      exact ((Sheet.Divides.writes _).append
        (env.divides_all k owned 0 lines facing sizes).uncoded).append (.part facing init)
    | none =>
      cases sizes with
      | nil => exact .writes _
      | cons size sizes =>
        exact ((Sheet.Divides.writes _).append (.part facing size)).append
          (env.divides_all k owned 0 lines facing sizes).uncoded

end Surroundings

namespace Part
variable {env : Surroundings} {k : SoughtName} {owned : Bool} {ps qs : List Part}

/-- What is done in a list of parts is done in some of them and in the rest. -/
theorem Apart.divides (h : Apart env owned ps qs) :
    Divides env k owned (ps.flatMap (Part.uses env k owned)) (totalWeight env k owned ps) qs := by
  induction h with
  | nil => exact .whole []
  | take p _ ih => exact Recast.Divides.append (Sheet.Divides.part p.facing p.expr) ih
  | leave p _ ih =>
    have hleft : Divides env k owned (p.uses env k owned) (p.weight env k owned) [] :=
      .own _ fun hnone => Sheet.weight_eq_zero hnone p.copies p.lines
    exact hleft.append ih
  | @enter p ps qs _ ih =>
    have hparts := env.divides_expr k owned p.copies p.lines p.facing p.expr
    exact (Recast.Divides.append hparts (.whole ps)).trans ih

/-- A name that is used in the parts and nowhere else is written with them. -/
theorem Apart.weight_eq {root : Part} (h : Apart env owned [root] qs)
    (hlen : (root.uses env k owned).length = (qs.flatMap (Part.uses env k owned)).length) :
    root.weight env k owned = totalWeight env k owned qs := by
  obtain ⟨own,rest,hperm,hweight,hzero⟩ := h.divides (k := k)
  have hl := hperm.length_eq
  rw [List.flatMap_singleton, List.length_append] at hl
  have hown : own = [] := List.length_eq_zero_iff.mp (by omega)
  rw [hzero hown, Nat.zero_add] at hweight
  exact hweight

theorem Apart.uses_subset {root p : Part} (h : Apart env owned [root] qs) (hp : p ∈ qs) :
    p.uses env k owned ⊆ root.uses env k owned := by
  obtain ⟨own,rest,hperm,-⟩ := h.divides (k := k)
  rw [List.flatMap_singleton] at hperm
  intro m hm
  exact hperm.mem_iff.mpr (List.mem_append_right own (List.mem_flatMap.mpr ⟨p,hp,hm⟩))

end Part

namespace SoughtName
variable {k : SoughtName} {ms : List Mark} {ts : List String}

theorem ne_space (k : SoughtName) : k.name ≠ " " := by
  intro h
  have hletters := k.letters
  rw [h] at hletters
  exact absurd hletters (by decide +kernel)

/-- Each use is one of the tokens. -/
theorem Marked.count_eq (h : k.Marked ms ts) (hms : .clashes ∉ ms) (hk : k.name ∉ keywords) :
    ts.count k.name = ms.length := by
  induction h with
  | clear h => exact List.count_eq_zero.mpr h
  | mention => simp
  | @declaration keyword hkey =>
    have hne : keyword ≠ k.name := fun h => hk (h ▸ hkey)
    simp [hne, k.ne_space.symm]
  | clash h => exact absurd h hms
  | append _ _ ihs iht =>
    rw [List.mem_append, not_or] at hms
    rw [List.count_append, List.length_append, ihs hms.1, iht hms.2]

/-- How often the texts have the name. -/
def count (k : SoughtName) (ts : List String) : Nat := (ts.flatMap Text.tokens).count k.name

theorem ShowsAll.count_eq (h : k.ShowsAll ms ts) (hms : .clashes ∉ ms) (hk : k.name ∉ keywords) :
    k.count ts = ms.length := by
  induction h with
  | nil => rfl
  | cons ht _ ih =>
    rw [List.mem_append, not_or] at hms
    rw [count, List.flatMap_cons, List.count_append, Marked.count_eq ht hms.1 hk, ← count,
      ih hms.2, List.length_append]

end SoughtName

namespace Lowered
variable (l : Lowered) (k : SoughtName)

/-- How often the name stands in the code. -/
def inCode : Nat := k.count [l.code]

/-- How often it stands in the lines around the statement. -/
def inLines : Nat := k.count (l.hoists.before ++ l.hoists.after)

/-- How often it is written at all. -/
def occurrences : Nat := k.count (l.hoists.before ++ l.code :: l.hoists.after)

theorem occurrences_eq : l.occurrences k = l.inCode k + l.inLines k := by
  simp only [occurrences, inCode, inLines, SoughtName.count, List.flatMap_append, List.flatMap_cons,
    List.flatMap_nil, List.append_nil, List.count_append]
  omega

end Lowered

/-- A lowered expression has the name as often as its sheet says. -/
theorem Sheet.Reads.count_eq {k : SoughtName} {s : Sheet} {l : Lowered} (h : s.Reads k l)
    (hs : .clashes ∉ s.uses) (hk : k.name ∉ SoughtName.keywords) :
    l.inCode k = s.code.length ∧ l.inLines k = s.before.length + s.after.length := by
  have hclear : .clashes ∉ s.before ++ s.code ++ s.after := fun hmem => hs (s.covers hmem)
  simp only [List.mem_append, not_or] at hclear
  have hcode : k.count [l.code] = s.code.length := by
    rw [SoughtName.count, List.flatMap_singleton, h.code.count_eq hclear.1.2 hk]
  have hbefore := h.lines.before.count_eq hclear.1.1 hk
  have hafter := h.lines.after.count_eq hclear.2 hk
  refine ⟨hcode,?_⟩
  rw [Lowered.inLines, SoughtName.count, List.flatMap_append, List.count_append, ← SoughtName.count,
    ← SoughtName.count, hbefore, hafter]

/-- Calls, new objects, assignments, increments and decrements. -/
def Expr.isEffect : Expr → Bool
  | .invocation .. | .objectCreation .. | .assignment .. => true
  | .prefixUnary _ op _ | .postfixUnary _ op _ => op.mutates
  | _ => false

namespace Surroundings

/-- A name is used in an expression, but nowhere outside of some of its parts. -/
structure UsedOnlyIn (env : Surroundings) (k : SoughtName) (s : LowerState) (e : Expr)
    (ps : List Part) : Prop where
  apart : Part.Apart env s.scope.owned [⟨1,1,s.scope.facing,e⟩] ps
  only : (Part.uses env k s.scope.owned ⟨1,1,s.scope.facing,e⟩).length =
    (ps.flatMap (Part.uses env k s.scope.owned)).length
  clear : .clashes ∉ Part.uses env k s.scope.owned ⟨1,1,s.scope.facing,e⟩

/-- A part is lowered so if it is lowered alone, in any state. -/
def LowersAlone (env : Surroundings) (owned : Bool) (p : Part) (l : Lowered) : Prop :=
  ∃ owner s t, env.expr owner p.expr s = (.ok l,t) ∧ s.scope.owned = owned ∧
    s.scope.facing = p.facing

/-- What is used only in an effect is written no more often than by the effect alone. -/
def WritesEffectsOnce (env : Surroundings) : Prop :=
  ∀ k owner e p s l l' t, env.Spares k → k.name ∉ SoughtName.keywords →
    env.UsedOnlyIn k s e [p] → p.expr.isEffect = true → env.expr owner e s = (.ok l,t) →
    env.LowersAlone s.scope.owned p l' → l.occurrences k ≤ l'.occurrences k

variable {env : Surroundings} {k : SoughtName}

/-- What is written of a name in a part can be counted in the text of the part alone. -/
theorem LowersAlone.weight_eq (H : env.Spares k) (hk : k.name ∉ SoughtName.keywords) {owned : Bool}
    {p : Part} {l : Lowered} (h : env.LowersAlone owned p l)
    (hclear : .clashes ∉ p.uses env k owned) :
    p.weight env k owned = p.copies * l.inCode k + p.lines * l.inLines k := by
  obtain ⟨owner,s,t,hrun,rfl,hfacing⟩ := h
  have hreads := (writes_expr H owner p.expr s l t hrun rfl).2.1
  rw [hfacing] at hreads
  obtain ⟨hcode,hlines⟩ := hreads.count_eq hclear hk
  rw [hcode, hlines]
  rfl

/-- A name that is used only in some parts is written as often as the parts have copies of their
code and of their lines. What stands in no argument by reference is not written more often than
alone. -/
theorem occurrences_eq_copies (H : env.Spares k) (hk : k.name ∉ SoughtName.keywords)
    {owner : Option ClassId} {e : Expr} {s t : LowerState} {l : Lowered}
    {ps : List (Part × Lowered)} (hp : env.UsedOnlyIn k s e (ps.map Prod.fst))
    (hrun : env.expr owner e s = (.ok l,t))
    (halone : ∀ q ∈ ps, env.LowersAlone s.scope.owned q.1 q.2) :
    l.occurrences k = (ps.map fun q => q.1.copies * q.2.inCode k + q.1.lines * q.2.inLines k).sum ∧
      ∀ q ∈ ps, ¬ Part.InReference env s.scope.owned ⟨1,1,s.scope.facing,e⟩ q.1 →
        q.1.copies * q.2.inCode k + q.1.lines * q.2.inLines k ≤ q.2.occurrences k := by
  have hmem {q : Part × Lowered} (hq : q ∈ ps) : q.1 ∈ ps.map Prod.fst :=
    List.mem_map_of_mem hq
  constructor
  · have hwhole : env.LowersAlone s.scope.owned ⟨1,1,s.scope.facing,e⟩ l :=
      ⟨owner,s,t,hrun,rfl,rfl⟩
    have hparts : Part.totalWeight env k s.scope.owned (ps.map Prod.fst) =
        (ps.map fun q => q.1.copies * q.2.inCode k + q.1.lines * q.2.inLines k).sum := by
      rw [Part.totalWeight, List.map_map]
      refine congrArg List.sum (List.map_congr_left fun q hq => ?_)
      exact (halone q hq).weight_eq H hk fun h => hp.clear (hp.apart.uses_subset (hmem hq) h)
    rw [← hparts, ← hp.apart.weight_eq hp.only, hwhole.weight_eq H hk hp.clear, Nat.one_mul,
      Nat.one_mul, l.occurrences_eq]
  · intro q hq hout
    obtain ⟨root,hroot,hwithin⟩ := hp.apart.within (hmem hq)
    obtain rfl := List.mem_singleton.mp hroot
    obtain ⟨hc,hl⟩ := hwithin.atMost (Nat.le_refl 1) (Nat.le_refl 1) hout
    have hcodes := Nat.mul_le_mul_right (q.2.inCode k) hc
    have hlines := Nat.mul_le_mul_right (q.2.inLines k) hl
    rw [Nat.one_mul] at hcodes hlines
    rw [q.2.occurrences_eq]
    exact Nat.add_le_add hcodes hlines

/-- In a method of a class. -/
def inClass : Surroundings :=
  (Lowering.ofStatements []).surroundings { name := "K" } { name := "m" }

/-- The call `name()`. -/
def call (name : String) : Expr := .invocation 0 (.identifier 0 name) []

/-- The object `new P(ref this[e], e)`. -/
def passesTwice (e : Expr) : Expr := .objectCreation 0 (.named "P" [])
  [⟨.byRef,.elementAccess 0 (.this 0) [⟨.value,e⟩]⟩,⟨.value,e⟩] none

/-- The name of the method. -/
def methodM : SoughtName where
  name := "m"
  sought := .members
  ne_empty := by decide
  letters := by decide +kernel

/-- The name of another class. -/
def classT : SoughtName where
  name := "T"
  sought := .classes
  ne_empty := by decide
  letters := by decide +kernel

/-- The object `new T()`. -/
def newT : Expr := .objectCreation 0 (.named "T" []) [] none

def effects : List (SoughtName × Expr) := [(methodM,call "m"),(classT,newT)]

theorem spares_effects : ∀ q ∈ effects, inClass.Spares q.1 := by
  have hspares {k : SoughtName} (hk : k.name ∉ TypeScript.vocabulary) (hplain : '_' ∉ k.name.toList)
      (hclass : k.Clear "K") (hmethod : k.SparesMember "m" none) : inClass.Spares k := by
    have h := Lowering.spares_ofStatements hk hplain hclass hmethod [] { name := "m" } _
      List.mem_cons_self
    exact h
  refine List.forall_mem_cons.mpr ⟨?_,List.forall_mem_singleton.mpr ?_⟩
  · exact hspares (by decide) (by decide) (by decide +kernel) (.inr ⟨rfl,rfl,rfl⟩)
  · exact hspares (by decide) (by decide) (by decide +kernel)
      (.inl ⟨by decide +kernel,by rintro t ⟨⟩⟩)

theorem usedOnlyIn_effects : ∀ q ∈ effects, inClass.UsedOnlyIn q.1 (.inRoutine 0 0)
    (passesTwice q.2) [⟨2,1,false,q.2⟩,⟨1,1,false,q.2⟩] := by
  intro q hq
  refine ⟨.enter _ (.enter _ (.leave _ (.take _ (.take _ .nil)))),?_,?_⟩
  · revert q
    decide +kernel
  · revert q
    decide +kernel

theorem lowered_effects : ∀ q ∈ effects,
    (inClass.expr none (passesTwice q.2) (.inRoutine 0 0)).1.map (fun _ => ()) = .ok () ∧
      (inClass.expr none q.2 (.inRoutine 0 0)).1.map (fun _ => ()) = .ok () := by decide +kernel

/-- An effect is written twice for the argument by reference, and once for the other. -/
def WritesThrice (k : SoughtName) (e : Expr) : Prop :=
  ∃ l l' t, inClass.Spares k ∧
    inClass.UsedOnlyIn k (.inRoutine 0 0) (passesTwice e) [⟨2,1,false,e⟩,⟨1,1,false,e⟩] ∧
    inClass.expr none (passesTwice e) (.inRoutine 0 0) = (.ok l,t) ∧
    (∀ copies lines, inClass.LowersAlone true ⟨copies,lines,false,e⟩ l') ∧
    l.occurrences k = (2 * l'.inCode k + 1 * l'.inLines k) + (1 * l'.inCode k + 1 * l'.inLines k)

theorem effects_occurrences_eq_copies :
    WritesThrice methodM (call "m") ∧ WritesThrice classT newT := by
  have hkeywords : ∀ q ∈ effects, q.1.name ∉ SoughtName.keywords := by decide
  have hthrice : ∀ q ∈ effects, WritesThrice q.1 q.2 := by
    intro q hq
    obtain ⟨hwhole,heffect⟩ := lowered_effects q hq
    obtain ⟨l,t,hrun,-⟩ := Lower.Yields.of_fst hwhole
    obtain ⟨l',t',hpart,-⟩ := Lower.Yields.of_fst heffect
    have halone (copies lines : Nat) : inClass.LowersAlone true ⟨copies,lines,false,q.2⟩ l' :=
      ⟨none,.inRoutine 0 0,t',hpart,rfl,rfl⟩
    have hparts : ∀ r ∈ [((⟨2,1,false,q.2⟩ : Part),l'),(⟨1,1,false,q.2⟩,l')],
        inClass.LowersAlone true r.1 r.2 := by simp [halone]
    have hcount := (occurrences_eq_copies (spares_effects q hq) (hkeywords q hq)
      (usedOnlyIn_effects q hq) hrun hparts).1
    exact ⟨l,l',t,spares_effects q hq,usedOnlyIn_effects q hq,hrun,halone,hcount⟩
  exact ⟨hthrice _ (.head _),hthrice _ (.tail _ (.head _))⟩

/-- The call `F(ref a[v()])`. -/
def passesElement : Expr := .invocation 0 (.identifier 0 "F")
  [⟨.byRef,.elementAccess 0 (.identifier 0 "a") [⟨.value,call "v"⟩]⟩]

theorem callV_code : (inClass.expr none (call "v") (.inRoutine 0 0)).1.map
    (fun l => (l.hoists,l.code)) = .ok ({},"v()") := by decide +kernel

theorem passesElement_code :
    (inClass.expr none passesElement (.inRoutine 0 0)).1.map (fun l => (l.hoists,l.code)) = .ok
      ({ before := ["const out_1: \x7b value: any \x7d = \x7b value: a[v()] \x7d;"]
         after := ["a[v()] = out_1.value;"] },"F(out_1)") := by decide +kernel

theorem usedOnlyIn_passesElement : inClass.UsedOnlyIn Lowering.localV (.inRoutine 0 0) passesElement
    [⟨2,1,false,call "v"⟩] where
  apart := Part.Within.apart (.inside (.tail _ (.head _)) (.inside (.tail _ (.head _)) (.here _)))
  only := by decide +kernel
  clear := by decide +kernel

/-- Both the line that gives the box its value and the line that writes it back have the call. -/
theorem passesElement_not_writesEffectsOnce : ¬ inClass.WritesEffectsOnce := by
  intro h
  obtain ⟨l,t,hrun,hl⟩ := Lower.Yields.of_fst passesElement_code
  obtain ⟨l',t',hpart,hl'⟩ := Lower.Yields.of_fst callV_code
  have hspares := Lowering.spares_localV [] { name := "m" } _ List.mem_cons_self
  have hle := h Lowering.localV none passesElement ⟨2,1,false,call "v"⟩ (.inRoutine 0 0) l l' t
    hspares (by decide) usedOnlyIn_passesElement rfl hrun ⟨none,.inRoutine 0 0,t',hpart,rfl,rfl⟩
  obtain ⟨hhoists,hcode⟩ := Prod.mk.inj hl
  obtain ⟨hhoists',hcode'⟩ := Prod.mk.inj hl'
  rw [Lowered.occurrences, Lowered.occurrences, hhoists, hcode, hhoists', hcode'] at hle
  exact absurd hle (by decide +kernel)

end Surroundings

end Recast
