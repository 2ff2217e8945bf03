import Recast.Proofs.Lowering.Shown
import Recast.Proofs.Lowering.Written

/-! # Parts of parts are shown

The code of an expression shows the code of its parts, and its lines are theirs with those of the
boxes. So what stands in a part that is written is shown as well, however deep it stands: in the
body of a lambda, in an argument by reference, in an initializer.
-/
namespace Recast

/-- The texts of what is written so often. -/
def LoweredArgs.written (copies lines : Nat) (a : LoweredArgs) : List String :=
  (if 0 < copies then a.codes else []) ++ (if 0 < lines then a.hoists.lines else [])

def Lowered.written (copies lines : Nat) (l : Lowered) : List String :=
  LoweredArgs.written copies lines ⟨[l.code], l.hoists⟩

namespace Hoists
variable (h k : Hoists)

theorem lines_append_left : h.lines ⊆ (h ++ k).lines := by
  intro line hline
  rw [lines, List.mem_append] at hline
  change line ∈ (h.before ++ k.before) ++ (h.after ++ k.after)
  grind

theorem lines_append_right : k.lines ⊆ (h ++ k).lines := by
  intro line hline
  rw [lines, List.mem_append] at hline
  change line ∈ (h.before ++ k.before) ++ (h.after ++ k.after)
  grind

end Hoists

def Fragment.code? : Fragment → Option String
  | .text _ => none
  | .code written _ => some written

theorem Lowered.lines_join {l : Lowered} {parts : List Lowered} (h : l ∈ parts) (code : String)
    (ty : Option TypeDesc) : l.hoists.lines ⊆ (join code ty parts).hoists.lines := by
  suffices hfold : ∀ (parts : List Lowered) (start : Hoists),
      start.lines ⊆ (parts.foldl (fun h part => h ++ part.hoists) start).lines ∧
        ∀ l ∈ parts, l.hoists.lines ⊆ (parts.foldl (fun h part => h ++ part.hoists) start).lines
    from (hfold parts {}).2 l h
  intro parts
  induction parts with
  | nil => exact fun start => ⟨List.Subset.refl _, List.forall_mem_nil _⟩
  | cons first rest ih =>
    intro start
    obtain ⟨hstart, hrest⟩ := ih (start ++ first.hoists)
    exact ⟨List.Subset.trans (Hoists.lines_append_left _ _) hstart, List.forall_mem_cons.mpr
      ⟨List.Subset.trans (Hoists.lines_append_right _ _) hstart, hrest⟩⟩

namespace Part
open Text
variable {env : Surroundings} {σ : Scope} {facing : Bool} {copies lines n : Nat} {e : Expr}
  {l k : Lowered} {a b : LoweredArgs} {ps : List Part}

/-- What is not written need not be shown. -/
theorem shown_of_atMost {texts : List String} (h : AtMost 0 [] ps) :
    AllShown env σ texts ps := by
  intro c hc hwritten
  obtain hmem | ⟨hcopies, hlines⟩ := h c hc
  · cases hmem
  · omega

theorem covers_written (hcodes : 0 < n → 0 < copies ∧ Covers a.codes b.codes)
    (hlines : b.hoists.lines ⊆ a.hoists.lines) :
    Covers (a.written copies lines) (b.written n lines) := by
  refine .append ?_ ?_
  · split
    next h => exact (hcodes h).2.mono (by simp [LoweredArgs.written, (hcodes h).1])
    next => exact .nil _
  · split
    next h =>
      refine .of_subset (List.Subset.trans hlines ?_)
      simp [LoweredArgs.written, h]
    next => exact .nil _

/-- A whole is written with all of what it is put together from. -/
theorem AllShown.within (h : AllShown env σ (a.written copies lines) ps)
    (hcodes : Covers [l.code] a.codes) (hlines : a.hoists.lines ⊆ l.hoists.lines) :
    AllShown env σ (l.written copies lines) ps :=
  h.mono (covers_written (fun hn => ⟨hn, hcodes⟩) hlines)

/-- Only the lines of it are written. -/
theorem AllShown.uncoded (h : AllShown env σ (a.written 0 lines) ps)
    (hlines : a.hoists.lines ⊆ l.hoists.lines) : AllShown env σ (l.written copies lines) ps :=
  h.mono (covers_written (fun hn => absurd hn (Nat.lt_irrefl 0)) hlines)

/-- One after the other. -/
theorem AllShown.concat {qs : List Part} (h : AllShown env σ (a.written copies lines) ps)
    (h' : AllShown env σ (b.written copies lines) qs) :
    AllShown env σ
      (LoweredArgs.written copies lines ⟨a.codes ++ b.codes, a.hoists ++ b.hoists⟩) (ps ++ qs) := by
  refine .append (h.mono ?_) (h'.mono ?_)
  · exact covers_written (fun hn => ⟨hn, .of_subset (by simp)⟩) (Hoists.lines_append_left _ _)
  · exact covers_written (fun hn => ⟨hn, .of_subset (by simp)⟩) (Hoists.lines_append_right _ _)

theorem shown_whole (hl : env.LowersTo σ facing e l) :
    AllShown env σ (l.written copies lines) [⟨copies, lines, facing, e⟩] := by
  refine .one fun _ => ⟨l, hl, fun hc => .inr ?_, fun hc => ?_⟩
  · exact .of_subset (by simp [Lowered.written, LoweredArgs.written, show 0 < copies from hc])
  · exact .of_subset (by simp [Lowered.written, LoweredArgs.written, show 0 < lines from hc])

theorem shown_operand (hk : env.LowersTo σ facing e k) (hcode : Covers [l.code] [k.code])
    (hlines : k.hoists.lines ⊆ l.hoists.lines) :
    AllShown env σ (l.written copies lines) [⟨copies, lines, facing, e⟩] :=
  (shown_whole hk).within hcode hlines

theorem shown_join {parts : List Lowered} {code : String} {ty : Option TypeDesc}
    (hk : env.LowersTo σ facing e k) (hmem : k ∈ parts) (hcode : Covers [code] [k.code]) :
    AllShown env σ ((Lowered.join code ty parts).written copies lines)
      [⟨copies, lines, facing, e⟩] :=
  shown_operand hk hcode (Lowered.lines_join hmem code ty)

/-- The lines stay if a name is replaced. -/
theorem shown_replaced {parts : List Lowered} {code : String} {ty : Option TypeDesc}
    (hk : env.LowersTo σ facing e k) (hmem : k ∈ parts) (hname : env.canNameClass e = true) :
    AllShown env σ ((Lowered.join code ty parts).written copies lines)
      [⟨copies, lines, facing, e⟩] := by
  refine .one fun _ => ⟨k, hk, fun _ => .inl hname, fun hc => ?_⟩
  refine .of_subset (List.Subset.trans (Lowered.lines_join hmem code ty) ?_)
  simp [Lowered.written, LoweredArgs.written, show 0 < lines from hc]

end Part

namespace Lower.Leaves
variable {α : Type} {m : Lower α} {σ : Scope} {facing : Bool} {Q : α → List String → Prop}

theorem isolated (hm : Leaves σ facing Q m) : Leaves σ facing Q (Lower.isolated m) := by
  intro s a t hrun hs
  obtain ⟨u, hu, rfl⟩ := ok_of_isolated hrun
  obtain ⟨hscope, hlines⟩ := hm s a u hu hs
  refine ⟨?_, hlines⟩
  change u.scope.restore s.scope.depth = s.scope
  rw [hscope, Scope.restore_depth]

theorem calling (hm : Leaves σ facing Q m) (arity : Option Nat) :
    Leaves σ facing Q (Lower.calling arity m) := by
  intro s a t hrun hs
  obtain ⟨u, hu, rfl⟩ := ok_of_calling hrun
  exact hm { s with callArity := arity } a u hu hs

theorem withBinding (hm : Leaves σ facing Q m) (receiver : ClassRef) :
    Leaves σ facing Q (Lower.withBinding receiver m) := by
  intro s a t hrun hs
  obtain ⟨u, hu, rfl⟩ := ok_of_withBinding hrun
  exact hm { s with bindingReceiver := some receiver } a u hu hs

theorem memberOf (hm : Leaves σ σ.owned Q m) (receiver : ClassRef) (arity : Option Nat) :
    Leaves σ facing Q (Lower.memberOf receiver arity m) := by
  intro s a t hrun hs
  obtain ⟨u, hu, rfl⟩ := ok_of_memberOf hrun
  obtain ⟨hscope, hlines⟩ := hm _ a u hu (hs.push receiver)
  refine ⟨?_, hlines⟩
  change u.scope.restore s.scope.depth = s.scope
  rw [hscope, Scope.restore_push]

theorem collected {m : Lower Unit} {Q : List String → Prop}
    (hm : Leaves σ facing (fun _ xs => Q xs) m) :
    Leaves σ facing (fun lines xs => Q lines ∧ xs = []) (Lower.collected m) := by
  intro s lines t hrun hs
  obtain ⟨u, hu, rfl, rfl⟩ := ok_of_collected hrun
  obtain ⟨hscope, written, hwritten, hQ⟩ := hm { s with lines := [] } () u hu hs
  refine ⟨hscope, [], (List.append_nil _).symm, ?_, rfl⟩
  rwa [hwritten]

end Lower.Leaves

namespace Surroundings
open Text Lower Recast.Part
variable {env : Surroundings} {σ : Scope} {facing : Bool} {copies lines : Nat}

/-- What `m` brings shows the parts. -/
def Brings {α : Type} (env : Surroundings) (σ : Scope) (facing : Bool) (texts : α → List String)
    (ps : List Part) (m : Lower α) : Prop :=
  Leaves σ facing (fun a xs => AllShown env σ (texts a) ps ∧ xs = []) m

section expressions
variable (H : env.dialect.ShowsOperands) (copies lines : Nat)
include H

/-- The line that writes a box back has the code of the argument. -/
theorem brings_boxed {e : Expr} {l : Lowered} (hl : env.LowersTo σ facing e l)
    (withValue : Bool) {n : Nat} (hn : 0 < n → 0 < lines) :
    env.Brings σ facing (LoweredArgs.written copies lines) [⟨n, lines, facing, e⟩]
      (env.boxed l withValue) := by
  have htemp : env.Silent [] (Lower.temp "out") := .temp "out"
  refine (Leaves.quiet htemp).after fun temp _ =>
    .pure ⟨.one fun _ => ⟨l, hl, fun hc => .inr ?_, fun hc => ?_⟩, rfl⟩
  · have hback := (H.expressionStatement _).trans
      (H.assignment l.code .assign (env.dialect.boxValue temp))
    refine (hback.anti (List.cons_subset_cons _ (List.nil_subset _))).mono ?_
    simp [LoweredArgs.written, hn hc, Hoists.lines]
  · refine .of_subset fun line hline => ?_
    rw [Hoists.lines, List.mem_append] at hline
    have hlines : 0 < lines := hc
    simp only [LoweredArgs.written, hlines, if_true, Hoists.lines]
    grind

theorem brings_argument (passing : Passing) (e : Expr) :
    env.Brings σ facing (LoweredArgs.written copies lines)
      (Part.argument copies lines facing ⟨passing, e⟩)
      (env.argument passing e (env.expr none e)) := by
  cases passing with
  | value | byIn =>
    exact (leaves_expr none e).after fun l hl => .pure ⟨shown_whole hl, rfl⟩
  | byRef =>
    exact (leaves_expr none e).after fun l hl => brings_boxed H copies lines hl true (by omega)
  | byOut =>
    cases e with
    | declaration id ty name =>
      exact .of_silent (env.silent_outDeclaration ty name) fun _ _ _ _ _ => .nil
    | _ => exact (leaves_expr none _).after fun l hl => brings_boxed H copies lines hl false id

theorem brings_arguments (args : List Argument) :
    env.Brings σ facing (LoweredArgs.written copies lines)
      (Part.arguments copies lines facing args) (env.arguments args) := by
  induction args with
  | nil => exact Leaves.pure ⟨.nil, rfl⟩
  | cons a args ih =>
    obtain ⟨passing, e⟩ := a
    rw [arguments.eq_def]
    exact (brings_argument H copies lines passing e).after fun first hfirst =>
      ih.after fun rest hrest => .pure ⟨hfirst.concat hrest, rfl⟩

omit H in
theorem brings_exprs (es : List Expr) :
    env.Brings σ facing (LoweredArgs.written copies lines)
      (Part.all copies lines facing es) (env.exprs es) := by
  induction es with
  | nil => exact Leaves.pure ⟨.nil, rfl⟩
  | cons e es ih =>
    rw [exprs.eq_def]
    exact (leaves_expr none e).after fun l hl => ih.after fun rest hrest =>
      .pure ⟨(shown_whole hl).concat hrest, rfl⟩

theorem brings_initializers (owner : Option ClassId) (shape : InitializerShape) (es : List Expr) :
    env.Brings σ facing (LoweredArgs.written copies lines)
      (Part.all copies lines facing (es.map (Part.element shape)))
      (env.initializers owner shape es) := by
  induction es with
  | nil => exact Leaves.pure ⟨.nil, rfl⟩
  | cons e es ih =>
    have hplain : env.Brings σ facing (LoweredArgs.written copies lines)
        (⟨copies, lines, facing, e⟩ :: Part.all copies lines facing (es.map (Part.element shape)))
        (do
          let first ← env.expr none e
          let rest ← env.initializers owner shape es
          return ⟨first.code :: rest.codes, first.hoists ++ rest.hoists⟩) :=
      (leaves_expr none e).after fun l hl => ih.after fun rest hrest =>
        .pure ⟨(shown_whole hl).concat hrest, rfl⟩
    rw [initializers.eq_def]
    dsimp only
    split
    next name value =>
      refine (leaves_expr none value).after fun l hl => ih.after fun rest hrest => .pure ⟨?_, rfl⟩
      have hmember (name : String) : AllShown env σ (Lowered.written copies lines
          { l with code := env.dialect.initializerMember name l.code })
          [⟨copies, lines, facing, value⟩] :=
        shown_operand hl (H.initializerMember name l.code) (List.Subset.refl _)
      exact (hmember _).concat hrest
    next h =>
      have helement : Part.element shape e = e := by
        unfold Part.element
        split
        · exact absurd rfl (h _ _ _ _ _ rfl)
        · rfl
      rw [List.map_cons, helement]
      exact hplain

omit H in
theorem brings_interpolation (parts : List InterpolationPart) :
    env.Brings σ facing
      (fun r => LoweredArgs.written copies lines ⟨r.1.filterMap Fragment.code?, r.2⟩)
      (Part.interpolation copies lines facing parts) (env.interpolation parts) := by
  induction parts with
  | nil => exact Leaves.pure ⟨.nil, rfl⟩
  | cons part parts ih =>
    rw [interpolation.eq_def]
    cases part with
    | text text => exact ih.after fun rest hrest => .pure ⟨hrest, rfl⟩
    | expression e format =>
      exact (leaves_expr none e).after fun l hl => ih.after fun rest hrest =>
        .pure ⟨(shown_whole hl).concat hrest, rfl⟩

omit H in
theorem leaves_spell (d : TypeDesc) :
    Leaves σ facing (fun text xs => text = (env.tables.spell d).text ∧ xs = [])
      (env.spell d) :=
  .of_silent (env.silent.spell d) fun _ _ _ h _ => ok_of_spell h

omit H in
theorem leaves_blockText (written : List String) :
    Leaves σ facing (fun text xs => Covers [text] written ∧ xs = [])
      (env.blockText written) := by
  refine .of_silent (env.silent.blockText written) fun s text t hrun _ => ?_
  unfold blockText at hrun
  split at hrun
  next hempty =>
    rw [List.isEmpty_iff.mp hempty]
    exact .nil _
  next =>
    obtain ⟨_, _, _, htext⟩ := ok_of_bind hrun
    obtain ⟨rfl, -⟩ := ok_of_pure htext
    exact (Covers.listed written "\n").right.left.left.left

theorem leaves_lambdaResult (l : Lowered) :
    Leaves σ facing (fun text xs => Covers [text] l.texts ∧ xs = []) (env.lambdaResult l) := by
  unfold lambdaResult
  split
  next hempty =>
    refine .pure ⟨?_, rfl⟩
    rw [Lowered.texts, lines_of_isEmpty hempty]
    exact .refl _
  next =>
    have hbody : Leaves σ facing (fun _ xs => Covers xs l.texts) (do
        let code ← env.bind "ret" l
        env.emit (env.dialect.returnStatement (some code))) :=
      leaves_bound H "ret" l H.returnStatement
    exact hbody.indented.collected.after fun written hwritten =>
      (leaves_blockText written).mono fun h => ⟨h.1.trans hwritten, h.2⟩

/-- The body of a lambda is a single text. -/
theorem brings_lambdaBody (body : LambdaBody) :
    env.Brings σ facing (fun text => if 0 < copies then [text] else [])
      (Part.lambdaBody env copies facing body) (env.lambdaBody body) := by
  suffices hwritten : Leaves σ facing (fun text xs =>
      AllShown env σ [text] (Part.lambdaBody env copies facing body) ∧ xs = [])
      (env.lambdaBody body) by
    refine hwritten.mono fun {text xs} h => ⟨?_, h.2⟩
    split
    next => exact h.1
    next hzero =>
      have hcopies : copies = 0 := Nat.eq_zero_of_not_pos hzero
      exact shown_of_atMost (AtMost.lambdaBody (Nat.le_of_eq hcopies) body)
  rw [lambdaBody.eq_def]
  cases body with
  | block statements =>
    exact Leaves.after (Leaves.collected (shows_stmts H statements).indented)
      fun written hwritten => (leaves_blockText written).mono fun h => ⟨hwritten.mono h.1, h.2⟩
  | expression e =>
    exact (leaves_expr none e).after fun l hl => (leaves_lambdaResult H l).mono fun h =>
      ⟨.one (shown_of_texts hl h.1 copies), h.2⟩

omit H in
theorem canNameClass_of_isTypeExpr {scope : Scope} {e : Expr} (h : env.isTypeExpr scope e = true) :
    env.canNameClass e = true := by
  cases e with
  | identifier id name | genericName id name typeArgs =>
    rw [isTypeExpr] at h
    rw [canNameClass]
    cases ho : env.oracle.symbolOf? id with
    | some symbol => simpa [ho] using h
    | none =>
      rw [ho, Bool.and_eq_true] at h
      exact h.2
  | _ => cases h

omit H in
/-- Only the name of a class is replaced by another. -/
theorem canNameClass_of_redirect? {scope : Scope} {receiver : ClassRef} {target name : Expr}
    {arity : Option Nat} {className : String}
    (h : env.redirect? scope receiver target name arity = some className) :
    env.canNameClass target = true := by
  unfold redirect? at h
  split at h
  · split at h
    next htype => exact canNameClass_of_isTypeExpr htype
    next => cases h
  · cases h

theorem brings_access (id : NodeId) (target name : Expr) :
    env.Brings σ facing (Lowered.written copies lines)
      (Part.ofExpr env σ.owned copies lines facing (.memberAccess id target name))
      (env.access id target name (env.expr none target) (env.expr none name)) := by
  have harity : env.Silent [] Lower.takeArity := .takeArity
  rw [Part.ofExpr]
  refine (Leaves.quiet harity).after fun arity _ => (leaves_expr none target).after fun l hl => ?_
  obtain ⟨owner, s, t, hrun, hs⟩ := show env.LowersTo σ facing target l from hl
  have hprocessed := (env.lifts_expr owner target hrun rfl).2
  rw [hs.facing] at hprocessed
  rw [hprocessed]
  cases target.vanishes env.oracle facing with
  | true =>
    exact ((leaves_expr none name).calling arity).mono fun h =>
      ⟨.append (.one (shown_idle _ _ _)) (shown_whole h.1), h.2⟩
  | false =>
    have hget : env.Silent [] (MonadState.get : Lower LowerState) := .get
    rw [if_neg (by decide), if_neg (by decide)]
    refine (Leaves.quiet hget).after fun state _ =>
      ((leaves_expr none name).memberOf _ arity).after fun member hmember => ?_
    split
    next className hredirect =>
      exact (Leaves.quiet (env.silent_reference className)).after fun _ _ =>
        .pure ⟨.append (shown_replaced hl (.head _) (canNameClass_of_redirect? hredirect))
          (shown_join hmember (.tail _ (.head _)) (H.staticMember _ _)), rfl⟩
    next =>
      have hshow := H.memberAccess l.code member.code
      exact .pure ⟨.append (shown_join hl (.head _) (hshow.anti (by simp)))
        (shown_join hmember (.tail _ (.head _)) (hshow.anti (by simp))), rfl⟩

omit H in
/-- An expression with one operand. -/
theorem brings_unary {operand : Expr} {form : String → String} {ty : Lowered → Option TypeDesc}
    (hform : ∀ code, Covers [form code] [code]) :
    env.Brings σ facing (Lowered.written copies lines) [⟨copies, lines, facing, operand⟩] (do
      let l ← env.expr none operand
      return .join (form l.code) (ty l) [l]) :=
  (leaves_expr none operand).after fun l hl =>
    .pure ⟨shown_join hl (.head _) (hform l.code), rfl⟩

omit H in
theorem brings_binary {first second : Expr} {form : String → String → String}
    {ty : Lowered → Lowered → Option TypeDesc} (hform : ∀ a b, Covers [form a b] [a, b]) :
    env.Brings σ facing (Lowered.written copies lines)
      (Part.all copies lines facing [first, second]) (do
        let l ← env.expr none first
        let r ← env.expr none second
        return .join (form l.code r.code) (ty l r) [l, r]) :=
  (leaves_expr none first).after fun l hl => (leaves_expr none second).after fun r hr =>
    .pure ⟨.append (shown_join hl (.head _) ((hform l.code r.code).anti (by simp)))
      (shown_join hr (.tail _ (.head _)) ((hform l.code r.code).anti (by simp))), rfl⟩

/-- A target with arguments, which a form puts behind it. -/
theorem brings_applied {target : Lower Lowered} {e : Expr} (args : List Argument)
    {form : String → List String → String} {ty : Lowered → Option TypeDesc}
    (hform : ∀ code codes, Covers [form code codes] (code :: codes))
    (htarget : Leaves σ facing (fun l xs => env.LowersTo σ facing e l ∧ xs = []) target) :
    env.Brings σ facing (Lowered.written copies lines)
      (⟨copies, lines, facing, e⟩ :: Part.arguments copies lines facing args) (do
        let l ← target
        let rest ← env.arguments args
        return { l with
          code := form l.code rest.codes
          ty := ty l
          hoists := l.hoists ++ rest.hoists }) := by
  refine htarget.after fun l hl => (brings_arguments H copies lines args).after fun rest hrest =>
    .pure ⟨.append (shown_operand hl ?_ ?_) (hrest.within ?_ ?_), rfl⟩
  · exact (hform l.code rest.codes).anti (by simp)
  · exact Hoists.lines_append_left _ _
  · exact (hform l.code rest.codes).anti (by simp)
  · exact Hoists.lines_append_right _ _

theorem brings_lambda (params : List LambdaParam) (body : LambdaBody) :
    env.Brings σ facing (Lowered.written copies lines) (Part.lambdaBody env copies facing body)
      (do
        let params ← env.lambdaParams params
        let body ← env.lambdaBody body
        return { code := env.dialect.lambda params body }) := by
  refine (Leaves.quiet (env.silent.lambdaParams params)).after fun params _ =>
    (brings_lambdaBody H copies body).after fun text htext => .pure ⟨htext.mono ?_, rfl⟩
  split
  next h => exact (H.lambda params text).mono (by simp [Lowered.written, LoweredArgs.written, h])
  next => exact .nil _

/-- The arguments of a creation are written unless its type is an array. -/
theorem brings_creation (text : String) (ty : Option TypeDesc) (constructor : Option String)
    (args : List Argument) (owner : Option ClassId) (init : Option Expr) :
    env.Brings σ facing (Lowered.written copies lines)
      (Part.arguments (if endsWith text "[]" then 0 else copies) lines facing args ++
        Part.all copies lines facing init.toList) (do
        let rest ← env.arguments args
        match init with
        | some init => do
          let init ← env.expr owner init
          return {
            code := env.dialect.objectCreation text constructor rest.codes (some init.code)
            ty
            hoists := rest.hoists ++ init.hoists }
        | none => return {
            code := env.dialect.objectCreation text constructor rest.codes none
            ty
            hoists := rest.hoists }) := by
  let written := if endsWith text "[]" then 0 else copies
  refine (brings_arguments H written lines args).after fun rest hrest => ?_
  have hargs (init : Option String) : 0 < written → 0 < copies ∧
      Covers [env.dialect.objectCreation text constructor rest.codes init] rest.codes := by
    intro hwritten
    have hform := H.objectCreation text constructor rest.codes init
    unfold written at hwritten
    split at hwritten
    next => exact absurd hwritten (Nat.lt_irrefl 0)
    next hlist => exact ⟨hwritten, hform.anti (by simp [hlist])⟩
  cases init with
  | none =>
    refine .pure ⟨.append (hrest.mono ?_) .nil, rfl⟩
    exact covers_written (hargs none) (List.Subset.refl _)
  | some init =>
    refine (leaves_expr owner init).after fun l hl =>
      .pure ⟨.append (hrest.mono ?_) (shown_operand hl ?_ ?_), rfl⟩
    · exact covers_written (hargs (some l.code)) (Hoists.lines_append_left _ _)
    · exact (H.objectCreation text constructor rest.codes (some l.code)).anti (by simp)
    · exact Hoists.lines_append_right _ _

/-- Of the sizes of an array only the first is written, and only where there is no initializer. -/
theorem brings_array (element : String) (ty : Option TypeDesc) (id : NodeId) (source : SourceType)
    (sizes : List Expr) (init : Option Expr) :
    env.Brings σ facing (Lowered.written copies lines)
      (Part.ofExpr env σ.owned copies lines facing (.arrayCreation id source sizes init)) (do
        let rest ← env.exprs sizes
        match init with
        | some init => do
          let init ← env.expr none init
          return {
            code := env.dialect.arrayCreation element rest.codes (some init.code)
            ty
            hoists := rest.hoists ++ init.hoists }
        | none => return {
            code := env.dialect.arrayCreation element rest.codes none
            ty
            hoists := rest.hoists }) := by
  cases init with
  | some init =>
    refine (brings_exprs 0 lines sizes).after fun rest hrest => (leaves_expr none init).after
      fun l hl => .pure ⟨.append (hrest.uncoded ?_) (shown_operand hl ?_ ?_), rfl⟩
    · exact Hoists.lines_append_left _ _
    · exact H.arrayCreation element rest.codes (some l.code)
    · exact Hoists.lines_append_right _ _
  | none =>
    cases sizes with
    | nil => exact (Leaves.quiet (env.silent_exprs [])).after fun _ _ => .pure ⟨.nil, rfl⟩
    | cons size sizes =>
      rw [exprs.eq_def]
      simp only [bind_assoc, pure_bind]
      refine (leaves_expr none size).after fun l hl => (brings_exprs 0 lines sizes).after
        fun rest hrest => .pure ⟨.append (shown_operand hl ?_ ?_) (hrest.uncoded ?_), rfl⟩
      · exact H.arrayCreation element (l.code :: rest.codes) none
      · exact Hoists.lines_append_left _ _
      · exact Hoists.lines_append_right _ _

/-- The code and the lines of an expression show its parts. -/
theorem brings_expr (owner : Option ClassId) (e : Expr) :
    env.Brings σ facing (Lowered.written copies lines)
      (Part.ofExpr env σ.owned copies lines facing e) (env.expr owner e) := by
  have harity : env.Silent [] Lower.takeArity := .takeArity
  have hget : env.Silent [] (MonadState.get : Lower LowerState) := .get
  -- An expression without parts has nothing to show; the cases left have operands.
  by_cases hparts : Part.ofExpr env σ.owned copies lines facing e = []
  · rw [hparts]
    exact .of_silent (env.silent_expr owner e) fun _ _ _ _ _ => .nil
  rw [expr.eq_def]
  refine Leaves.isolated ?_
  cases e with
  | assignment id op target value => exact brings_binary copies lines fun a b => H.assignment a op b
  | binary id op left right => exact brings_binary copies lines fun a b => H.binary a op b
  | memberAccess id target name => exact brings_access H copies lines id target name
  | qualifiedName id target name => exact brings_access H copies lines id target name
  | conditionalAccess id target rest =>
    refine (Leaves.quiet harity).after fun _ _ => (leaves_expr none target).after fun l hl =>
      (Leaves.quiet hget).after fun _ _ => ((leaves_expr none rest).withBinding _).after
        fun r hr => .pure ⟨.append (shown_join hl (.head _) ?_)
          (shown_join hr (.tail _ (.head _)) ?_), rfl⟩
    · exact (H.conditionalAccess l.code r.code).anti (by simp)
    · exact (H.conditionalAccess l.code r.code).anti (by simp)
  | memberBinding id name =>
    exact (Leaves.quiet harity).after fun arity _ => (Leaves.quiet hget).after fun _ _ =>
      ((leaves_expr none name).memberOf _ arity).after fun member hmember =>
        .pure ⟨shown_join hmember (.head _) (H.memberBinding _), rfl⟩
  | invocation id target args =>
    exact brings_applied H copies lines args H.invocation ((leaves_expr none target).calling _)
  | elementAccess id target args =>
    exact brings_applied H copies lines args H.elementAccess (leaves_expr none target)
  | objectCreation id ty args init =>
    refine (leaves_spell _).after fun mapped hmapped => ?_
    rw [hmapped]
    exact brings_creation H copies lines _ _ _ args _ init
  | simpleLambda id param body => exact brings_lambda H copies lines [param] body
  | parenthesizedLambda id params body => exact brings_lambda H copies lines params body
  | conditional id condition whenTrue whenFalse =>
    refine (leaves_expr none condition).after fun c hc => (leaves_expr none whenTrue).after
      fun t ht => (leaves_expr none whenFalse).after fun f hf =>
        (Leaves.quiet (env.silent_refuse _ _)).after fun _ _ => .pure ⟨?_, rfl⟩
    have hform := H.conditional c.code t.code f.code
    exact .append (shown_join hc (.head _) (hform.anti (by simp)))
      (.append (shown_join ht (.tail _ (.head _)) (hform.anti (by simp)))
        (shown_join hf (.tail _ (.tail _ (.head _))) (hform.anti (by simp))))
  | cast id ty operand =>
    exact (Leaves.quiet (env.silent.spell _)).after fun mapped _ =>
      brings_unary copies lines (H.cast mapped)
  | prefixUnary id op operand => exact brings_unary copies lines (H.prefixUnary op)
  | postfixUnary id op operand => exact brings_unary copies lines (H.postfixUnary op)
  | await id operand => exact brings_unary copies lines H.await
  | parenthesized id operand => exact brings_unary copies lines H.parenthesized
  | implicitArrayCreation id operand => exact brings_unary copies lines H.implicitArray
  | interpolatedString id parts =>
    refine (brings_interpolation copies lines parts).after fun r hr =>
      .pure ⟨hr.within (fun code hcode => ?_) (List.Subset.refl _), rfl⟩
    obtain ⟨fragment, hmem, hfragment⟩ := List.mem_filterMap.mp hcode
    cases fragment with
    | text => cases hfragment
    | code _ format =>
      cases hfragment
      exact H.interpolatedString r.1 hmem code (.head _)
  | tuple id elements =>
    exact (brings_arguments H copies lines elements).after fun rest hrest =>
      .pure ⟨hrest.within (H.tupleLiteral rest.codes) (List.Subset.refl _), rfl⟩
  | initializer id shape elements =>
    exact (brings_initializers H copies lines owner shape elements).after fun rest hrest =>
      .pure ⟨hrest.within (H.initializer shape rest.codes) (List.Subset.refl _), rfl⟩
  | arrayCreation id element sizes init =>
    exact (Leaves.quiet (env.silent.spell _)).after fun mapped _ =>
      brings_array H copies lines mapped _ id element sizes init
  | identifier | genericName | this | base | literal | defaultValue | predefinedType | typeOf
  | declaration | other => exact absurd rfl hparts

end expressions

end Surroundings

namespace Part
open Text Surroundings
variable {env : Surroundings} {σ : Scope} {facing : Bool} {texts : List String} {p q : Part}

theorem atMost_arguments_idle (args : List Argument) :
    AtMost 0 [] (Part.arguments 0 0 facing args) := by
  induction args with
  | nil => exact .nil
  | cons a args ih =>
    refine .append ?_ ih
    obtain ⟨passing, e⟩ := a
    cases passing with
    | value | byIn | byRef => exact .one (Nat.le_refl 0) (Nat.le_refl 0)
    | byOut =>
      cases e with
      | declaration id ty name => exact .nil
      | _ => exact .one (Nat.le_refl 0) (Nat.le_refl 0)

/-- Of an expression that is not written no part is. -/
theorem atMost_ofExpr_idle (e : Expr) : AtMost 0 [] (Part.ofExpr env σ.owned 0 0 facing e) := by
  have hz := Nat.le_refl 0
  cases e with
  | invocation id target args | elementAccess id target args =>
    exact .cons hz hz (atMost_arguments_idle args)
  | objectCreation id ty args init =>
    rw [Part.ofExpr, ite_self]
    exact .append (atMost_arguments_idle args) (.all hz hz _)
  | tuple id elements => exact atMost_arguments_idle elements
  | _ => exact AtMost.ofExpr hz hz _

/-- The parts of a part that is shown are shown. -/
theorem Shown.parts (H : env.dialect.ShowsOperands) (h : p.Shown env σ texts) :
    AllShown env σ texts (p.parts env σ.owned) := by
  obtain ⟨copies, lines, facing, e⟩ := p
  by_cases hwritten : 0 < copies ∨ 0 < lines
  · obtain ⟨l, ⟨owner, s, t, hrun, hs⟩, hcode, hlines⟩ := h hwritten
    obtain ⟨-, -, -, hparts, -⟩ := brings_expr H copies lines owner e s l t hrun hs
    by_cases hname : env.canNameClass e = true
    · -- The code of the name of a class may not be shown, but the name has no parts.
      cases e with
      | identifier | genericName => exact .nil
      | _ => cases hname
    · refine hparts.mono (.append ?_ ?_)
      · split
        next hc => exact (hcode hc).resolve_left hname
        next => exact .nil _
      · split
        next hl => exact hlines hl
        next => exact .nil _
  · obtain ⟨rfl, rfl⟩ : copies = 0 ∧ lines = 0 := by omega
    exact shown_of_atMost (atMost_ofExpr_idle e)

/-- So is all that stands in it. -/
theorem Shown.of_within (h : p.Shown env σ texts) (H : env.dialect.ShowsOperands)
    (hwithin : Within env σ.owned p q) : q.Shown env σ texts := by
  induction hwithin with
  | here => exact h
  | inside hc _ ih => exact ih (h.parts H _ hc)

variable (env) (facing)

/-- The expressions in a body, which returns its value or does not use it. -/
def body (returns : Bool) : Body → List Part
  | .block statements => Part.stmts env 1 facing statements
  | .expression e =>
    if returns then [⟨1, 1, facing, e⟩]
    else [Part.statement 1 facing (!e.vanishes env.oracle facing) e]

/-- The expressions in a routine: the arguments for another constructor and those in the body. -/
def routine (f : Routine) : List Part :=
  (f.chain.map fun c => Part.arguments 1 1 facing c.args).getD [] ++
    (f.body.map (Part.body env facing f.returnType.isSome)).getD []

def accessor (v : Variable) : AccessorKind → List Part
  | .get =>
    match v.expressionBody, v.getBody with
    | some e, _ => Part.body env facing true (.expression e)
    | none, some b => Part.body env facing true b
    | none, none => []
  | .set | .init =>
    match v.setBody with
    | some b => Part.body env facing false b
    | none => []

end Part

namespace Surroundings
open Text Lower Recast.Part
variable {env : Surroundings} {σ : Scope} {facing : Bool} (H : env.dialect.ShowsOperands)
include H

theorem shows_chain (id : ClassId) (c : ConstructorChain) :
    Shows env σ facing (Part.arguments 1 1 facing c.args) (env.chain id c) := by
  refine Leaves.after (brings_arguments H 1 1 c.args) fun args hargs =>
    (leaves_splice _ _).mono fun hsplice => hargs.mono (hsplice.trans (.append ?_ ?_))
  · exact (H.constructorChain c.target _ args.codes).mono
      (List.cons_subset_cons _ (List.nil_subset _))
  · exact .of_subset (List.subset_cons_self _ _)

theorem shows_returningBody (b : Body) :
    Shows env σ facing (Part.body env facing true b) (env.returningBody b) := by
  cases b with
  | block statements => exact shows_stmts H statements
  | expression e =>
    exact shows_expr none e fun _ hl => shows_bound H hl "ret" H.returnStatement

theorem shows_effectBody (b : Body) :
    Shows env σ facing (Part.body env facing false b) (env.effectBody b) := by
  cases b with
  | block statements => exact shows_stmts H statements
  | expression e => exact shows_expr none e fun _ hl => shows_expressionStatement H hl

theorem shows_body (f : Routine) (b : Body) :
    Shows env σ facing (Part.body env facing f.returnType.isSome b)
      (if f.returnType.isSome then env.returningBody b else env.effectBody b) := by
  cases f.returnType.isSome with
  | true => exact shows_returningBody H b
  | false => exact shows_effectBody H b

/-- The lines of a routine show its expressions. -/
theorem shows_routineBody (id : ClassId) (f : Routine) :
    Shows env σ facing (Part.routine env facing f) (env.routineBody id f) := by
  unfold routineBody Part.routine
  cases f.chain with
  | some c =>
    cases f.body with
    | some b => exact (shows_chain H id c).seq fun _ => shows_body H f b
    | none => exact (shows_chain H id c).seq fun _ => .pure ()
  | none =>
    cases f.body with
    | some b => exact shows_body H f b
    | none => exact .pure ()

theorem shows_accessorBody (v : Variable) (kind : AccessorKind) :
    Shows env σ facing (Part.accessor env facing v kind) (env.accessorBody v kind) := by
  cases kind with
  | get =>
    unfold accessorBody Part.accessor
    cases v.expressionBody with
    | some e => exact shows_returningBody H _
    | none =>
      cases v.getBody with
      | some b => exact shows_returningBody H b
      | none => exact .pure ()
  | set | init =>
    unfold accessorBody Part.accessor
    cases v.setBody with
    | some b => exact shows_effectBody H b
    | none => exact .pure ()

end Surroundings

end Recast
