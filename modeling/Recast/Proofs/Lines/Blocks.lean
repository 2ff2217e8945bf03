import Recast.Proofs.Lines.Shapes
import Recast.Proofs.Lowering.Creations
import Recast.Proofs.Lowering.Hoisting

/-! # Statements are written as blocks

Whatever opens a block closes it, whichever function writes which line: a statement is written as a
sequence of items at the level at hand, an alternative as further parts of the block that its `if`
has opened. The `try` blocks among the items are those of the source, with one middle line for each
clause.
-/
namespace Recast

open TypeScript in
/-- A dialect that writes blocks in braces. -/
structure Dialect.Braced (d : Dialect) : Prop where
  indentUnit : d.indentUnit = "  "
  boxDeclaration (temp : String) (initial : Option String) :
    Text.endsWith (d.boxDeclaration temp initial) ";" = true
  expressionStatement (code : String) : Text.endsWith (d.expressionStatement code) ";" = true
  returnStatement (value : Option String) : Text.endsWith (d.returnStatement value) ";" = true
  localDeclaration (name : String) (ty init : Option String) (mutable : Bool) :
    Text.endsWith (d.localDeclaration name ty init mutable) ";" = true
  throwStatement (value : Option String) : Text.endsWith (d.throwStatement value) ";" = true
  breakStatement : Text.endsWith d.breakStatement ";" = true
  continueStatement : Text.endsWith d.continueStatement ";" = true
  dispose (target : String) : Text.endsWith (d.dispose target) ";" = true
  blockOpen : Opens d.blockOpen
  ifHeader (code : String) : Opens (d.ifHeader code)
  whileHeader (code : String) : Opens (d.whileHeader code)
  doHeader : Opens d.doHeader
  forHeader (init condition : Option String) (steps : List String) :
    Opens (d.forHeader init condition steps)
  forEachHeader (name : String) (ty : Option String) (iterable : String) :
    Opens (d.forEachHeader name ty iterable)
  elseHeader : Continues d.elseHeader
  elseIfHeader (code : String) : Continues (d.elseIfHeader code)
  switchHeader (subject : String) : d.switchHeader subject = switchLine subject
  caseLabel (value : String) : d.caseLabel value = (LabelLine.case value).text
  defaultLabel : d.defaultLabel = LabelLine.default.text
  tryHeader : d.tryHeader = tryLine
  catchHeader (name ty : Option String) : d.catchHeader name ty = catchLine name
  finallyHeader : d.finallyHeader = finallyLine
  blockClose : d.blockClose = ClosingLine.brace.text
  doFooter (code : String) : d.doFooter code = (ClosingLine.footer code).text

namespace TypeScript
open Text

theorem opens_of_head {first rest last : String} {c : Char} (hfirst : first.toList.head? = some c)
    (hc : c ≠ ' ' ∧ c ≠ 't') (hlast : endsWith last "\x7b" = true) :
    Opens (first ++ rest ++ last) := by
  obtain ⟨hflush, hne⟩ := flush_of_head (head?_append (head?_append hfirst rest) last) hc
  exact ⟨endsWith_append hlast _, hflush, hne⟩

theorem continues_append {first last : String} (hfirst : startsWith first "\x7d" = true)
    (hlast : endsWith last "\x7b" = true) (rest : String) : Continues (first ++ rest ++ last) :=
  ⟨startsWith_append (startsWith_append hfirst _) _, endsWith_append hlast _⟩

theorem continues_catchLine (name : Option String) : Continues (catchLine name) :=
  continues_append rfl rfl _

theorem continues_finallyLine : Continues finallyLine := ⟨rfl, rfl⟩

theorem dialect_braced : dialect.Braced where
  indentUnit := rfl
  boxDeclaration _ _ := endsWith_append rfl _
  expressionStatement _ := endsWith_append rfl _
  returnStatement value := by
    cases value with
    | none => rfl
    | some value => exact endsWith_append rfl _
  localDeclaration _ _ _ _ := endsWith_append rfl _
  throwStatement _ := endsWith_append rfl _
  breakStatement := rfl
  continueStatement := rfl
  dispose _ := endsWith_append rfl _
  blockOpen := ⟨rfl, by decide, by decide⟩
  ifHeader _ := opens_of_head rfl (by decide) rfl
  whileHeader _ := opens_of_head rfl (by decide) rfl
  doHeader := ⟨rfl, by decide, by decide⟩
  forHeader init condition steps := by
    have h : Opens ("for (" ++
        (init.getD "" ++ "; " ++ condition.getD "" ++ "; " ++ commas steps) ++ ") \x7b") :=
      opens_of_head rfl (by decide) rfl
    simpa only [dialect, String.append_assoc] using h
  forEachHeader name ty iterable := by
    have h : Opens ("for (const " ++ (name ++ " of " ++ iterable) ++ ") \x7b") :=
      opens_of_head rfl (by decide) rfl
    simpa only [dialect, String.append_assoc] using h
  elseHeader := ⟨rfl, rfl⟩
  elseIfHeader _ := continues_append rfl rfl _
  switchHeader _ := rfl
  caseLabel _ := rfl
  defaultLabel := rfl
  tryHeader := rfl
  catchHeader _ _ := rfl
  finallyHeader := rfl
  blockClose := rfl
  doFooter _ := rfl

end TypeScript

/-- The hoisted lines stand alone. -/
def Lowered.HoistsSimple (l : Lowered) : Prop :=
  ∀ line ∈ l.hoists.before ++ l.hoists.after, Text.endsWith line ";" = true

namespace Surroundings
open Lower Shape TypeScript
variable {env : Surroundings} {ts us : List TryForm} {heads : List String} {l : Lowered}
  {text : String}

section lines
variable (H : env.dialect.Braced)
include H

theorem endsWith_opening {b : Box} (h : env.Builds b) : Text.endsWith b.opening ";" = true := by
  cases h with
  | declares | writesBack | refers => exact H.boxDeclaration _ _

theorem endsWith_closing {b : Box} (h : env.Builds b) : Text.endsWith b.closing ";" = true := by
  cases h with
  | declares => exact H.localDeclaration _ _ _ _
  | writesBack | refers => exact H.expressionStatement _

theorem hoistsSimple_of_expr {owner : Option ClassId} {e : Expr} {s t : LowerState}
    (h : env.expr owner e s = (.ok l, t)) : l.HoistsSimple := by
  obtain ⟨boxes, closings, hboxed⟩ := (env.lifts_expr owner e h rfl).1.hoisted
  intro line hline
  rw [hboxed.before, hboxed.after, List.mem_append, List.mem_map, List.mem_map] at hline
  rcases hline with ⟨b, hb, rfl⟩ | ⟨b, hb, rfl⟩
  · exact endsWith_opening H (hboxed.builds b hb)
  · exact endsWith_closing H (hboxed.builds b (hboxed.closings.mem_iff.mp hb))

theorem lays_expr (owner : Option ClassId) (e : Expr) :
    Lays nothing Lowered.HoistsSimple (env.expr owner e) :=
  .silent (env.silent_expr owner e) fun _ _ _ h => hoistsSimple_of_expr H h

theorem lays_emit (text : String) : Lays (line text) (fun _ => True) (env.emit text) := by
  intro s a t hrun
  cases hrun
  refine ⟨rfl, trivial, _, rfl, ?_⟩
  rw [Surroundings.indentation, H.indentUnit]
  rfl

theorem lays_simple (h : Text.endsWith text ";" = true) :
    Lays (items []) (fun _ => True) (env.emit text) := (lays_emit H text).mono (items_simple h)

theorem lays_emitAll {lines : List String} (h : ∀ line ∈ lines, Text.endsWith line ";" = true) :
    Lays (items []) (fun _ => True) (env.emitAll lines) := by
  induction lines with
  | nil => exact .idle trivial
  | cons line lines ih =>
    rw [List.forall_mem_cons] at h
    exact (lays_simple H h.1).seq fun _ _ => ih h.2

theorem lays_splice (hl : l.HoistsSimple) (h : Text.endsWith text ";" = true) :
    Lays (items []) (fun _ => True) (env.splice l.hoists text) := by
  have hl := List.forall_mem_append.mp hl
  exact (lays_emitAll H hl.1).seq fun _ _ => (lays_simple H h).seq fun _ _ => lays_emitAll H hl.2

theorem lays_bind (hl : l.HoistsSimple) (word : String) :
    Lays (items []) (fun _ => True) (env.bind word l) := by
  have hl := List.forall_mem_append.mp hl
  have htemp : env.Silent [] (Lower.temp word) := .temp word
  refine (lays_emitAll H hl.1).seq fun _ _ => (?_ : Lays (items []) _ _)
  split
  · exact .idle trivial
  · exact (Lays.quiet htemp).after fun _ _ => (lays_simple H (H.localDeclaration _ _ _ _)).seq
      fun _ _ => (lays_emitAll H hl.2).next fun _ _ => .pure trivial

theorem lays_expressionStatement (hl : l.HoistsSimple) :
    Lays (items []) (fun _ => True) (env.expressionStatement l) := by
  unfold expressionStatement
  split
  · exact lays_splice H hl (H.expressionStatement _)
  · exact .idle trivial

/-- A value and the statement that uses it. -/
theorem lays_bound (hl : l.HoistsSimple) (word : String) {line : String → String}
    (h : ∀ code, Text.endsWith (line code) ";" = true) :
    Lays (items []) (fun _ => True) (env.bound word l line) :=
  (lays_bind H hl word).seq fun code _ => lays_simple H (h code)

/-! ## Blocks -/

theorem lays_close {last : String} {closing : ClosingLine} (hlast : last = closing.text) :
    Lays (rest [] []) (fun _ => True) (env.emit last) :=
  hlast ▸ (lays_emit H closing.text).mono rest_nil

/-- A block: its first line, its first part, and all that follows. -/
theorem lays_block (h : Opens text) {body tail : Lower Unit}
    (hbody : Lays (items ts) (fun _ => True) body)
    (htail : Lays (any (rest us)) (fun _ => True) tail) :
    Lays (items (ts ++ us)) (fun _ => True) (do env.emit text; Lower.indented body; tail) :=
  (lays_emit H text).three (items_block h) hbody.indented htail

/-- A block with one part. -/
theorem lays_between (h : Opens text) {last : String} {closing : ClosingLine}
    (hlast : last = closing.text) {body : Lower Unit}
    (hbody : Lays (items ts) (fun _ => True) body) :
    Lays (items ts) (fun _ => True) (do env.emit text; Lower.indented body; env.emit last) := by
  have hblock := lays_block H h hbody ((lays_close H hlast).mono fun hx => ⟨[], hx⟩)
  rwa [List.append_nil] at hblock

theorem lays_try {f : TryForm} {body tail : Lower Unit}
    (hbody : Lays (items ts) (fun _ => True) body)
    (htail : Lays (rest us f.heads) (fun _ => True) tail) :
    Lays (items (f :: (ts ++ us))) (fun _ => True)
      (do env.emit env.dialect.tryHeader; Lower.indented body; tail) := by
  rw [H.tryHeader]
  exact (lays_emit H tryLine).three items_try hbody.indented htail

theorem lays_catch (name ty : Option String) {body tail : Lower Unit}
    (hbody : Lays (items ts) (fun _ => True) body)
    (htail : Lays (clauses us heads) (fun _ => True) tail) :
    Lays (clauses (ts ++ us) (catchLine name :: heads)) (fun _ => True)
      (do env.emit (env.dialect.catchHeader name ty); Lower.indented body; tail) := by
  rw [H.catchHeader]
  exact (lays_emit H _).three (clauses_cons (continues_catchLine name)) hbody.indented htail

/-- The last part of a `try` and its end. -/
theorem lays_finally {body : Lower Unit} (hbody : Lays (items ts) (fun _ => True) body) :
    Lays (rest ts [finallyLine]) (fun _ => True) (do
      env.emit env.dialect.finallyHeader
      Lower.indented body
      env.emit env.dialect.blockClose) := by
  rw [H.finallyHeader, H.blockClose]
  refine (lays_emit H finallyLine).three (fun hx hy hz => ?_) hbody.indented (lays_emit H _)
  have hrest := rest_append (clauses_one continues_finallyLine hx hy) (rest_nil hz)
  rwa [List.append_nil, List.append_assoc] at hrest

/-! ## Statements -/

theorem lays_exitUnless (hl : l.HoistsSimple) :
    Lays (items []) (fun _ => True) (env.exitUnless l) :=
  (lays_bind H hl "cond").seq fun _ _ =>
    lays_between H (H.ifHeader _) H.blockClose (lays_simple H H.breakStatement)

theorem lays_loopWithExit (hl : l.HoistsSimple) (testLast : Bool) {body : Lower Unit}
    (hbody : Lays (items ts) (fun _ => True) body) :
    Lays (items ts) (fun _ => True) (env.loopWithExit l testLast body) := by
  have hexit := lays_exitUnless H hl
  have htemp : env.Silent [] (Lower.temp "first") := .temp "first"
  dsimp only [Surroundings.loopWithExit]
  split
  · refine (Lays.quiet htemp).after fun first _ =>
      (lays_simple H (H.localDeclaration _ _ _ _)).seq fun _ _ =>
        lays_between H (H.whileHeader _) H.blockClose ?_
    have hskip : Lays (items []) (fun _ => True) (do
        env.emit (env.dialect.ifHeader (env.dialect.prefixUnary .not first))
        Lower.indented (env.exitUnless l)
        env.emit env.dialect.blockClose) := lays_between H (H.ifHeader _) H.blockClose hexit
    have hrounds := hskip.seq fun _ _ =>
      (lays_simple H (H.expressionStatement
        (env.dialect.assignment first .assign (env.dialect.literal .boolFalse "false")))).seq
          fun _ _ => hbody
    simpa only [bind_assoc, List.nil_append] using hrounds
  · exact lays_between H (H.whileHeader _) H.blockClose (hexit.seq fun _ _ => hbody)

theorem lays_guarded {acquire : Lower (List String)} {body : Lower Unit}
    (hacquire : Lays (items []) (fun _ => True) acquire)
    (hbody : Lays (items ts) (fun _ => True) body) :
    Lays (items (TryForm.release :: ts)) (fun _ => True) (env.guarded acquire body) := by
  refine lays_between H H.blockOpen H.blockClose (hacquire.seq fun resources _ => ?_)
  have hrelease : Lays (items []) (fun _ => True)
      (env.emitAll (resources.reverse.map env.dialect.dispose)) := by
    refine lays_emitAll H fun line hline => ?_
    obtain ⟨resource, -, rfl⟩ := List.mem_map.mp hline
    exact H.dispose resource
  have hlast : Lays (rest [] TryForm.release.heads) (fun _ => True) _ := lays_finally H hrelease
  have htry := lays_try H hbody hlast
  rwa [List.append_nil] at htry

end lines

end Surroundings

/-- As an alternative a statement is a further part of a block. -/
def Shape.placed (place : Place) (ts : List TryForm) : Shape :=
  match place with
  | .alternative => any (clauses ts)
  | _ => items ts

namespace Surroundings
open Lower Shape TypeScript
variable {env : Surroundings}

section parts
variable (H : env.dialect.Braced)
include H

theorem lays_placed {ts : List TryForm} (place : Place) {m : Lower Unit}
    (hm : Lays (items ts) (fun _ => True) m) :
    Lays (Shape.placed place ts) (fun _ => True) (env.placed place m) := by
  cases place with
  | line | inner => exact hm
  | alternative =>
    exact (lays_emit H _).bind (fun hx hy => ⟨_, clauses_one H.elseHeader hx hy⟩)
      fun _ _ => hm.indented

theorem lays_declarators (ty : Option String) (ds : List Declarator) :
    Lays (items []) (fun _ => True) (env.declarators ty ds) := by
  induction ds with
  | nil => exact .idle trivial
  | cons d ds ih =>
    obtain ⟨id, name, init⟩ := d
    rw [declarators.eq_def]
    cases init with
    | none =>
      exact (Lays.quiet (env.silent_declareLocal name false)).after fun _ _ =>
        (lays_simple H (H.localDeclaration _ _ _ _)).seq fun _ _ => ih
    | some e =>
      exact (lays_expr H none e).after fun l hl =>
        (Lays.quiet (env.silent_declareLocal name true)).after fun _ _ =>
          (lays_splice H hl (H.localDeclaration _ _ _ _)).seq fun _ _ => ih

theorem lays_headDeclarators (ds : List Declarator) :
    Lays (items []) (fun _ => True) (env.headDeclarators ds) := by
  induction ds with
  | nil => exact .idle trivial
  | cons d ds ih =>
    obtain ⟨id, name, init⟩ := d
    have hdeclare : env.Silent [{ name }] (Lower.declare { name }) := .declare name
    rw [headDeclarators.eq_def]
    refine (Lays.quiet hdeclare).after fun _ _ => ?_
    cases init with
    | none =>
      exact (Lays.idle trivial).seq fun _ (_ : True) => ih.next fun _ _ => .pure trivial
    | some e =>
      exact (lays_expr H none e).after fun l hl => (Lays.quiet (env.silent_refuse _ _)).after
        fun _ _ => (lays_emitAll H (List.forall_mem_append.mp hl).1).seq fun _ _ =>
          (Lays.idle trivial).seq fun _ (_ : True) => ih.next fun _ _ => .pure trivial

theorem lays_headInitializers (es : List Expr) :
    Lays (items []) (fun _ => True) (env.headInitializers es) := by
  induction es with
  | nil => exact .idle trivial
  | cons e es ih =>
    rw [headInitializers.eq_def]
    exact (lays_expr H none e).after fun l hl => (Lays.quiet (env.silent_refuse _ _)).after
      fun _ _ => (lays_emitAll H (List.forall_mem_append.mp hl).1).seq fun _ _ =>
        ih.next fun _ _ => .pure trivial

theorem lays_headIncrementors (es : List Expr) :
    Lays nothing (fun _ => True) (env.headIncrementors es) := by
  induction es with
  | nil => exact .pure trivial
  | cons e es ih =>
    rw [headIncrementors.eq_def]
    exact (lays_expr H none e).after fun l _ => (Lays.quiet (env.silent_refuse _ _)).after
      fun _ _ => ih.next fun _ _ => .pure trivial

/-- Labels, each on a line of its own. -/
theorem lays_labels (ls : List SwitchLabel) :
    Lays (fun depth lines => ∃ labels : List LabelLine,
      lines = labels.map fun label => indent depth label.text) (fun _ => True) (env.labels ls) := by
  induction ls with
  | nil => exact (Lays.pure trivial).mono fun hx => ⟨[], hx⟩
  | cons label ls ih =>
    have hcons (line : LabelLine) {text : String} (htext : text = line.text) :
        Lays (fun depth lines => ∃ labels : List LabelLine,
          lines = labels.map fun label => indent depth label.text) (fun _ => True)
          (env.emit text >>= fun _ => env.labels ls) := by
      refine (lays_emit H text).bind (fun hx hy => ?_) fun _ _ => ih
      obtain ⟨labels, rfl⟩ := hy
      exact ⟨line :: labels, by rw [show _ = _ from hx, htext]; rfl⟩
    rw [labels.eq_def]
    cases label with
    | case value =>
      exact (lays_expr H none value).after fun l _ => (Lays.quiet (env.silent_refuse _ _)).after
        fun _ _ => hcons (.case l.code) (H.caseLabel l.code)
    | default => exact hcons .default H.defaultLabel

/-- A condition with its branches: under the `if` before it, or a block of its own. -/
theorem lays_ifElse (place : Place) {l : Lowered} (hl : l.HoistsSimple) {ts us : List TryForm}
    {body alternative : Lower Unit} (hbody : Lays (items ts) (fun _ => True) body)
    (halternative : Lays (any (clauses us)) (fun _ => True) alternative) :
    Lays (Shape.placed place (ts ++ us)) (fun _ => True)
      (if place = .alternative ∧ l.hoists.isEmpty then do
        env.emit (env.dialect.elseIfHeader l.code)
        Lower.indented body
        alternative
      else env.placed place do
        env.bound "cond" l env.dialect.ifHeader
        Lower.indented body
        alternative
        env.emit env.dialect.blockClose) := by
  split
  next h =>
    rw [h.1]
    refine (lays_emit H _).three (fun hx hy hz => ?_) hbody.indented halternative
    obtain ⟨heads, hz⟩ := hz
    exact ⟨_, clauses_cons (H.elseIfHeader _) hx hy hz⟩
  next =>
    refine lays_placed H place ?_
    have htail : Lays (any (rest us)) _ (alternative >>= fun _ => _) :=
      halternative.bind any_rest_append fun _ _ => lays_close H H.blockClose
    have hblock := (lays_bind H hl "cond").seq fun code _ =>
      lays_block H (H.ifHeader code) hbody htail
    simpa only [Surroundings.bound, bind_assoc, List.nil_append] using hblock

theorem lays_forCondition (e : Expr) :
    Lays nothing (fun _ => True) (do
      let l ← env.expr none e
      env.refuse .forCondition (l.hoists.before ++ l.hoists.after)
      pure (some l.code)) :=
  (lays_expr H none e).after fun _ _ =>
    (Lays.quiet (env.silent_refuse _ _)).after fun _ _ => .pure trivial

end parts

mutual

theorem lays_stmt (H : env.dialect.Braced) (place : Place) (st : Stmt) :
    Lays (Shape.placed place (TryForm.ofStmt st)) (fun _ => True) (env.stmt place st) := by
  rw [stmt.eq_def]
  match st with
  | .expression _ e =>
    exact lays_placed H place ((lays_expr H none e).after fun _ hl =>
      lays_expressionStatement H hl)
  | .ret _ (some e) =>
    exact lays_placed H place ((lays_expr H none e).after fun _ hl =>
      lays_bound H hl _ fun code => H.returnStatement (some code))
  | .throw _ (some e) =>
    exact lays_placed H place ((lays_expr H none e).after fun _ hl =>
      lays_bound H hl _ fun code => H.throwStatement (some code))
  | .ret _ none => exact lays_placed H place (lays_simple H (H.returnStatement none))
  | .throw _ none => exact lays_placed H place (lays_simple H (H.throwStatement none))
  | .breakLoop _ => exact lays_placed H place (lays_simple H H.breakStatement)
  | .continueLoop _ => exact lays_placed H place (lays_simple H H.continueStatement)
  | .locals _ ⟨ty, ds⟩ =>
    exact lays_placed H place ((Lays.quiet (env.silent.spellType? _)).after fun _ _ =>
      lays_declarators H _ ds)
  | .switch _ subject sections =>
    refine lays_placed H place ((lays_expr H none subject).after fun l hl => ?_)
    rw [H.blockClose]
    have hswitch := (lays_bind H hl "cond").seq fun code _ =>
      (lays_emit H (switchLine code)).three items_switch (lays_switchSections H sections).indented
        (lays_emit H _)
    simpa only [Surroundings.bound, H.switchHeader, bind_assoc, TryForm.ofStmt, List.nil_append]
      using hswitch
  | .block _ statements =>
    match place with
    | .line => exact lays_between H H.blockOpen H.blockClose (lays_stmts H statements)
    | .inner => exact lays_placed H .inner (lays_stmts H statements)
    | .alternative => exact lays_placed H .alternative (lays_stmts H statements)
  | .ifElse _ condition thenBranch (some s) =>
    -- The other branch leaves clauses, which the closing line of this statement ends.
    refine (lays_expr H none condition).after fun l hl => ?_
    have hif := lays_ifElse H place hl (lays_stmt H .inner thenBranch) (lays_stmt H .alternative s)
    simpa only [bind_assoc, TryForm.ofStmt] using hif
  | .ifElse _ condition thenBranch none =>
    have hnone : Lays (any (clauses [])) (fun _ => True) (Pure.pure () : Lower Unit) :=
      (Lays.pure trivial).mono fun hx => hx ▸ ⟨[], clauses_nil⟩
    refine (lays_expr H none condition).after fun l hl => ?_
    have hif := lays_ifElse H place hl (lays_stmt H .inner thenBranch) hnone
    simpa only [bind_assoc, TryForm.ofStmt] using hif
  | .forLoop _ declaration initializers condition incrementors body =>
    have hrounds (init condition : Option String) : Lays (items (TryForm.ofStmt body)) _ _ :=
      (lays_headIncrementors H incrementors).after fun steps _ =>
        lays_between H (H.forHeader init condition steps) H.blockClose (lays_stmt H .inner body)
    refine lays_placed H place ?_
    -- What follows the declaration and the condition is shared by their cases in the program.
    match declaration, condition with
    | some ⟨_, ds⟩, some e =>
      have hloop := (lays_headDeclarators H ds).seq fun declared _ =>
        (lays_forCondition H e).after fun condition _ =>
          hrounds (some (env.dialect.declarationClause declared)) condition
      simpa only [bind_assoc, pure_bind, TryForm.ofStmt, List.nil_append] using hloop
    | some ⟨_, ds⟩, none =>
      have hloop := (lays_headDeclarators H ds).seq fun declared _ =>
        hrounds (some (env.dialect.declarationClause declared)) none
      simpa only [bind_assoc, pure_bind, TryForm.ofStmt, List.nil_append] using hloop
    | none, some e =>
      have hloop := (lays_headInitializers H initializers).seq fun parts _ =>
        (lays_forCondition H e).after fun condition _ =>
          hrounds (if parts.isEmpty then none else some (String.intercalate ", " parts)) condition
      simpa only [bind_assoc, pure_bind, TryForm.ofStmt, List.nil_append] using hloop
    | none, none =>
      have hloop := (lays_headInitializers H initializers).seq fun parts _ =>
        hrounds (if parts.isEmpty then none else some (String.intercalate ", " parts)) none
      simpa only [bind_assoc, pure_bind, TryForm.ofStmt, List.nil_append] using hloop
  | .whileLoop _ condition body =>
    have hbody := lays_stmt H .inner body
    refine lays_placed H place ((lays_expr H none condition).after fun l hl => ?_)
    split
    · exact lays_between H (H.whileHeader _) H.blockClose hbody
    · exact lays_loopWithExit H hl false hbody
  | .doWhile _ body condition =>
    have hbody := lays_stmt H .inner body
    refine lays_placed H place ((lays_expr H none condition).after fun l hl => ?_)
    split
    · exact lays_between H H.doHeader (H.doFooter _) hbody
    · exact lays_loopWithExit H hl true hbody
  | .forEach _ ty name iterable body =>
    have hdeclare : env.Silent [{ name }] (Lower.declare { name }) := .declare name
    exact lays_placed H place ((lays_expr H none iterable).after fun l hl =>
      (lays_bind H hl "iter").seq fun _ _ => (Lays.quiet hdeclare).after fun _ _ =>
        (Lays.quiet (env.silent.spellType? _)).after fun _ _ =>
          lays_between H (H.forEachHeader _ _ _) H.blockClose (lays_stmt H .inner body))
  | .tryCatch _ block catches (some statements) =>
    exact lays_placed H place (lays_try H (lays_stmts H block) ((lays_catchClauses H catches).bind
      rest_append fun _ _ => lays_finally H (lays_stmts H statements)))
  | .tryCatch _ block catches none =>
    exact lays_placed H place (lays_try H (lays_stmts H block) ((lays_catchClauses H catches).bind
      rest_append fun _ _ => lays_close H H.blockClose))
  | .lock _ target body =>
    have hbody := lays_between H H.blockOpen H.blockClose (lays_stmt H .inner body)
    refine lays_placed H place ?_
    dsimp only
    split
    · exact (lays_expr H none target).after fun l hl =>
        (lays_expressionStatement H hl).seq fun _ _ => hbody
    · exact hbody
  | .useResource _ (some ⟨ty, ds⟩) target body =>
    exact lays_placed H place (lays_guarded H ((Lays.quiet (env.silent.spellType? _)).after
      fun _ _ => (lays_declarators H _ ds).next fun _ _ => .pure trivial) (lays_stmt H .inner body))
  | .useResource _ none (some e) body =>
    have htemp : env.Silent [] (Lower.temp "using") := .temp "using"
    exact lays_placed H place (lays_guarded H ((lays_expr H none e).after fun l hl =>
      (Lays.quiet htemp).after fun _ _ =>
        (lays_splice H hl (H.localDeclaration _ _ _ _)).next fun _ _ => .pure trivial)
      (lays_stmt H .inner body))
  | .useResource _ none none body =>
    exact lays_placed H place (lays_guarded H (.idle trivial) (lays_stmt H .inner body))
  | .empty _ => exact lays_placed H place (.idle trivial)
  | .other id construct => exact lays_placed H place (.throw _)

theorem lays_stmts (H : env.dialect.Braced) (ss : List Stmt) :
    Lays (items (TryForm.ofStmts ss)) (fun _ => True) (env.stmts ss) := by
  rw [stmts.eq_def]
  match ss with
  | [] => exact .idle trivial
  | s :: ss => exact (lays_stmt H .line s).seq fun _ _ => lays_stmts H ss

theorem lays_catchClauses (H : env.dialect.Braced) (cs : List CatchClause) :
    Lays (clauses (TryForm.ofCatches cs) ((cs.map CatchClause.name).map catchLine)) (fun _ => True)
      (env.catchClauses cs) := by
  rw [catchClauses.eq_def]
  match cs with
  | [] => exact (Lays.pure trivial).mono fun hx => hx ▸ clauses_nil
  | ⟨ty, name, block⟩ :: cs =>
    have hclause (ty : Option String) :=
      lays_catch H name ty (lays_stmts H block) (lays_catchClauses H cs)
    match name with
    | some name =>
      have hdeclare : env.Silent [{ name }] (Lower.declare { name }) := .declare name
      exact (Lays.quiet hdeclare).after fun _ _ =>
        (Lays.quiet (env.silent.spellType? _)).after fun ty _ => hclause ty
    | none => exact (Lays.quiet (env.silent.spellType? _)).after fun ty _ => hclause ty

theorem lays_switchSections (H : env.dialect.Braced) (ss : List SwitchSection) :
    Lays (sections (TryForm.ofSections ss)) (fun _ => True) (env.switchSections ss) := by
  rw [switchSections.eq_def]
  match ss with
  | [] => exact (Lays.pure trivial).mono fun hx => ⟨[], hx, rfl⟩
  | ⟨ls, statements⟩ :: ss =>
    refine (lays_labels H ls).three (fun hx hy hz => ?_) (lays_stmts H statements).indented
      (lays_switchSections H ss)
    obtain ⟨labels, hlabels⟩ := hx
    exact sections_cons hlabels hy hz

end

/-! ## Bodies -/

theorem run_of_isOk {m : Lower Unit} {s : LowerState} (h : (m s).1.isOk = true) :
    m s = (.ok (), (m s).2) := by
  rcases hm : m s with ⟨r, t⟩
  rw [hm] at h
  cases r with
  | error e => cases h
  | ok => rfl

/-- The lines of a body are read as items at the level it starts from, to which it comes back, and
the lines before it stay, also where it fails. The `try` blocks among the items are those of the
body. -/
theorem stmts_writes_items (hd : env.dialect = TypeScript.dialect) (ss : List Stmt)
    (s : LowerState) :
    s.lines <+: (env.stmts ss s).2.lines ∧ (env.stmts ss s).2.depth = s.depth ∧
    ∀ t, env.stmts ss s = (.ok (), t) →
      ∃ items : List Item, t.lines = s.lines ++ Item.linesOf s.depth items ∧
        Item.triesOf items = (TryForm.ofStmts ss).map TryForm.heads := by
  have hkeeps := (env.keeps_stmts ss).1 s
  refine ⟨hkeeps.lines, hkeeps.depth, fun t hrun => ?_⟩
  obtain ⟨-, -, lines, hlines, items, rfl, htries⟩ :=
    lays_stmts (hd ▸ dialect_braced) ss s () t hrun
  exact ⟨items, hlines, htries⟩

/-- `if (ready) try { break; } catch (E e) { throw; }
else if (TryNext(out var item)) using (item);` -/
def takesOrLeaves : Stmt :=
  .ifElse 0 (.identifier 0 "ready")
    (.tryCatch 0 [.breakLoop 0] [⟨none, some "e", [.throw 0 none]⟩] none)
    (some (.ifElse 0 .takesNext
      (.useResource 0 none (some (.identifier 0 "item")) (.empty 0)) none))

/-- The lines of `takesOrLeaves` at the first level. -/
def takesOrLeavesLines : List String :=
  ["  if (ready) \x7b",
    "    try \x7b",
    "      break;",
    "    \x7d catch (e) \x7b",
    "      throw e;",
    "    \x7d",
    "  \x7d else \x7b",
    "    const out_1: \x7b value: any \x7d = \x7b value: undefined \x7d;",
    "    const cond_2 = TryNext(out_1);",
    "    let item = out_1.value;",
    "    if (cond_2) \x7b",
    "      \x7b",
    "        const using_3 = item;",
    "        try \x7b",
    "        \x7d finally \x7b",
    "          using_3.Dispose();",
    "        \x7d",
    "      \x7d",
    "    \x7d",
    "  \x7d"]

theorem takesOrLeaves_writes_items :
    ∃ items : List Item, takesOrLeavesLines = Item.linesOf 1 items ∧
      Item.triesOf items = [["\x7d catch (e) \x7b"], ["\x7d finally \x7b"]] := by
  have hlines : (emptyProgram.stmts [takesOrLeaves] { depth := 1 }).2.lines =
      takesOrLeavesLines := by decide +kernel
  have hok : (emptyProgram.stmts [takesOrLeaves] { depth := 1 }).1.isOk = true := by
    decide +kernel
  obtain ⟨items, hitems, htries⟩ := (stmts_writes_items rfl _ _).2.2 _ (run_of_isOk hok)
  exact ⟨items, hlines.symm.trans hitems, htries⟩

end Surroundings

end Recast
