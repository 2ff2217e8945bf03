import Recast.Proofs.Lowering.Operands
import Recast.Proofs.Lowering.Parts
import Recast.Proofs.Lowering.Splicing

/-! # Parts that are shown

A part that is written stands in the lines as it was lowered: nothing around it changes its text.
For the parts of a statement this follows the lines that the statement writes, for the parts of an
expression the form that its code takes.
-/
namespace Recast

/-- A place in a body: not behind a dot, the scope is that of the body. -/
structure Scope.InBody (body : Scope) (facing : Bool) (s : Scope) : Prop where
  same : body.owned = true → facing = false → s = body
  owned : s.owned = body.owned
  facing : s.facing = facing

/-- Behind a dot there is a receiver wherever there is an owner. -/
theorem Scope.InBody.push {body s : Scope} {facing : Bool} (h : body.InBody facing s)
    (receiver : ClassRef) : body.InBody body.owned (s.push (.ofClass receiver)) where
  same howned hfree := absurd (hfree.symm.trans howned) Bool.false_ne_true
  owned := (s.owned_push_ofClass receiver).trans h.owned
  facing := (s.facing_push_ofClass receiver).trans h.owned

/-- A name that can be that of a class, and may then be replaced by the name of another class. -/
def Surroundings.canNameClass (env : Surroundings) : Expr → Bool
  | .identifier id name | .genericName id name _ =>
    match env.oracle.symbolOf? id with
    | some symbol => symbol.kind == .type
    | none => (env.program.find? name).isSome
  | _ => false

def Hoists.lines (h : Hoists) : List String := h.before ++ h.after

/-- All texts of a lowered expression. -/
def Lowered.texts (l : Lowered) : List String := l.code :: l.hoists.lines

/-- The expression is lowered so in some place of the body. -/
def Surroundings.LowersTo (env : Surroundings) (σ : Scope) (facing : Bool) (e : Expr)
    (l : Lowered) : Prop :=
  ∃ owner s t, env.expr owner e s = (.ok l, t) ∧ σ.InBody facing s.scope

namespace Part
open Text
variable (env : Surroundings) (σ : Scope)

/-- If the part is written, the texts have the code and the lines that it is lowered to. -/
def Shown (texts : List String) (c : Part) : Prop :=
  0 < c.copies ∨ 0 < c.lines → ∃ l, env.LowersTo σ c.facing c.expr l ∧
    (0 < c.copies → env.canNameClass c.expr = true ∨ Covers texts [l.code]) ∧
    (0 < c.lines → Covers texts l.hoists.lines)

/-- All of the parts are shown. -/
def AllShown (texts : List String) (ps : List Part) : Prop := ∀ c ∈ ps, c.Shown env σ texts

variable {env σ} {texts more : List String} {c : Part} {ps qs : List Part}
  {facing : Bool} {e : Expr} {l : Lowered}

theorem Shown.mono (h : c.Shown env σ texts) (hcovers : Covers more texts) :
    c.Shown env σ more := by
  intro hwritten
  obtain ⟨l, hl, hcode, hlines⟩ := h hwritten
  exact ⟨l, hl, fun hc => (hcode hc).imp_right hcovers.trans, fun hc => hcovers.trans (hlines hc)⟩

theorem shown_of_texts (hl : env.LowersTo σ facing e l) (h : Covers texts l.texts) (n : Nat) :
    Shown env σ texts ⟨n, n, facing, e⟩ := by
  have hcode : Covers texts [l.code] := h.anti (by simp [Lowered.texts])
  have hlines : Covers texts l.hoists.lines := h.anti (by simp [Lowered.texts])
  exact fun _ => ⟨l, hl, fun _ => .inr hcode, fun _ => hlines⟩

theorem shown_idle (texts : List String) (facing : Bool) (e : Expr) :
    Shown env σ texts ⟨0, 0, facing, e⟩ := by
  rintro (h | h)
  · exact absurd h (Nat.lt_irrefl 0)
  · exact absurd h (Nat.lt_irrefl 0)

namespace AllShown

theorem nil : AllShown env σ texts [] := List.forall_mem_nil _

theorem one (h : c.Shown env σ texts) : AllShown env σ texts [c] :=
  List.forall_mem_singleton.mpr h

theorem append (h : AllShown env σ texts ps) (h' : AllShown env σ texts qs) :
    AllShown env σ texts (ps ++ qs) := List.forall_mem_append.mpr ⟨h, h'⟩

theorem mono (h : AllShown env σ texts ps) (hcovers : Covers more texts) :
    AllShown env σ more ps := fun c hc => (h c hc).mono hcovers

end AllShown

end Part

namespace Lower
open Text
variable {α β : Type} {m : Lower α} {f : α → Lower β} {σ : Scope} {facing : Bool}
  {Q R : α → List String → Prop} {S : β → List String → Prop}

/-- If `m` succeeds in a place of the body, it comes back to the place and has written lines with
the property. -/
def Leaves (σ : Scope) (facing : Bool) (Q : α → List String → Prop) (m : Lower α) : Prop :=
  ∀ s a t, m s = (.ok a, t) → σ.InBody facing s.scope →
    t.scope = s.scope ∧ ∃ lines, t.lines = s.lines ++ lines ∧ Q a lines

namespace Leaves

theorem mono (hm : Leaves σ facing Q m) (h : ∀ {a xs}, Q a xs → R a xs) :
    Leaves σ facing R m := by
  intro s a t hrun hs
  obtain ⟨hscope, lines, hlines, hQ⟩ := hm s a t hrun hs
  exact ⟨hscope, lines, hlines, h hQ⟩

theorem pure {a : α} (h : Q a []) : Leaves σ facing Q (Pure.pure a : Lower α) := by
  intro s b t hrun _
  obtain ⟨rfl, rfl⟩ := ok_of_pure hrun
  exact ⟨rfl, [], (List.append_nil _).symm, h⟩

theorem throw (e : LowerError) : Leaves σ facing Q (MonadExcept.throw e : Lower α) := by
  intro s a t hrun
  cases hrun

theorem bind (hm : Leaves σ facing Q m)
    (hf : ∀ a xs, Q a xs → Leaves σ facing (fun b ys => S b (xs ++ ys)) (f a)) :
    Leaves σ facing S (m >>= f) := by
  intro s b t hrun hs
  obtain ⟨a, u, h₁, h₂⟩ := ok_of_bind hrun
  obtain ⟨hu, xs, hxs, hQ⟩ := hm s a u h₁ hs
  obtain ⟨ht, ys, hys, hS⟩ := hf a xs hQ u b t h₂ (hu ▸ hs)
  refine ⟨ht.trans hu, xs ++ ys, ?_, hS⟩
  rw [hys, hxs, List.append_assoc]

theorem indented (hm : Leaves σ facing Q m) : Leaves σ facing Q (Lower.indented m) := by
  intro s a t hrun hs
  obtain ⟨u, hu, rfl⟩ := ok_of_indented hrun
  exact hm { s with depth := s.depth + 1 } a u hu hs

theorem of_keeps {env : Surroundings} {A : List Site} (hm : env.Keeps A m) :
    Leaves σ facing (fun _ _ => True) m := by
  intro s a t hrun _
  have hext := hm.1 s
  rw [hrun] at hext
  obtain ⟨lines, hlines⟩ := hext.lines
  exact ⟨hext.scope, lines, hlines.symm, trivial⟩

theorem of_silent {env : Surroundings} {A : List Site} {P : α → Prop} (hm : env.Silent A m)
    (h : ∀ s a t, m s = (.ok a, t) → σ.InBody facing s.scope → P a) :
    Leaves σ facing (fun a xs => P a ∧ xs = []) m := by
  intro s a t hrun hs
  refine ⟨hm.scope_eq hrun, [], ?_, h s a t hrun hs, rfl⟩
  rw [hm.lines_eq hrun, List.append_nil]

theorem quiet {env : Surroundings} {A : List Site} (hm : env.Silent A m) :
    Leaves σ facing (fun _ xs => True ∧ xs = []) m := of_silent hm fun _ _ _ _ _ => trivial

/-- The first step writes nothing. -/
theorem after {P : α → Prop} (hm : Leaves σ facing (fun a xs => P a ∧ xs = []) m)
    (hf : ∀ a, P a → Leaves σ facing S (f a)) : Leaves σ facing S (m >>= f) := by
  refine hm.bind fun a xs ha => ?_
  obtain ⟨ha, rfl⟩ := ha
  exact hf a ha

end Leaves

/-- What `m` writes shows the parts. -/
def Shows (env : Surroundings) (σ : Scope) (facing : Bool) (ps : List Part) (m : Lower α) : Prop :=
  Leaves σ facing (fun _ xs => Part.AllShown env σ xs ps) m

namespace Shows
variable {env : Surroundings} {ps qs : List Part} {A : List Site}

theorem sub (hm : Shows env σ facing ps m) (h : qs ⊆ ps) : Shows env σ facing qs m :=
  Leaves.mono hm fun hps c hc => hps c (h hc)

theorem of_keeps (hm : env.Keeps A m) : Shows env σ facing [] m :=
  (Leaves.of_keeps hm).mono fun _ => .nil

theorem pure (a : α) : Shows env σ facing [] (Pure.pure a : Lower α) := Leaves.pure .nil

theorem seq (hm : Shows env σ facing ps m) (hf : ∀ a, Shows env σ facing qs (f a)) :
    Shows env σ facing (ps ++ qs) (m >>= f) := by
  refine Leaves.bind hm fun a xs hxs => Leaves.mono (hf a) fun hys => ?_
  exact (hxs.mono (.of_subset (List.subset_append_left ..))).append
    (hys.mono (.of_subset (List.subset_append_right ..)))

/-- The first step shows nothing. -/
theorem next (hm : env.Keeps A m) (hf : ∀ a, Shows env σ facing qs (f a)) :
    Shows env σ facing qs (m >>= f) := (of_keeps hm).seq hf

/-- The second step shows nothing. -/
theorem done (hm : Shows env σ facing ps m) (hf : ∀ a, env.Keeps A (f a)) :
    Shows env σ facing ps (m >>= f) :=
  (hm.seq fun a => of_keeps (hf a)).sub (List.subset_append_left ..)

theorem indented (hm : Shows env σ facing ps m) :
    Shows env σ facing ps (Lower.indented m) := Leaves.indented hm

end Shows

end Lower

namespace Surroundings
open Text Lower
variable {env : Surroundings} {σ : Scope} {facing : Bool} {e : Expr} {l : Lowered} {ps : List Part}
  {n : Nat}

theorem leaves_emitAll (lines : List String) :
    Leaves σ facing (fun _ xs => Covers xs lines) (env.emitAll lines) := by
  intro s a t hrun _
  rw [emitAll_eq] at hrun
  cases hrun
  refine ⟨rfl, _, rfl, fun line hline => ?_⟩
  exact ⟨_, List.mem_map_of_mem hline, contains_append_left (contains_self line) _⟩

theorem leaves_emit (line : String) :
    Leaves σ facing (fun _ xs => Covers xs [line]) (env.emit line) := by
  intro s a t hrun _
  cases hrun
  refine ⟨rfl, _, rfl, covers_one.mpr (List.forall_mem_singleton.mpr ?_)⟩
  exact contains_append_left (contains_self line) _

theorem leaves_expr (owner : Option ClassId) (e : Expr) :
    Leaves σ facing (fun l xs => env.LowersTo σ facing e l ∧ xs = [])
      (env.expr owner e) :=
  .of_silent (env.silent_expr owner e) fun s _ t hrun hs => ⟨owner, s, t, hrun, hs⟩

/-- An expression and what is done with it. -/
theorem shows_expr {α : Type} {f : Lowered → Lower α} (owner : Option ClassId) (e : Expr)
    (hf : ∀ l, env.LowersTo σ facing e l → Shows env σ facing ps (f l)) :
    Shows env σ facing ps (env.expr owner e >>= f) := Leaves.after (leaves_expr owner e) hf

theorem leaves_splice (h : Hoists) (line : String) :
    Leaves σ facing (fun _ xs => Covers xs (line :: h.lines)) (env.splice h line) := by
  refine (leaves_emitAll h.before).bind fun _ xs hxs => (leaves_emit line).bind fun _ ys hys =>
    (leaves_emitAll h.after).mono fun {_ zs} hzs => ?_
  exact .cons (hys.mono (by simp)) (.append (hxs.mono (by simp)) (hzs.mono (by simp)))

theorem shows_splice (hl : env.LowersTo σ facing e l) {line : String}
    (hline : Covers [line] [l.code]) :
    Shows env σ facing [⟨n, n, facing, e⟩] (env.splice l.hoists line) := by
  refine (leaves_splice l.hoists line).mono fun h => .one (Part.shown_of_texts hl ?_ n)
  exact h.trans (.cons (hline.mono (by simp)) (.of_subset (by simp)))

omit env in
theorem lines_of_isEmpty {h : Hoists} (hempty : h.isEmpty = true) : h.lines = [] := by
  rw [Hoists.isEmpty, Bool.and_eq_true, List.isEmpty_iff, List.isEmpty_iff] at hempty
  rw [Hoists.lines, hempty.1, hempty.2]
  rfl

/-- A line that uses an expression without lines. -/
theorem shows_emit (hl : env.LowersTo σ facing e l) (hempty : l.hoists.lines = [])
    {line : String} (hline : Covers [line] [l.code]) :
    Shows env σ facing [⟨n, n, facing, e⟩] (env.emit line) := by
  refine (leaves_emit line).mono fun h => .one (Part.shown_of_texts hl ?_ n)
  rw [Lowered.texts, hempty]
  exact h.trans hline

section statements
variable (H : env.dialect.ShowsOperands)
include H

/-- The value is in the lines, or it is handed on. -/
theorem leaves_bind (word : String) (l : Lowered) :
    Leaves σ facing (fun code xs => Covers (code :: xs) l.texts) (env.bind word l) := by
  have htemp : env.Silent [] (Lower.temp word) := .temp word
  refine (leaves_emitAll l.hoists.before).bind fun _ xs hxs => ?_
  split
  next hafter =>
    refine .pure (.cons (.of_subset (by simp)) (.append (hxs.mono fun _ h => by simp [h]) ?_))
    rw [List.isEmpty_iff.mp hafter]
    exact .nil _
  next =>
    refine (Leaves.of_keeps htemp.keeps).bind fun temp ys _ => (leaves_emit _).bind
      fun _ zs hzs => (leaves_emitAll _).bind fun _ ws hws => .pure ?_
    have hcode := hzs.trans (H.localDeclaration temp none l.code false)
    exact .cons (hcode.mono fun _ h => by simp [h])
      (.append (hxs.mono fun _ h => by simp [h]) (hws.mono fun _ h => by simp [h]))

theorem leaves_bound (word : String) (l : Lowered) {line : String → String}
    (hline : ∀ code, Covers [line code] [code]) :
    Leaves σ facing (fun _ xs => Covers xs l.texts) (env.bound word l line) := by
  refine (leaves_bind H word l).bind fun code xs hxs => (leaves_emit _).mono fun {_ ys} hys => ?_
  have htexts : Covers (xs ++ ys) (code :: xs) :=
    .cons ((hys.trans (hline code)).mono (by simp)) (.of_subset (by simp))
  exact htexts.trans hxs

theorem shows_bound (hl : env.LowersTo σ facing e l) (word : String) {line : String → String}
    (hline : ∀ code, Covers [line code] [code]) :
    Shows env σ facing [⟨n, n, facing, e⟩] (env.bound word l line) :=
  (leaves_bound H word l hline).mono fun h => .one (Part.shown_of_texts hl h n)

theorem shows_expressionStatement (hl : env.LowersTo σ facing e l) :
    Shows env σ facing [Part.statement n facing (!e.vanishes env.oracle facing) e]
      (env.expressionStatement l) := by
  obtain ⟨owner, s, t, hrun, hs⟩ := id hl
  have hprocessed := (env.lifts_expr owner e hrun rfl).2
  rw [hs.facing] at hprocessed
  unfold expressionStatement
  rw [hprocessed]
  cases e.vanishes env.oracle facing with
  | true => exact Leaves.pure (.one (Part.shown_idle _ _ _))
  | false => exact shows_splice hl (H.expressionStatement l.code)

theorem shows_exitUnless (hl : env.LowersTo σ facing e l) :
    Shows env σ facing [⟨n, n, facing, e⟩] (env.exitUnless l) := by
  have hheader (code : String) : Covers
      [env.dialect.ifHeader (env.dialect.prefixUnary .not (env.dialect.parenthesized code))]
      [code] :=
    ((H.ifHeader _).trans (H.prefixUnary _ _)).trans (H.parenthesized _)
  have hbound := shows_bound (n := n) H hl "cond" hheader
  have hexit := hbound.done fun _ => (env.keeps_emit env.dialect.breakStatement).indented.next
    fun _ => env.keeps_emit env.dialect.blockClose
  simpa only [exitUnless, bound, bind_assoc] using hexit

theorem shows_loopWithExit (hl : env.LowersTo σ facing e l) (testLast : Bool)
    {body : Lower Unit} (hbody : Shows env σ facing ps body) :
    Shows env σ facing (⟨n, n, facing, e⟩ :: ps) (env.loopWithExit l testLast body) := by
  have hexit : Shows env σ facing [⟨n, n, facing, e⟩] (env.exitUnless l) :=
    shows_exitUnless H hl
  have htemp : env.Silent [] (Lower.temp "first") := .temp "first"
  dsimp only [Surroundings.loopWithExit]
  split
  · refine .next htemp.keeps fun _ => .next (env.keeps_emit _) fun _ =>
      .next (env.keeps_emit _) fun _ => .done (.indented ?_) fun _ => env.keeps_emit _
    exact .next (env.keeps_emit _) fun _ => hexit.indented.seq fun _ =>
      .next (env.keeps_emit _) fun _ => .next (env.keeps_emit _) fun _ => hbody
  · exact .next (env.keeps_emit _) fun _ =>
      .done (hexit.seq fun _ => hbody).indented fun _ => env.keeps_emit _

theorem shows_declarators (ty : Option String) (ds : List Declarator) :
    Shows env σ facing (Part.declarators n facing ds) (env.declarators ty ds) := by
  induction ds with
  | nil => exact .pure ()
  | cons d ds ih =>
    obtain ⟨id, name, init⟩ := d
    rw [declarators.eq_def]
    cases init with
    | none =>
      exact .next (env.silent_declareLocal name false).keeps fun _ =>
        .next (env.keeps_emit _) fun _ => ih
    | some e =>
      exact shows_expr none e fun l hl => .next (env.silent_declareLocal name true).keeps
        fun _ => (shows_splice hl (H.localDeclaration _ _ _ _)).seq fun _ => ih

end statements

theorem shows_placed (place : Place) {m : Lower Unit} (hm : Shows env σ facing ps m) :
    Shows env σ facing ps (env.placed place m) := by
  cases place with
  | line | inner => exact hm
  | alternative => exact .next (env.keeps_emit _) fun _ => hm.indented

theorem shows_guarded {qs : List Part} {acquire : Lower (List String)} {body : Lower Unit}
    (hacquire : Shows env σ facing ps acquire) (hbody : Shows env σ facing qs body) :
    Shows env σ facing (ps ++ qs) (env.guarded acquire body) := by
  have hrelease (resources : List String) : env.Keeps [] (do
      env.emit env.dialect.finallyHeader
      Lower.indented (env.emitAll (resources.reverse.map env.dialect.dispose))
      env.emit env.dialect.blockClose) :=
    (env.keeps_emit _).next fun _ => (env.keeps_emitAll _).indented.next fun _ => env.keeps_emit _
  refine .next (env.keeps_emit _) fun _ => .done (.indented ?_) fun _ => env.keeps_emit _
  exact hacquire.seq fun resources => .next (env.keeps_emit _) fun _ =>
    hbody.indented.done fun _ => hrelease resources

theorem leaves_refuse (barrier : Barrier) (lines : List String) :
    Leaves σ facing (fun _ xs => lines = [] ∧ xs = []) (env.refuse barrier lines) := by
  unfold refuse
  split
  next h => exact .pure ⟨List.isEmpty_iff.mp h, rfl⟩
  next => exact .throw _

/-- Nothing of the parts is lost between the lines and the texts that are handed on. -/
def Hands {α : Type} (env : Surroundings) (σ : Scope) (facing : Bool) (codes : α → List String)
    (ps : List Part) (m : Lower α) : Prop :=
  Leaves σ facing (fun a xs => Part.AllShown env σ (codes a ++ xs) ps) m

/-- The code of an expression in the head of a loop is handed on, and the lines are those before. -/
theorem shown_of_head {texts : List String} (hl : env.LowersTo σ facing e l)
    (hcode : l.code ∈ texts) (hbefore : Covers texts l.hoists.before)
    (hafter : l.hoists.after = []) :
    Part.AllShown env σ texts [⟨n, n, facing, e⟩] := by
  refine .one (Part.shown_of_texts hl (.cons (.of_subset (by simpa using hcode)) ?_) n)
  rw [Hoists.lines, hafter, List.append_nil]
  exact hbefore

theorem hands_headDeclarators (ds : List Declarator) :
    env.Hands σ facing (List.filterMap Prod.snd) (Part.declarators n facing ds)
      (env.headDeclarators ds) := by
  induction ds with
  | nil => exact Leaves.pure .nil
  | cons d ds ih =>
    obtain ⟨id, name, init⟩ := d
    have hdeclare : env.Silent [{ name }] (Lower.declare { name }) := .declare name
    rw [headDeclarators.eq_def]
    refine (Leaves.of_keeps hdeclare.keeps).bind fun _ xs _ => ?_
    cases init with
    | none =>
      exact ih.bind fun rest ys hys => .pure (hys.mono (.of_subset (by grind)))
    | some e =>
      refine (leaves_expr none e).after fun l hl => (leaves_refuse _ _).after fun _ hafter =>
        (leaves_emitAll _).bind fun _ ys hys => ih.bind fun rest zs hzs => .pure ?_
      exact .append (shown_of_head hl (by simp) (hys.mono (by grind)) hafter)
        (hzs.mono (.of_subset (by grind)))

theorem hands_headInitializers (es : List Expr) :
    env.Hands σ facing id (Part.all n n facing es) (env.headInitializers es) := by
  induction es with
  | nil => exact Leaves.pure .nil
  | cons e es ih =>
    rw [headInitializers.eq_def]
    refine (leaves_expr none e).after fun l hl => (leaves_refuse _ _).after fun _ hafter =>
      (leaves_emitAll _).bind fun _ xs hxs => ih.bind fun codes ys hys => .pure ?_
    exact .append (shown_of_head hl (by simp) (hxs.mono (by grind)) hafter)
      (hys.mono (.of_subset (by grind)))

theorem hands_headIncrementors (es : List Expr) :
    env.Hands σ facing id (Part.all n n facing es) (env.headIncrementors es) := by
  induction es with
  | nil => exact Leaves.pure .nil
  | cons e es ih =>
    rw [headIncrementors.eq_def]
    refine (leaves_expr none e).after fun l hl => (leaves_refuse _ _).after fun _ hlines =>
      ih.bind fun codes ys hys => .pure ?_
    obtain ⟨hbefore, hafter⟩ := List.append_eq_nil_iff.mp hlines
    exact .append (shown_of_head hl (by simp) (.of_subset (by simp [hbefore])) hafter)
      (hys.mono (.of_subset (by grind)))

theorem hands_forCondition (e : Expr) :
    env.Hands σ facing Option.toList [⟨n, n, facing, e⟩] (do
      let l ← env.expr none e
      env.refuse .forCondition (l.hoists.before ++ l.hoists.after)
      pure (some l.code)) := by
  refine (leaves_expr none e).after fun l hl => (leaves_refuse _ _).after fun _ hlines =>
    .pure ?_
  obtain ⟨hbefore, hafter⟩ := List.append_eq_nil_iff.mp hlines
  exact shown_of_head hl (by simp) (.of_subset (by simp [hbefore])) hafter

theorem hands_initializerClause (es : List Expr) :
    env.Hands σ facing Option.toList (Part.all n n facing es) (do
      let parts ← env.headInitializers es
      pure (if parts.isEmpty then none else some (String.intercalate ", " parts))) := by
  refine (hands_headInitializers es).bind fun parts xs hxs => .pure (hxs.mono ?_)
  refine .append (fun part hpart => ?_) (.of_subset (by grind))
  have hne : parts.isEmpty = false := List.isEmpty_eq_false_iff_exists_mem.mpr ⟨part, hpart⟩
  exact ⟨_, by simp [hne], contains_intercalate hpart ", "⟩

theorem hands_none : env.Hands σ facing Option.toList [] (pure none : Lower (Option String)) :=
  Leaves.pure .nil

section statements
variable (H : env.dialect.ShowsOperands)
include H

theorem shows_forLoop {qs rs bs : List Part} {init condition : Lower (Option String)}
    {steps : Lower (List String)} {body : Lower Unit}
    (hinit : env.Hands σ facing Option.toList ps init)
    (hcondition : env.Hands σ facing Option.toList qs condition)
    (hsteps : env.Hands σ facing id rs steps) (hbody : Shows env σ facing bs body) :
    Shows env σ facing (ps ++ (qs ++ (rs ++ bs))) (do
      let init ← init
      let condition ← condition
      let steps ← steps
      env.emit (env.dialect.forHeader init condition steps)
      Lower.indented body
      env.emit env.dialect.blockClose) := by
  refine hinit.bind fun init xs hxs => hcondition.bind fun condition ys hys =>
    hsteps.bind fun steps zs hzs => (leaves_emit _).bind fun _ ws hws =>
      Leaves.mono (hbody.indented.done fun _ => env.keeps_emit _) fun {_ vs} hvs => ?_
  have hheader : Covers (xs ++ (ys ++ (zs ++ (ws ++ vs)))) _ :=
    (hws.trans (H.forHeader init condition steps)).mono (by grind)
  exact .append (hxs.mono (.append (hheader.anti (by grind)) (.of_subset (by grind))))
    (.append (hys.mono (.append (hheader.anti (by grind)) (.of_subset (by grind))))
      (.append (hzs.mono (.append (hheader.anti (by grind)) (.of_subset (by grind))))
        (hvs.mono (.of_subset (by grind)))))

theorem shows_forEach (hl : env.LowersTo σ facing e l) (ty : Option SourceType) (name : String)
    {body : Lower Unit} (hbody : Shows env σ facing ps body) :
    Shows env σ facing (⟨n, n, facing, e⟩ :: ps) (do
      let code ← env.bind "iter" l
      Lower.declare { name }
      let ty ← env.spellType? (SourceType.explicit? ty)
      env.emit (env.dialect.forEachHeader name ty code)
      Lower.indented body
      env.emit env.dialect.blockClose) := by
  have hdeclare : env.Silent [{ name }] (Lower.declare { name }) := .declare name
  refine (leaves_bind H "iter" l).bind fun code xs hxs =>
    (Leaves.of_keeps hdeclare.keeps).bind fun _ ys _ =>
      (Leaves.of_keeps (env.silent.spellType? _).keeps).bind fun ty zs _ =>
        (leaves_emit _).bind fun _ ws hws =>
          Leaves.mono (hbody.indented.done fun _ => env.keeps_emit _) fun {_ vs} hvs => ?_
  have hcode : Covers (xs ++ (ys ++ (zs ++ (ws ++ vs)))) (code :: xs) :=
    .cons ((hws.trans (H.forEachHeader name ty code)).mono (by grind)) (.of_subset (by grind))
  exact .append (.one (Part.shown_of_texts hl (hcode.trans hxs) n))
    (hvs.mono (.of_subset (by grind)))

theorem hands_declarationClause (ds : List Declarator) :
    env.Hands σ facing Option.toList (Part.declarators n facing ds) (do
      let parts ← env.headDeclarators ds
      pure (some (env.dialect.declarationClause parts))) := by
  refine (hands_headDeclarators ds).bind fun parts xs hxs => .pure (hxs.mono ?_)
  refine .append (fun init hinit => ?_) (.of_subset (by grind))
  obtain ⟨⟨name, value⟩, hpart, rfl⟩ := List.mem_filterMap.mp hinit
  exact ⟨_, by simp, covers_one.mp (H.declarationClause parts hpart) init (by simp)⟩

theorem shows_labels (ls : List SwitchLabel) :
    Shows env σ facing (Part.labels n facing ls) (env.labels ls) := by
  induction ls with
  | nil => exact .pure ()
  | cons label ls ih =>
    rw [labels.eq_def]
    cases label with
    | case value =>
      exact shows_expr none value fun l hl => (leaves_refuse _ _).after fun _ hlines =>
        (shows_emit hl hlines (H.caseLabel _)).seq fun _ => ih
    | default => exact .next (env.keeps_emit _) fun _ => ih

theorem shows_ifElse (place : Place) (hl : env.LowersTo σ facing e l)
    {branches : Lower Unit} (hbranches : Shows env σ facing ps branches) :
    Shows env σ facing (⟨n, n, facing, e⟩ :: ps)
      (if place = .alternative ∧ l.hoists.isEmpty then do
        env.emit (env.dialect.elseIfHeader l.code)
        branches
      else env.placed place do
        env.bound "cond" l env.dialect.ifHeader
        branches
        env.emit env.dialect.blockClose) := by
  split
  next h =>
    exact (shows_emit hl (lines_of_isEmpty h.2) (H.elseIfHeader _)).seq fun _ => hbranches
  next =>
    exact shows_placed place ((shows_bound H hl "cond" H.ifHeader).seq fun _ =>
      hbranches.done fun _ => env.keeps_emit _)

end statements

mutual

theorem shows_stmt (H : env.dialect.ShowsOperands) (place : Place) (st : Stmt) :
    Shows env σ facing (Part.stmt env n facing st) (env.stmt place st) := by
  rw [stmt.eq_def]
  match st with
  | .expression _ e =>
    exact shows_placed place (shows_expr none e fun _ hl => shows_expressionStatement H hl)
  | .ret _ (some e) =>
    exact shows_placed place (shows_expr none e fun _ hl =>
      shows_bound H hl _ H.returnStatement)
  | .throw _ (some e) =>
    exact shows_placed place (shows_expr none e fun _ hl => shows_bound H hl _ H.throwStatement)
  | .ret _ none | .throw _ none | .breakLoop _ | .continueLoop _ =>
    exact shows_placed place (.of_keeps (env.keeps_emit _))
  | .locals _ ⟨ty, ds⟩ =>
    exact shows_placed place (.next (env.silent.spellType? _).keeps fun _ =>
      shows_declarators H _ ds)
  | .switch _ subject sections =>
    exact shows_placed place (shows_expr none subject fun _ hl =>
      (shows_bound H hl _ H.switchHeader).seq fun _ =>
        (shows_switchSections H sections).indented.done fun _ => env.keeps_emit _)
  | .block _ statements =>
    match place with
    | .line =>
      exact .next (env.keeps_emit _) fun _ =>
        (shows_stmts H statements).indented.done fun _ => env.keeps_emit _
    | .inner => exact shows_placed .inner (shows_stmts H statements)
    | .alternative => exact shows_placed .alternative (shows_stmts H statements)
  | .ifElse _ condition thenBranch (some s) =>
    exact shows_expr none condition fun _ hl => shows_ifElse H place hl
      ((shows_stmt H .inner thenBranch).indented.seq fun _ => shows_stmt H .alternative s)
  | .ifElse _ condition thenBranch none =>
    exact shows_expr none condition fun _ hl => shows_ifElse H place hl
      ((shows_stmt H .inner thenBranch).indented.seq fun _ => .pure ())
  | .forLoop _ declaration initializers condition incrementors body =>
    have hbody := shows_stmt H .inner body
    refine shows_placed place ?_
    match declaration, condition with
    | some ⟨_, ds⟩, some e =>
      have hloop := shows_forLoop H (hands_declarationClause (n := n) H ds)
        (hands_forCondition (n := n) e)
        (hands_headIncrementors (n := n) incrementors) hbody
      simp only [bind_assoc, pure_bind] at hloop ⊢
      exact hloop
    | some ⟨_, ds⟩, none =>
      have hloop := shows_forLoop H (hands_declarationClause (n := n) H ds) hands_none
        (hands_headIncrementors (n := n) incrementors) hbody
      simp only [bind_assoc, pure_bind] at hloop ⊢
      exact hloop
    | none, some e =>
      have hloop := shows_forLoop H (hands_initializerClause (n := n) initializers)
        (hands_forCondition (n := n) e)
        (hands_headIncrementors (n := n) incrementors) hbody
      simp only [bind_assoc, pure_bind] at hloop ⊢
      exact hloop
    | none, none =>
      have hloop := shows_forLoop H (hands_initializerClause (n := n) initializers) hands_none
        (hands_headIncrementors (n := n) incrementors) hbody
      simp only [bind_assoc, pure_bind] at hloop ⊢
      exact hloop
  | .whileLoop _ condition body =>
    have hbody := shows_stmt H .inner body
    refine shows_placed place (shows_expr none condition fun l hl => ?_)
    split
    next h =>
      exact (shows_emit hl (lines_of_isEmpty h) (H.whileHeader _)).seq fun _ =>
        hbody.indented.done fun _ => env.keeps_emit _
    next => exact shows_loopWithExit H hl false hbody
  | .doWhile _ body condition =>
    have hbody := shows_stmt H .inner body
    refine shows_placed place (shows_expr none condition fun l hl => ?_)
    split
    next h =>
      exact .next (env.keeps_emit _) fun _ => hbody.indented.seq fun _ =>
        shows_emit hl (lines_of_isEmpty h) (H.doFooter _)
    next =>
      refine (shows_loopWithExit (n := n) H hl true hbody).sub fun c hc => ?_
      rw [Part.stmt, List.mem_append, List.mem_singleton] at hc
      exact List.mem_cons.mpr hc.symm
  | .forEach _ ty name iterable body =>
    exact shows_placed place (shows_expr none iterable fun _ hl =>
      shows_forEach H hl ty name (shows_stmt H .inner body))
  | .tryCatch _ block catches (some statements) =>
    exact shows_placed place (.next (env.keeps_emit _) fun _ =>
      (shows_stmts H block).indented.seq fun _ => (shows_catchClauses H catches).seq fun _ =>
        .next (env.keeps_emit _) fun _ =>
          (shows_stmts H statements).indented.done fun _ => env.keeps_emit _)
  | .tryCatch _ block catches none =>
    exact shows_placed place (.next (env.keeps_emit _) fun _ =>
      (shows_stmts H block).indented.seq fun _ => (shows_catchClauses H catches).seq fun _ =>
        .of_keeps (env.keeps_emit _))
  | .lock _ target body =>
    have hbody : Shows env σ facing (Part.stmt env n facing body) (do
        env.emit env.dialect.blockOpen
        Lower.indented (env.stmt .inner body)
        env.emit env.dialect.blockClose) :=
      .next (env.keeps_emit _) fun _ =>
        (shows_stmt H .inner body).indented.done fun _ => env.keeps_emit _
    refine shows_placed place ?_
    cases hplain : target.isPlainReference with
    | true =>
      have hidle : Shows env σ facing [⟨0, 0, facing, target⟩] (Pure.pure () : Lower Unit) :=
        Leaves.pure (.one (Part.shown_idle _ _ _))
      have hlock := hidle.seq fun _ => hbody
      simpa [Part.stmt, Part.statement, hplain] using hlock
    | false =>
      have hlock := shows_expr none target fun _ hl =>
        (shows_expressionStatement (n := n) H hl).seq fun _ => hbody
      simpa [Part.stmt, hplain] using hlock
  | .useResource _ (some ⟨ty, ds⟩) target body =>
    exact shows_placed place (shows_guarded (.next (env.silent.spellType? _).keeps fun _ =>
      (shows_declarators H _ ds).done fun _ => (Silent.pure _).keeps) (shows_stmt H .inner body))
  | .useResource _ none (some e) body =>
    have htemp : env.Silent [] (Lower.temp "using") := .temp "using"
    exact shows_placed place (shows_guarded (shows_expr none e fun _ hl =>
      .next htemp.keeps fun _ => (shows_splice hl (H.localDeclaration _ _ _ _)).done
        fun _ => (Silent.pure _).keeps) (shows_stmt H .inner body))
  | .useResource _ none none body =>
    exact shows_placed place (shows_guarded (.pure _) (shows_stmt H .inner body))
  | .empty _ => exact shows_placed place (.pure ())
  | .other id construct => exact shows_placed place (Leaves.throw _)

theorem shows_stmts (H : env.dialect.ShowsOperands) (ss : List Stmt) :
    Shows env σ facing (Part.stmts env n facing ss) (env.stmts ss) := by
  rw [stmts.eq_def]
  match ss with
  | [] => exact .pure ()
  | s :: ss => exact (shows_stmt H .line s).seq fun _ => shows_stmts H ss

theorem shows_switchSections (H : env.dialect.ShowsOperands) (sections : List SwitchSection) :
    Shows env σ facing (Part.switchSections env n facing sections)
      (env.switchSections sections) := by
  rw [switchSections.eq_def]
  match sections with
  | [] => exact .pure ()
  | ⟨ls, statements⟩ :: rest =>
    have hlabels : Shows env σ facing (Part.labels n facing ls) (env.labels ls) :=
      shows_labels H ls
    have hsections := hlabels.seq fun _ =>
      (shows_stmts H statements).indented.seq fun _ => shows_switchSections H rest
    rwa [← List.append_assoc] at hsections

theorem shows_catchClauses (H : env.dialect.ShowsOperands) (catches : List CatchClause) :
    Shows env σ facing (Part.catchClauses env n facing catches)
      (env.catchClauses catches) := by
  rw [catchClauses.eq_def]
  match catches with
  | [] => exact .pure ()
  | ⟨ty, name, block⟩ :: rest =>
    have hclause (ty : Option String) : Shows env σ facing
        (Part.stmts env n facing block ++ Part.catchClauses env n facing rest) (do
          env.emit (env.dialect.catchHeader name ty)
          Lower.indented (env.stmts block)
          env.catchClauses rest) :=
      .next (env.keeps_emit _) fun _ => (shows_stmts H block).indented.seq fun _ =>
        shows_catchClauses H rest
    match name with
    | some name =>
      have hdeclare : env.Silent [{ name }] (Lower.declare { name }) := .declare name
      exact .next hdeclare.keeps fun _ => .next (env.silent.spellType? _).keeps hclause
    | none => exact .next (env.silent.spellType? _).keeps hclause

end

end Surroundings

end Recast
