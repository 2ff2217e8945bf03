import Recast.Proofs.Lowering.Failures
import Recast.Proofs.Lowering.Spared

/-! # What lowering writes

If the names that are looked up are spared, lowering writes what the sheets and plans say: the texts
it makes have their marks, in their order.
-/
namespace Recast

namespace Sheet
variable {k : SoughtName} {a b c s : Sheet} {g h : Hoists} {l r u : Lowered} {args : LoweredArgs}
  {code : String} {ty : Option TypeDesc}

/-- The hoisted lines have the marks. -/
structure Lines (k : SoughtName) (s : Sheet) (h : Hoists) : Prop where
  before : k.ShowsAll s.before h.before
  after : k.ShowsAll s.after h.after

structure Reads (k : SoughtName) (s : Sheet) (l : Lowered) : Prop where
  lines : s.Lines k l.hoists
  code : k.Shows s.code l.code

structure ReadsAll (k : SoughtName) (s : Sheet) (args : LoweredArgs) : Prop where
  lines : s.Lines k args.hoists
  codes : k.ShowsAll s.code args.codes

theorem Lines.append (hs : a.Lines k g) (ht : b.Lines k h) : (a ++ b).Lines k (g ++ h) :=
  ⟨hs.before.append ht.before,hs.after.append ht.after⟩

theorem Lines.uncoded (hs : s.Lines k h) : s.uncoded.Lines k h := ⟨hs.before,hs.after⟩

theorem lines_writes (ms : List Mark) : (writes ms).Lines k {} := ⟨.nil,.nil⟩

theorem Lines.append_writes (hs : a.Lines k h) (ms : List Mark) : (a ++ writes ms).Lines k h := by
  constructor
  · rw [before_append, before_writes, List.append_nil]
    exact hs.before
  · rw [after_append, after_writes, List.append_nil]
    exact hs.after

/-- Without hoisted lines there is only the code. -/
theorem Lines.all_eq (hs : s.Lines k h) (hb : h.before = []) (ha : h.after = []) :
    s.before = [] ∧ s.after = [] ∧ s.all = s.code := by
  have hbefore := (hb ▸ hs.before).eq_nil
  have hafter := (ha ▸ hs.after).eq_nil
  refine ⟨hbefore,hafter,?_⟩
  rw [all, hbefore, hafter, List.nil_append, List.append_nil]

theorem Lines.all_eq_code (hs : s.Lines k h) (he : h.isEmpty = true) : s.all = s.code := by
  simp only [Hoists.isEmpty, Bool.and_eq_true, List.isEmpty_iff] at he
  exact (hs.all_eq he.1 he.2).2.2

namespace Reads

theorem plain {ms : List Mark} (hp : l.hoists = {}) (hc : k.Shows ms l.code) :
    (writes ms).Reads k l := ⟨hp ▸ lines_writes ms,hc⟩

theorem wrap (hl : a.Reads k l) (hc : k.Shows a.code code) : a.Reads k (.join code ty [l]) :=
  ⟨hl.lines,hc⟩

theorem join (hl : a.Reads k l) (hr : b.Reads k r) (hc : k.Shows (a.code ++ b.code) code) :
    (a ++ b).Reads k (.join code ty [l,r]) := ⟨hl.lines.append hr.lines,hc⟩

theorem join₃ (hl : a.Reads k l) (hr : b.Reads k r) (hu : c.Reads k u)
    (hc : k.Shows (a.code ++ b.code ++ c.code) code) :
    (a ++ b ++ c).Reads k (.join code ty [l,r,u]) :=
  ⟨(hl.lines.append hr.lines).append hu.lines,hc⟩

end Reads

namespace ReadsAll

theorem nil : ({} : Sheet).ReadsAll k {} := ⟨⟨.nil,.nil⟩,.nil⟩

theorem one (hl : a.Reads k l) : a.ReadsAll k ⟨[l.code],l.hoists⟩ := ⟨hl.lines,.singleton hl.code⟩

theorem append {rest : LoweredArgs} (hl : a.ReadsAll k args) (hr : b.ReadsAll k rest) :
    (a ++ b).ReadsAll k ⟨args.codes ++ rest.codes,args.hoists ++ rest.hoists⟩ :=
  ⟨hl.lines.append hr.lines,hl.codes.append hr.codes⟩

theorem cons (hl : a.Reads k l) (hr : b.ReadsAll k args) :
    (a ++ b).ReadsAll k ⟨l.code :: args.codes,l.hoists ++ args.hoists⟩ := (one hl).append hr

theorem called (hs : s.ReadsAll k args) : s.called.ReadsAll k args :=
  ⟨⟨hs.lines.before,hs.lines.after⟩,hs.codes⟩

end ReadsAll

end Sheet

namespace Lower
variable {α β : Type} {k : SoughtName} {σ : Scope} {ms as bs : List Mark} {P : α → Prop}
  {Q : β → Prop} {m : Lower α} {f : α → Lower β}

theorem Gives.after {P : α → Prop} (hm : Gives P m) (hf : ∀ a, P a → Gives Q (f a)) :
    Gives Q (m >>= f) := by
  intro s b t h
  obtain ⟨a,u,h₁,h₂⟩ := ok_of_bind h
  exact hf a (hm s a u h₁) u b t h₂

theorem Gives.isolated {P : α → Prop} (hm : Gives P m) : Gives P (Lower.isolated m) := by
  intro s a t h
  obtain ⟨u,hu,-⟩ := ok_of_isolated h
  exact hm s a u hu

theorem Gives.calling {P : α → Prop} {arity : Option Nat} (hm : Gives P m) :
    Gives P (Lower.calling arity m) := by
  intro s a t h
  obtain ⟨u,hu,-⟩ := ok_of_calling h
  exact hm _ a u hu

/-- If `m` succeeds from a state in the scope, it comes back to the scope, yields something with the
property and has written lines with the marks. -/
def Writes (k : SoughtName) (σ : Scope) (ms : List Mark) (P : α → Prop) (m : Lower α) : Prop :=
  ∀ s a t, m s = (.ok a,t) → s.scope = σ →
    t.scope = σ ∧ P a ∧ ∃ lines, t.lines = s.lines ++ lines ∧ k.ShowsAll ms lines

namespace Writes

theorem of_eq (h : as = bs) (hm : Writes k σ as P m) : Writes k σ bs P m := h ▸ hm

theorem mono {P' : α → Prop} (hm : Writes k σ ms P m) (h : ∀ a, P a → P' a) :
    Writes k σ ms P' m := by
  intro s a t hrun hσ
  obtain ⟨ht,ha,hlines⟩ := hm s a t hrun hσ
  exact ⟨ht,h a ha,hlines⟩

theorem and_run {P' : α → Prop} (hm : Writes k σ ms P m)
    (h : ∀ s a t, m s = (.ok a,t) → s.scope = σ → P' a) :
    Writes k σ ms (fun a => P a ∧ P' a) m := by
  intro s a t hrun hσ
  obtain ⟨ht,ha,hlines⟩ := hm s a t hrun hσ
  exact ⟨ht,⟨ha,h s a t hrun hσ⟩,hlines⟩

theorem silent {env : Surroundings} {A : List Site} (hm : env.Silent A m)
    (h : ∀ s a t, m s = (.ok a,t) → s.scope = σ → P a) : Writes k σ [] P m := by
  intro s a t hrun hσ
  refine ⟨(hm.scope_eq hrun).trans hσ,h s a t hrun hσ,[],?_,.nil⟩
  rw [hm.lines_eq hrun, List.append_nil]

theorem ignored {env : Surroundings} {A : List Site} (hm : env.Silent A m) :
    Writes k σ [] (fun _ => True) m := .silent hm fun _ _ _ _ _ => trivial

/-- A step that always succeeds, stays in the scope and writes nothing. -/
theorem of_step {g : LowerState → LowerState} {r : LowerState → α}
    (hm : ∀ s, m s = (.ok (r s),g s)) (hg : ∀ s, (g s).scope = s.scope ∧ (g s).lines = s.lines) :
    Writes k σ [] (fun _ => True) m := by
  intro s a t hrun hσ
  rw [hm] at hrun
  cases hrun
  exact ⟨(hg s).1.trans hσ,trivial,[],by rw [(hg s).2, List.append_nil],.nil⟩

theorem get : Writes k σ [] (fun _ => True) (MonadState.get : Lower LowerState) :=
  .of_step (fun _ => rfl) fun _ => ⟨rfl,rfl⟩

theorem takeArity : Writes k σ [] (fun _ => True) Lower.takeArity :=
  .of_step (fun _ => rfl) fun _ => ⟨rfl,rfl⟩

theorem addImport (line : Option String) : Writes k σ [] (fun _ => True) (Lower.addImport line) :=
  .of_step (fun _ => rfl) fun _ => ⟨rfl,rfl⟩

theorem declare (v : DeclaredLocal) : Writes k σ [] (fun _ => True) (Lower.declare v) :=
  .of_step (fun _ => rfl) fun _ => ⟨rfl,rfl⟩

theorem pure {a : α} (h : P a) : Writes k σ [] P (Pure.pure a : Lower α) := by
  intro s b t hrun hσ
  obtain ⟨rfl,rfl⟩ := ok_of_pure hrun
  exact ⟨hσ,h,[],(List.append_nil _).symm,.nil⟩

theorem bind (hm : Writes k σ as P m) (hf : ∀ a, P a → Writes k σ bs Q (f a)) :
    Writes k σ (as ++ bs) Q (m >>= f) := by
  intro s b t hrun hσ
  obtain ⟨a,u,h₁,h₂⟩ := ok_of_bind hrun
  obtain ⟨hu,ha,first,hfirst,hshow⟩ := hm s a u h₁ hσ
  obtain ⟨ht,hb,second,hsecond,hshow'⟩ := hf a ha u b t h₂ hu
  refine ⟨ht,hb,first ++ second,?_,hshow.append hshow'⟩
  rw [hsecond, hfirst, List.append_assoc]

/-- The first step writes nothing. -/
theorem after (hm : Writes k σ [] P m) (hf : ∀ a, P a → Writes k σ bs Q (f a)) :
    Writes k σ bs Q (m >>= f) := hm.bind hf

/-- The second step writes nothing. -/
theorem next (hm : Writes k σ as P m) (hf : ∀ a, P a → Writes k σ [] Q (f a)) :
    Writes k σ as Q (m >>= f) := .of_eq (List.append_nil as) (hm.bind hf)

theorem isolated (hm : Writes k σ ms P m) : Writes k σ ms P (Lower.isolated m) := by
  intro s a t hrun hσ
  obtain ⟨u,hu,rfl⟩ := ok_of_isolated hrun
  obtain ⟨hscope,ha,hlines⟩ := hm s a u hu hσ
  refine ⟨?_,ha,hlines⟩
  change u.scope.restore s.scope.depth = σ
  rw [hscope, hσ, Scope.restore_depth]

theorem indented (hm : Writes k σ ms P m) : Writes k σ ms P (Lower.indented m) := by
  intro s a t hrun hσ
  obtain ⟨u,hu,rfl⟩ := ok_of_indented hrun
  obtain ⟨hscope,ha,hlines⟩ := hm _ a u hu hσ
  exact ⟨hscope,ha,hlines⟩

theorem calling (hm : Writes k σ ms P m) (arity : Option Nat) :
    Writes k σ ms P (Lower.calling arity m) := by
  intro s a t hrun hσ
  obtain ⟨u,hu,rfl⟩ := ok_of_calling hrun
  obtain ⟨hscope,ha,hlines⟩ := hm _ a u hu hσ
  exact ⟨hscope,ha,hlines⟩

theorem withBinding (hm : Writes k σ ms P m) (receiver : ClassRef) :
    Writes k σ ms P (Lower.withBinding receiver m) := by
  intro s a t hrun hσ
  obtain ⟨u,hu,rfl⟩ := ok_of_withBinding hrun
  obtain ⟨hscope,ha,hlines⟩ := hm _ a u hu hσ
  exact ⟨hscope,ha,hlines⟩

/-- Behind a dot the scope has one more frame, which is dropped again. -/
theorem memberOf {receiver : ClassRef} (hm : Writes k (σ.push (.ofClass receiver)) ms P m)
    (arity : Option Nat) : Writes k σ ms P (Lower.memberOf receiver arity m) := by
  intro s a t hrun hσ
  obtain ⟨u,hu,rfl⟩ := ok_of_memberOf hrun
  obtain ⟨hscope,ha,hlines⟩ := hm _ a u hu (congrArg (Scope.push · _) hσ)
  refine ⟨?_,ha,hlines⟩
  change u.scope.restore s.scope.depth = σ
  rw [hscope, hσ, Scope.restore_push]

theorem collected {m : Lower Unit} {P : Unit → Prop} (hm : Writes k σ ms P m) :
    Writes k σ [] (k.ShowsAll ms) (Lower.collected m) := by
  intro s lines t hrun hσ
  obtain ⟨u,hu,rfl,rfl⟩ := ok_of_collected hrun
  obtain ⟨hscope,-,lines,hlines,hshow⟩ := hm _ () u hu hσ
  rw [List.nil_append] at hlines
  exact ⟨hscope,hlines ▸ hshow,[],(List.append_nil _).symm,.nil⟩

end Writes

end Lower

theorem TypeDesc.defaultValue?_eq {d : TypeDesc} {value : String}
    (h : d.defaultValue? = some value) : value = "0" ∨ value = "false" := by
  unfold defaultValue? at h
  split at h
  · cases h
  · split at h
    · exact .inl (Option.some.inj h).symm
    · split at h
      · exact .inr (Option.some.inj h).symm
      · cases h

namespace Surroundings
open Lower
variable {env : Surroundings} {k : SoughtName} (H : env.Spares k) {α : Type} {σ : Scope} {s : Sheet}
  {ms as bs : List Mark} {l : Lowered}

theorem ok_of_spell {d : TypeDesc} {s t : LowerState} {text : String}
    (h : env.spell d s = (.ok text,t)) : text = (env.tables.spell d).text := by
  obtain ⟨_,_,_,h₁⟩ := ok_of_bind h
  obtain ⟨_,_,_,h₂⟩ := ok_of_bind h₁
  obtain ⟨rfl,-⟩ := ok_of_pure h₂
  rfl

theorem writes_spell (d : TypeDesc) :
    Writes k σ [] (fun text => text = (env.tables.spell d).text) (env.spell d) :=
  .silent (env.silent.spell d) fun _ _ _ h _ => ok_of_spell h

theorem writes_spellType (ty : SourceType) :
    Writes k σ [] (k.Shows (env.typeMarks k ty)) (env.spellType ty) :=
  (writes_spell _).mono fun text h => by
    rw [h]
    exact SoughtName.shows_clashes .clear

theorem writes_spellTypes (tys : List SourceType) :
    Writes k σ [] (k.ShowsAll (tys.flatMap (env.typeMarks k))) (env.spellTypes tys) := by
  induction tys with
  | nil => exact .pure .nil
  | cons ty tys ih =>
    exact (writes_spellType ty).after fun text ht => ih.after fun texts hts => .pure (.cons ht hts)

theorem writes_spellType? (ty : Option SourceType) :
    Writes k σ [] (k.ShowsOpt (ty.elim [] (env.typeMarks k))) (env.spellType? ty) := by
  cases ty with
  | none => exact .pure rfl
  | some ty => exact (writes_spellType ty).after fun text ht => .pure ht

theorem writes_refuse (barrier : Barrier) (lines : List String) :
    Writes k σ [] (fun _ => lines = []) (env.refuse barrier lines) := by
  unfold refuse
  split
  · next h => exact .pure (List.isEmpty_iff.mp h)
  · intro s a t h
    cases h

/-- Without hoisted lines there is only the code. -/
theorem reads_of_refused {h : Hoists} (hs : s.Lines k h) (he : h.before ++ h.after = []) :
    s.before = [] ∧ s.after = [] ∧ s.all = s.code :=
  hs.all_eq (List.append_eq_nil_iff.mp he).1 (List.append_eq_nil_iff.mp he).2

theorem writes_lambdaParams (H : env.Spares k) (params : List LambdaParam) :
    Writes k σ [] (k.ShowsAll (params.flatMap (env.paramMarks k))) (env.lambdaParams params) := by
  induction params with
  | nil => exact .pure .nil
  | cons p params ih =>
    refine (writes_spellType? _).after fun ty hty => ih.after fun texts hts => .pure ?_
    exact .cons (H.dialect.lambdaParameter (SoughtName.shows_clashes .clear) hty) hts

include H

theorem writes_temp {word : String} (hword : word ∈ Lower.tempWords) :
    Writes k σ [] (fun temp => k.Clear temp) (Lower.temp word) := by
  intro s temp t h hσ
  cases h
  exact ⟨hσ,H.clear_temp hword _,[],(List.append_nil _).symm,.nil⟩

theorem shows_indented {line : String} (h : k.Shows ms line) (depth : Nat) :
    k.Shows ms (env.indentation depth ++ line) := by
  induction depth with
  | zero => exact (String.empty_append (s := line)).symm ▸ h
  | succ depth ih =>
    change k.Shows ms (env.dialect.indentUnit ++ env.indentation depth ++ line)
    rw [String.append_assoc]
    exact ih.after H.dialect.indentUnit

theorem writes_emit {line : String} (h : k.Shows ms line) :
    Writes k σ ms (fun _ => True) (env.emit line) := by
  intro s a t hrun hσ
  cases hrun
  exact ⟨hσ,trivial,_,rfl,.singleton (shows_indented H h s.depth)⟩

/-- A line without the name. -/
theorem writes_clear {line : String} (h : k.Clear line) :
    Writes k σ [] (fun _ => True) (env.emit line) := writes_emit H (.clear h)

theorem writes_emitAll {lines : List String} (h : k.ShowsAll ms lines) :
    Writes k σ ms (fun _ => True) (env.emitAll lines) := by
  induction h with
  | nil => exact .pure trivial
  | cons hline _ ih => exact (writes_emit H hline).bind fun _ _ => ih

theorem writes_splice {h : Hoists} {line : String} (hl : s.Lines k h) (hc : k.Shows ms line) :
    Writes k σ (s.before ++ ms ++ s.after) (fun _ => True) (env.splice h line) := by
  rw [List.append_assoc]
  exact (writes_emitAll H hl.before).bind fun _ _ => (writes_emit H hc).bind fun _ _ =>
    writes_emitAll H hl.after

/-- A value with its lines, and what is done with its text. -/
theorem writes_bind {word : String} {f : String → Lower α} {Q : α → Prop}
    (hword : word ∈ Lower.tempWords) (hl : s.Reads k l)
    (hf : ∀ ms code, k.Shows ms code → Writes k σ (ms ++ bs) Q (f code)) :
    Writes k σ (s.all ++ bs) Q (env.bind word l >>= f) := by
  unfold Surroundings.bind
  rw [bind_assoc, Sheet.all, List.append_assoc, List.append_assoc]
  refine (writes_emitAll H hl.lines.before).bind fun _ _ => ?_
  by_cases hafter : l.hoists.after = []
  · have hnone : s.after = [] := (hafter ▸ hl.lines.after).eq_nil
    rw [if_pos (by simp [hafter]), pure_bind, hnone, List.nil_append]
    exact hf s.code l.code hl.code
  · rw [if_neg (by simp [hafter])]
    simp only [bind_assoc, pure_bind]
    refine (writes_temp H hword).after fun temp htemp => ?_
    have hline : k.Shows ([] ++ [] ++ s.code)
        (env.dialect.localDeclaration temp none (some l.code) false) :=
      H.dialect.localDeclaration false (.clear htemp) rfl hl.code
    refine (writes_emit H hline).bind fun _ _ => ?_
    exact (writes_emitAll H hl.lines.after).bind fun _ _ => hf [] temp (.clear htemp)

theorem writes_bound {word : String} {line : String → String} (hword : word ∈ Lower.tempWords)
    (hl : s.Reads k l) (hline : k.Wraps line) :
    Writes k σ s.all (fun _ => True) (env.bound word l line) := by
  refine .of_eq (List.append_nil _) (writes_bind H hword hl fun ms code hcode => ?_)
  rw [List.append_nil]
  exact writes_emit H (hline hcode)

theorem writes_expressionStatement {written : Bool} (hl : s.Reads k l)
    (hp : l.processed = written) :
    Writes k σ (Plan.statement s written).marks (fun _ => True) (env.expressionStatement l) := by
  unfold expressionStatement
  cases written with
  | true =>
    rw [if_pos hp]
    refine .of_eq (List.append_nil _).symm ?_
    exact writes_splice H hl.lines (H.dialect.expressionStatement hl.code)
  | false =>
    rw [if_neg (by simp [hp])]
    exact .pure trivial

theorem writes_placed {m : Lower Unit} (place : Place) (hm : Writes k σ ms (fun _ => True) m) :
    Writes k σ ms (fun _ => True) (env.placed place m) := by
  cases place with
  | alternative => exact (writes_clear H H.dialect.elseHeader).after fun _ _ => hm.indented
  | line | inner => exact hm

theorem writes_blockText {lines : List String} (h : k.ShowsAll ms lines) :
    Writes k σ [] (k.Shows ms) (env.blockText lines) := by
  unfold blockText
  have hbreak : k.Parts "\n" := SoughtName.parts_of_separates (by decide)
  split
  · next hempty =>
    obtain rfl := List.isEmpty_iff.mp hempty
    rw [h.eq_nil]
    exact .pure (.clear (H.dialect.blockOpen.clear.append_ends H.dialect.blockClose))
  · refine Writes.get.after fun s _ => .pure ?_
    have hlines := (h.intercalate hbreak).after (H.dialect.blockOpen.clear.append_parts hbreak)
    have hclose := shows_indented H (.clear H.dialect.blockClose.clear) s.depth
    rw [String.append_assoc]
    exact List.append_nil ms ▸ hlines.join hbreak hclose

theorem writes_lambdaResult (hl : s.Reads k l) :
    Writes k σ [] (k.Shows s.all) (env.lambdaResult l) := by
  unfold lambdaResult
  split
  · next hempty =>
    rw [hl.lines.all_eq_code hempty]
    exact .pure hl.code
  · have hlines : Writes k σ s.all (fun _ => True)
        (env.bound "ret" l fun code => env.dialect.returnStatement (some code)) :=
      writes_bound H (by decide) hl H.dialect.returned
    exact hlines.indented.collected.after fun lines hshow => writes_blockText H hshow

theorem writes_defaultValue (ty : Option TypeDesc) :
    Writes k σ [] (Sheet.Reads k {}) (env.defaultValue ty) := by
  refine .silent (env.silent.defaultValue ty) fun s l t h _ => ?_
  have hcode : Gives (fun l => k.Clear l.code) (env.defaultValue ty) := by
    dsimp only [defaultValue]
    split
    · exact .pure H.dialect.falseLiteral
    · next value hne hvalue =>
      obtain ⟨d,-,hd⟩ := Option.bind_eq_some_iff.mp hvalue
      obtain rfl : value = "0" := (TypeDesc.defaultValue?_eq hd).resolve_right hne
      exact .pure H.dialect.zeroLiteral
    · split
      · exact .bind fun _ => .pure (H.dialect.defaultValue _)
      · exact .pure (H.dialect.defaultValue _)
  exact .plain (env.gives_defaultValue ty s l t h).hoists (.clear (hcode s l t h))

theorem writes_predefinedType (name : String) :
    Writes k σ [] ((Sheet.writes (env.typeMarks k (.predefined name))).Reads k)
      (env.predefinedType name) := by
  dsimp only [predefinedType]
  split
  · next known hknown =>
    refine (Writes.addImport _).after fun _ _ => .pure (.plain rfl ?_)
    exact SoughtName.shows_clashes fun _ => H.dialect.typeReference (.clear (H.get? hknown).2)
  · exact (writes_spellType _).after fun text htext =>
      .pure (.plain rfl (H.dialect.typeReference htext))

theorem writes_outDeclaration (ty : Option SourceType) (name : String) :
    Writes k σ [] ((Sheet.awaits (k.declared name ++ env.explicitMarks k ty)).ReadsAll k)
      (env.outDeclaration ty name) := by
  refine (writes_temp H (by decide)).after fun temp htemp =>
    (writes_spellType? _).after fun text htext =>
      (Writes.ignored (env.silent_declareLocal name true)).after fun mutable _ => .pure ?_
  have hline := H.dialect.outDeclaration name mutable htext (H.dialect.boxValue (.clear htemp))
  rw [List.append_nil] at hline
  exact ⟨⟨.singleton (H.dialect.boxDeclaration htemp rfl),.singleton hline⟩,
    .singleton (H.dialect.boxArgument (.clear htemp))⟩

theorem writes_boxed (hl : s.Reads k l) (withValue : Bool) :
    Writes k σ [] ((s.boxed withValue).ReadsAll k) (env.boxed l withValue) := by
  refine (writes_temp H (by decide)).after fun temp htemp => .pure ?_
  have hbox : k.Shows (if withValue then s.code else [])
      (env.dialect.boxDeclaration temp (if withValue then some l.code else none)) := by
    cases withValue with
    | true => exact H.dialect.boxDeclaration htemp hl.code
    | false => exact H.dialect.boxDeclaration htemp rfl
  have hback := H.dialect.assignment .assign hl.code (H.dialect.boxValue (.clear htemp))
  rw [List.append_nil] at hback
  exact ⟨⟨hl.lines.before.append (.singleton hbox),
    .cons (H.dialect.expressionStatement hback) hl.lines.after⟩,
    .singleton (H.dialect.boxArgument (.clear htemp))⟩

theorem writes_argument (passing : Passing) (e : Expr) {lowered : Lower Lowered}
    (h : Writes k σ [] (s.Reads k) lowered) :
    Writes k σ [] ((env.argumentSheet k passing e s).ReadsAll k)
      (env.argument passing e lowered) := by
  cases passing with
  | value | byIn => exact h.after fun l hl => .pure (.one hl)
  | byRef => exact h.after fun l hl => writes_boxed H hl true
  | byOut =>
    cases e with
    | declaration id ty name => exact writes_outDeclaration H ty name
    | _ => exact h.after fun l hl => writes_boxed H hl false

/-- The name of a class is not counted, so nothing is lost if another class stands in its place. -/
theorem vague_nameMarks {scope : Scope} {id : NodeId} {name : String}
    (h : env.isTypeExpr scope (.identifier id name) = true) (facing : Bool) :
    SoughtName.Vague (env.nameMarks k facing id name) := by
  rw [isTypeExpr] at h
  unfold nameMarks
  cases hs : env.oracle.symbolOf? id with
  | some symbol =>
    rw [hs] at h
    dsimp only [symbolMarks]
    rw [beq_iff_eq.mp h]
    exact k.vague_clashes name
  | none =>
    rw [hs, Bool.and_eq_true] at h
    by_cases hk : k.sought = .classes
    · cases facing with
      | true =>
        rw [if_pos rfl, SoughtName.accessed, if_neg (by simp [hk])]
        exact k.vague_clashes name
      | false =>
        rw [if_neg Bool.false_ne_true, SoughtName.qualified, if_pos hk]
        exact .inr List.mem_cons_self
    · have hclear := H.find? hk h.2
      refine .inl ?_
      rw [SoughtName.accessed_of_clear hclear, SoughtName.mentioned_of_clear hclear,
        SoughtName.qualified, if_neg hk, List.append_nil, ite_self]

theorem shows_of_isTypeExpr {scope : Scope} {target : Expr} {text : String}
    (h : env.isTypeExpr scope target = true) (owned facing : Bool) (htext : k.Clear text) :
    k.Shows (Sheet.expr env k owned facing target).code text := by
  cases target with
  | identifier id name =>
    rw [Sheet.expr, Sheet.code_writes]
    exact (vague_nameMarks H h facing).shows htext
  | genericName id name typeArgs =>
    have htypes : SoughtName.Vague (typeArgs.flatMap (env.typeMarks k)) := by
      induction typeArgs with
      | nil => exact .inl rfl
      | cons ty tys ih => exact (k.vague_clashes _).append (ih h)
    rw [Sheet.expr, Sheet.code_writes]
    exact ((vague_nameMarks H h facing).append htypes).shows htext
  | _ => cases h

theorem redirect?_clear {scope : Scope} {receiver : ClassRef} {target name : Expr}
    {arity : Option Nat} {className : String}
    (h : env.redirect? scope receiver target name arity = some className) :
    env.isTypeExpr scope target = true ∧ k.Clear className := by
  unfold redirect? at h
  split at h
  · split at h
    · next htype =>
      obtain ⟨m,hm,hclass⟩ := Option.bind_eq_some_iff.mp h
      exact ⟨htype,(H.memberInfo? hm).remapClass className hclass⟩
    · cases h
  · cases h

/-- What starts with the name of a member is written with a separator at its start. -/
theorem gives_binding (owner : Option ClassId) (e : Expr) (he : e.isBinding = true) :
    Gives (fun l => l.processed = true ∧ Text.opens l.code = true) (env.expr owner e) := by
  rw [expr.eq_def]
  refine .isolated ?_
  match e with
  | .memberBinding _ name =>
    exact .bind fun _ => .bind fun _ => .bind fun _ => .pure ⟨rfl,H.dialect.opens_memberBinding _⟩
  | .memberAccess _ target name =>
    refine .bind fun _ => (gives_binding none target he).after fun l hl => ?_
    rw [if_neg (by simp [hl.1])]
    refine .bind fun _ => .bind fun _ => ?_
    split
    · next hr =>
      have htype := (redirect?_clear H hr).1
      cases target with
      | identifier | genericName => cases he
      | _ => cases htype
    · exact .pure ⟨rfl,H.dialect.opens_memberAccess _ hl.2⟩
  | .conditionalAccess _ target rest =>
    exact .bind fun _ => (gives_binding none target he).after fun l hl => .bind fun _ =>
      .bind fun _ => .pure ⟨rfl,H.dialect.opens_conditionalAccess _ hl.2⟩
  | .invocation _ target args =>
    exact (gives_binding none target he).calling.after fun l hl => .bind fun _ =>
      .pure ⟨hl.1,H.dialect.opens_invocation _ hl.2⟩
  | .elementAccess _ target args =>
    exact (gives_binding none target he).after fun l hl => .bind fun _ =>
      .pure ⟨hl.1,H.dialect.opens_elementAccess _ hl.2⟩

theorem shows_conditionalAccess (rest : Expr) {target code : String} (ht : k.Shows as target)
    (hr : k.Shows bs code) (h : rest.isBinding = true → Text.opens code = true) :
    k.Shows (as ++ rest.gluedMarks ++ bs) (env.dialect.conditionalAccess target code) := by
  unfold Expr.gluedMarks
  split
  · next hb =>
    rw [List.append_nil]
    exact H.dialect.conditionalAccess ht hr (h hb)
  · exact .clash (by simp) _

/-- A name behind a dot, where `p` says that nothing is left of the target. -/
theorem writes_access (id : NodeId) (target name : Expr) {lowerTarget lowerName : Lower Lowered}
    {p owned facing : Bool} {b c : Sheet}
    (ht : Writes k σ [] ((Sheet.expr env k owned facing target).Reads k) lowerTarget)
    (hp : ∀ s l t, lowerTarget s = (.ok l,t) → s.scope = σ → l.processed = !p)
    (hn : p = true → Writes k σ [] (b.Reads k) lowerName)
    (hm : p = false → ∀ r, Writes k (σ.push (.ofClass r)) [] (c.Reads k) lowerName) :
    Writes k σ [] (Sheet.Reads k (if p then (Sheet.expr env k owned facing target).lost ++ b
      else Sheet.expr env k owned facing target ++ c))
      (env.access id target name lowerTarget lowerName) := by
  refine Writes.takeArity.after fun arity _ =>
    (ht.and_run hp).after fun l hl => ?_
  cases p with
  | true =>
    have hgone : (!l.processed) = true := by rw [hl.2]; rfl
    rw [if_pos hgone, if_pos rfl]
    exact ((hn rfl).calling arity).mono fun r hr => ⟨⟨hr.lines.before,hr.lines.after⟩,hr.code⟩
  | false =>
    have hleft : ¬ (!l.processed) = true := by rw [hl.2]; decide
    rw [if_neg hleft, if_neg Bool.false_ne_true]
    refine Writes.get.after fun u _ =>
      ((hm rfl _).memberOf arity).after fun member hmember => ?_
    split
    · next className hr =>
      obtain ⟨htype,hclass⟩ := redirect?_clear H hr
      refine (Writes.ignored (env.silent_reference className)).after fun _ _ =>
        .pure (hl.1.join hmember ?_)
      exact H.dialect.staticMember (shows_of_isTypeExpr H htype owned facing hclass) hmember.code
    · exact .pure (hl.1.join hmember (H.dialect.memberAccess hl.1.code hmember.code))

omit H in
theorem lines_passed (text : String) {h : Hoists} (hs : s.Lines k h) :
    (if Text.endsWith text "[]" then s.uncoded else s).Lines k h := by
  split
  · exact hs.uncoded
  · exact hs

theorem shows_objectCreation (ty : SourceType) {constructor : Option String}
    (hc : ∀ name ∈ constructor, k.Clear name) {args : LoweredArgs} (init : Option String)
    {a : Sheet} (ha : a.ReadsAll k args) (hinit : k.ShowsOpt ms init) :
    let text := (env.tables.spell (.ofType ty)).text
    k.Shows (env.createdMarks k ty ++ (if Text.endsWith text "[]" then a.uncoded else a).code ++ ms)
      (env.dialect.objectCreation text constructor args.codes init) := by
  intro text
  dsimp only [createdMarks]
  split
  next hend =>
    have h : k.Shows ms (env.dialect.objectCreation text constructor args.codes init) :=
      H.dialect.arrayObject hend hinit
    rw [show a.uncoded.code = [] from rfl, List.append_nil]
    exact h.clashed _
  next hend =>
    exact H.dialect.objectCreation (by simpa using hend) (k.shows_created text) hc ha.codes hinit

theorem writes_identifier (id : NodeId) (name : String) :
    Writes k σ [] ((Sheet.writes (env.nameMarks k σ.facing id name)).Reads k)
      (env.identifier id name) := by
  refine .silent (env.silent.identifier id name) fun s l t h hσ => ?_
  exact .plain (env.ok_of_identifier h).1 (hσ ▸ H.identifier h)

theorem writes_exitUnless (hl : s.Reads k l) :
    Writes k σ s.all (fun _ => True) (env.exitUnless l) := by
  refine .of_eq (List.append_nil _) (writes_bind H (by decide) hl ?_)
  intro ms code hcode
  have hline := H.dialect.ifHeader (H.dialect.prefixUnary .not (H.dialect.parenthesized hcode))
  exact (writes_emit H hline).bind fun _ _ =>
    (writes_clear H H.dialect.breakStatement).indented.after fun _ _ =>
      writes_clear H H.dialect.blockClose.clear

theorem writes_loopWithExit {body : Lower Unit} (testLast : Bool) (hl : s.Reads k l)
    (hb : Writes k σ bs (fun _ => True) body) :
    Writes k σ (s.all ++ bs) (fun _ => True) (env.loopWithExit l testLast body) := by
  have halways := SoughtName.Shows.clear H.dialect.trueLiteral
  have hclose : Writes k σ [] (fun _ => True) (env.emit env.dialect.blockClose) :=
    writes_clear H H.dialect.blockClose.clear
  dsimp only [loopWithExit]
  split
  · refine (writes_temp H (by decide)).after fun first hfirst => ?_
    have hfirst := SoughtName.Shows.clear hfirst
    have hinit : k.Shows ([] ++ [] ++ []) (env.dialect.localDeclaration first none
        (some (env.dialect.literal .boolTrue "true")) true) :=
      H.dialect.localDeclaration true hfirst rfl halways
    have htest := H.dialect.ifHeader (H.dialect.prefixUnary .not hfirst)
    have hset := H.dialect.expressionStatement
      (H.dialect.assignment .assign hfirst (.clear H.dialect.falseLiteral))
    refine (writes_emit H hinit).after fun _ _ =>
      (writes_emit H (H.dialect.whileHeader halways)).after fun _ _ =>
        .next (P := fun _ => True) (.indented ?_) fun _ _ => hclose
    exact (writes_emit H htest).after fun _ _ => (writes_exitUnless H hl).indented.bind fun _ _ =>
      hclose.after fun _ _ => (writes_emit H hset).after fun _ _ => hb
  · exact (writes_emit H (H.dialect.whileHeader halways)).after fun _ _ =>
      ((writes_exitUnless H hl).bind fun _ _ => hb).indented.next fun _ _ => hclose

theorem writes_guarded {acquire : Lower (List String)} {body : Lower Unit}
    (ha : Writes k σ as (fun resources => k.ShowsAll ms resources.reverse) acquire)
    (hb : Writes k σ bs (fun _ => True) body) :
    Writes k σ (as ++ (bs ++ ms)) (fun _ => True) (env.guarded acquire body) := by
  refine (writes_clear H H.dialect.blockOpen.clear).after fun _ _ =>
    .next (P := fun _ => True) (.indented ?_) fun _ _ => writes_clear H H.dialect.blockClose.clear
  refine ha.bind fun resources hr => (writes_clear H H.dialect.tryHeader).after fun _ _ =>
    hb.indented.bind fun _ _ => (writes_clear H H.dialect.finallyHeader).after fun _ _ =>
      .next (P := fun _ => True) (.indented (writes_emitAll H ?_)) fun _ _ =>
        writes_clear H H.dialect.blockClose.clear
  exact hr.map fun _ _ h => H.dialect.dispose h

theorem writes_branches (place : Place) {branches : Lower Unit} (hl : s.Reads k l)
    (hb : Writes k σ bs (fun _ => True) branches) :
    Writes k σ (s.all ++ bs) (fun _ => True)
      (if place = .alternative ∧ l.hoists.isEmpty then do
        env.emit (env.dialect.elseIfHeader l.code)
        branches
      else env.placed place do
        env.bound "cond" l env.dialect.ifHeader
        branches
        env.emit env.dialect.blockClose) := by
  split
  · next h =>
    rw [hl.lines.all_eq_code h.2]
    exact (writes_emit H (H.dialect.elseIfHeader hl.code)).bind fun _ _ => hb
  · refine writes_placed H place ?_
    exact (writes_bound H (by decide) hl H.dialect.ifHeader).bind fun _ _ =>
      hb.next fun _ _ => writes_clear H H.dialect.blockClose.clear

omit H in
theorem marks_for (start test steps : Sheet) (body : Plan) :
    (Plan.loop (start ++ test) steps body).marks = start.before ++
      (test.before ++ steps.before ++ (start.code ++ test.code ++ steps.code) ++
        (start.after ++ test.after ++ steps.after) ++ body.marks) := by
  simp [Plan.marks, Plan.loop, Sheet.all]

/-- The rest of a loop after its first part, in one piece with the lines before it. -/
theorem writes_for {start test steps : Sheet} {body : Plan} {init condition : Option String}
    {incrementors : Lower (List String)} {inner : Lower Unit}
    (hstart : k.ShowsOpt start.code init ∧ start.after = [])
    (htest : k.ShowsOpt test.code condition ∧ test.before = [] ∧ test.after = [])
    (hsteps : Writes k σ []
      (fun ts => k.ShowsAll steps.code ts ∧ steps.before = [] ∧ steps.after = []) incrementors)
    (hbody : Writes k σ body.marks (fun _ => True) inner) :
    Writes k σ (test.before ++ steps.before ++ (start.code ++ test.code ++ steps.code) ++
      (start.after ++ test.after ++ steps.after) ++ body.marks) (fun _ => True) (do
      let steps ← incrementors
      env.emit (env.dialect.forHeader init condition steps)
      Lower.indented inner
      env.emit env.dialect.blockClose) := by
  refine hsteps.after fun ts hts => ?_
  rw [hstart.2, htest.2.1, htest.2.2, hts.2.1, hts.2.2]
  simp only [List.nil_append, List.append_nil]
  exact (writes_emit H (H.dialect.forHeader hstart.1 htest.1 hts.1)).bind fun _ _ =>
    hbody.indented.next fun _ _ => writes_clear H H.dialect.blockClose.clear

omit H

mutual

/-- An expression is lowered to texts with the marks of its sheet. -/
theorem writes_expr (H : env.Spares k) {σ : Scope} (owner : Option ClassId) (e : Expr) :
    Writes k σ [] (Sheet.Reads k (Sheet.expr env k σ.owned σ.facing e)) (env.expr owner e) := by
  rw [expr.eq_def]
  refine .isolated ?_
  match e with
  | .assignment _ op target value =>
    exact (writes_expr H none target).after fun _ hl => (writes_expr H none value).after fun _ hr =>
      .pure (hl.join hr (H.dialect.assignment op hl.code hr.code))
  | .identifier id name => exact writes_identifier H id name
  | .genericName id name typeArgs =>
    exact (writes_identifier H id name).after fun _ hl => (writes_spellTypes typeArgs).after
      fun _ ht => .pure ⟨⟨hl.lines.before,hl.lines.after⟩,H.dialect.genericName hl.code ht⟩
  | .memberAccess id target name | .qualifiedName id target name =>
    refine writes_access H id target name (writes_expr H none target)
      (fun _ _ _ h hσ => (env.lifts_expr none target h hσ).2) (fun _ => writes_expr H none name)
      fun _ r => ?_
    have hn := writes_expr H (σ := σ.push (.ofClass r)) none name
    rwa [Scope.owned_push_ofClass, Scope.facing_push_ofClass] at hn
  | .conditionalAccess _ target rest =>
    have hrest := (writes_expr H (σ := σ) none rest).and_run
      fun s l t h _ hb => (gives_binding H none rest hb s l t h).2
    exact Writes.takeArity.after fun _ _ =>
      (writes_expr H none target).after fun _ hl => Writes.get.after
        fun _ _ => (hrest.withBinding _).after fun _ hr =>
          .pure ⟨(hl.lines.append_writes _).append hr.1.lines,
            shows_conditionalAccess H rest hl.code hr.1.code hr.2⟩
  | .memberBinding _ name =>
    refine Writes.takeArity.after fun _ _ =>
      Writes.get.after fun s _ => ?_
    have hn := writes_expr H (σ := σ.push (.ofClass (s.bindingReceiver.getD (.external "")))) none
      name
    rw [Scope.owned_push_ofClass, Scope.facing_push_ofClass] at hn
    exact (hn.memberOf _).after fun _ hl => .pure (hl.wrap (H.dialect.memberBinding hl.code))
  | .invocation _ target args =>
    exact ((writes_expr H none target).calling _).after fun _ hl => (writes_arguments H args).after
      fun _ ha => .pure ⟨hl.lines.append ha.called.lines,H.dialect.invocation hl.code ha.codes⟩
  | .elementAccess _ target args =>
    exact (writes_expr H none target).after fun _ hl => (writes_arguments H args).after
      fun _ ha => .pure ⟨hl.lines.append ha.called.lines,H.dialect.elementAccess hl.code ha.codes⟩
  | .objectCreation _ ty args init =>
    refine (writes_spell _).after fun text htext => (writes_arguments H args).after
      fun rest hrest => ?_
    subst htext
    have hlines := (Sheet.lines_writes (env.createdMarks k ty)).append
      (lines_passed (env.tables.spell (.ofType ty)).text hrest.called.lines)
    match init with
    | some init =>
      exact (writes_expr H _ init).after fun _ hl => .pure ⟨hlines.append hl.lines,
        shows_objectCreation H ty H.constructorName? (some _) hrest.called hl.code⟩
    | none =>
      exact .pure ⟨hlines.append_writes [],
        shows_objectCreation H ty H.constructorName? none hrest.called rfl⟩
  | .this _ =>
    exact Writes.get.after fun _ _ =>
      .pure ⟨⟨.nil,.nil⟩,.clear H.dialect.thisExpr⟩
  | .base _ => exact .pure ⟨⟨.nil,.nil⟩,.clear H.dialect.baseExpr⟩
  | .literal _ _ _ => exact .pure (.plain rfl (SoughtName.shows_clashes .clear))
  | .binary _ op left right =>
    exact (writes_expr H none left).after fun _ hl => (writes_expr H none right).after fun _ hr =>
      .pure (hl.join hr (H.dialect.binary op hl.code hr.code))
  | .simpleLambda _ param body =>
    exact (writes_lambdaParams H [param]).after fun _ hp => (writes_lambdaBody H body).after
      fun _ hb => .pure ⟨(Sheet.lines_writes _).append hb.lines,H.dialect.lambda hp hb.code⟩
  | .parenthesizedLambda _ params body =>
    exact (writes_lambdaParams H params).after fun _ hp => (writes_lambdaBody H body).after
      fun _ hb => .pure ⟨(Sheet.lines_writes _).append hb.lines,H.dialect.lambda hp hb.code⟩
  | .conditional _ condition whenTrue whenFalse =>
    exact (writes_expr H none condition).after fun _ hl => (writes_expr H none whenTrue).after
      fun _ hr => (writes_expr H none whenFalse).after fun _ hu => (writes_refuse _ _).after
        fun _ _ => .pure (hl.join₃ hr hu (H.dialect.conditional hl.code hr.code hu.code))
  | .cast _ ty operand =>
    exact (writes_spellType ty).after fun _ ht => (writes_expr H none operand).after fun _ hl =>
      .pure ⟨hl.lines.append_writes _,H.dialect.cast ht hl.code⟩
  | .prefixUnary _ op operand =>
    exact (writes_expr H none operand).after fun _ hl =>
      .pure (hl.wrap (H.dialect.prefixUnary op hl.code))
  | .postfixUnary _ op operand =>
    exact (writes_expr H none operand).after fun _ hl =>
      .pure (hl.wrap (H.dialect.postfixUnary op hl.code))
  | .interpolatedString _ parts =>
    exact (writes_interpolation H parts).after fun _ hp =>
      .pure ⟨hp.1,H.dialect.interpolatedString hp.2.1⟩
  | .defaultValue _ (some _) | .defaultValue _ none => exact writes_defaultValue H _
  | .predefinedType _ name => exact writes_predefinedType H name
  | .tuple _ elements =>
    exact (writes_arguments H elements).after fun _ ha =>
      .pure ⟨ha.called.lines,H.dialect.tupleLiteral ha.codes⟩
  | .initializer _ shape elements =>
    exact (writes_initializers H owner shape elements).after fun _ ha =>
      .pure ⟨ha.lines,H.dialect.initializer shape ha.codes⟩
  | .parenthesized _ inner =>
    exact (writes_expr H none inner).after fun _ hl =>
      .pure (hl.wrap (H.dialect.parenthesized hl.code))
  | .arrayCreation _ element sizes (some init) =>
    refine (writes_spellType element).after fun text _ => (writes_exprs H sizes).after
      fun rest ha => (writes_expr H none init).after fun l hl => ?_
    have hcode := (H.dialect.initializedArray text rest.codes hl.code).clashed
      (env.tables.spell (.ofType element)).text
    rw [← List.append_nil (k.clashes _)] at hcode
    exact .pure ⟨((Sheet.lines_writes _).append ha.lines.uncoded).append hl.lines,hcode⟩
  | .arrayCreation _ element (size :: sizes) none =>
    have hsizes : Writes k σ [] (fun args =>
        (Sheet.expr env k σ.owned σ.facing size ++
          (Sheet.exprs env k σ.owned σ.facing sizes).uncoded).Lines k args.hoists ∧
        ∃ code codes, args.codes = code :: codes ∧
          k.Shows (Sheet.expr env k σ.owned σ.facing size).code code)
        (env.exprs (size :: sizes)) := by
      rw [exprs]
      exact (writes_expr H none size).after fun l hl => (writes_exprs H sizes).after fun rest hr =>
        .pure ⟨hl.lines.append hr.lines.uncoded,l.code,rest.codes,rfl,hl.code⟩
    refine (writes_spellType element).after fun text htext => hsizes.after fun args ha => ?_
    obtain ⟨hlines,code,codes,hcodes,hcode⟩ := ha
    have hsized := H.dialect.sizedArray codes htext hcode
    rw [← hcodes, ← List.append_nil (_ ++ _)] at hsized
    exact .pure ⟨⟨hlines.before,hlines.after⟩,hsized⟩
  | .arrayCreation _ element [] none =>
    have hnone : Writes k σ [] (fun args => args = {}) (env.exprs []) := by
      rw [exprs]
      exact .pure rfl
    refine (writes_spellType element).after fun _ _ => hnone.after fun args ha => ?_
    subst ha
    exact .pure (.plain rfl (SoughtName.shows_clashes fun _ => .clear (H.dialect.emptyArray _)))
  | .typeOf _ ty =>
    exact (writes_spellType ty).after fun _ ht => .pure (.plain rfl (H.dialect.typeOf ht))
  | .await _ operand =>
    exact (writes_expr H none operand).after fun _ hl => .pure (hl.wrap (H.dialect.await hl.code))
  | .implicitArrayCreation _ init =>
    exact (writes_expr H none init).after fun _ hl =>
      .pure (hl.wrap (H.dialect.implicitArray hl.code))
  | .declaration _ _ name =>
    exact (Writes.declare _).after fun _ _ =>
      .pure (.plain rfl (H.dialect.declarationExpression (SoughtName.shows_clashes .clear)))
  | .other id construct =>
    intro s a t h
    cases h

theorem writes_exprs (H : env.Spares k) {σ : Scope} (es : List Expr) :
    Writes k σ [] (Sheet.ReadsAll k (Sheet.exprs env k σ.owned σ.facing es)) (env.exprs es) := by
  rw [exprs.eq_def]
  match es with
  | [] => exact .pure .nil
  | e :: es =>
    exact (writes_expr H none e).after fun _ hl => (writes_exprs H es).after fun _ hr =>
      .pure (.cons hl hr)

theorem writes_arguments (H : env.Spares k) {σ : Scope} (args : List Argument) :
    Writes k σ [] (Sheet.ReadsAll k (Sheet.arguments env k σ.owned σ.facing args))
      (env.arguments args) := by
  rw [arguments.eq_def]
  match args with
  | [] => exact .pure .nil
  | ⟨passing,e⟩ :: args =>
    exact (writes_argument H passing e (writes_expr H none e)).after fun _ hl =>
      (writes_arguments H args).after fun _ hr => .pure (hl.append hr)

theorem writes_initializers (H : env.Spares k) {σ : Scope} (owner : Option ClassId)
    (shape : InitializerShape) (es : List Expr) :
    Writes k σ [] (Sheet.ReadsAll k (Sheet.initializers env k σ.owned σ.facing shape es))
      (env.initializers owner shape es) := by
  rw [initializers.eq_def]
  match es with
  | [] => exact .pure .nil
  | e :: es =>
    have hrest := writes_initializers H (σ := σ) owner shape es
    have hvalue : ∀ {id op i name value}, e = .assignment id op (.identifier i name) value →
        Writes k σ [] (Sheet.Reads k (Sheet.expr env k σ.owned σ.facing value))
          (env.expr none value) := by
      cases e with
      | assignment id op target value =>
        rintro _ _ _ _ _ ⟨⟩
        exact writes_expr H none value
      | _ => nofun
    dsimp only
    split
    · next name value =>
      have hname := H.emitted owner name none
      refine (hvalue rfl).after fun l hl => .after (P := Sheet.Reads k
        (.writes (k.accessed name) ++ Sheet.expr env k σ.owned σ.facing value)) (.pure ?_)
        fun _ hl => hrest.after fun _ hr => .pure (.cons hl hr)
      exact ⟨(Sheet.lines_writes _).append hl.lines,H.dialect.initializerMember hname hl.code⟩
    · next hx =>
      rw [Sheet.initializers]
      · exact (writes_expr H none e).after fun _ hl => hrest.after fun _ hr => .pure (.cons hl hr)
      · exact hx

theorem writes_interpolation (H : env.Spares k) {σ : Scope} (parts : List InterpolationPart) :
    Writes k σ [] (fun p =>
      (Sheet.interpolation env k σ.owned σ.facing parts).Lines k p.2 ∧
        k.ShowsFragments (Sheet.interpolation env k σ.owned σ.facing parts).code p.1 ∧
        SoughtName.gluedFragments p.1 = InterpolationPart.gluedMarks parts)
      (env.interpolation parts) := by
  rw [interpolation.eq_def]
  match parts with
  | [] => exact .pure ⟨⟨.nil,.nil⟩,.nil,rfl⟩
  | .text text :: parts =>
    refine (writes_interpolation H parts).after fun _ hp =>
      .pure ⟨⟨hp.1.before,hp.1.after⟩,?_,rfl⟩
    have hshow := hp.2.1.text text
    rwa [hp.2.2] at hshow
  | .expression e format :: parts =>
    exact (writes_expr H none e).after fun _ hl => (writes_interpolation H parts).after fun _ hp =>
      .pure ⟨hl.lines.append hp.1,.code format hl.code hp.2.1,rfl⟩

theorem writes_lambdaBody (H : env.Spares k) {σ : Scope} (body : LambdaBody) :
    Writes k σ [] (fun text =>
      (Sheet.lambdaBody env k σ.owned σ.facing body).Reads k { code := text })
      (env.lambdaBody body) := by
  rw [lambdaBody.eq_def]
  match body with
  | .block statements =>
    exact (writes_stmts H statements).indented.collected.after fun _ hlines =>
      (writes_blockText H hlines).mono fun _ ht => ⟨⟨.nil,.nil⟩,ht⟩
  | .expression e =>
    refine (writes_expr H none e).after fun _ hl =>
      (writes_lambdaResult H hl).mono fun _ ht => ⟨⟨.nil,.nil⟩,?_⟩
    change k.Shows (Plan.piece (Sheet.expr env k σ.owned σ.facing e)).marks _
    rwa [Plan.marks_piece]

theorem writes_declarators (H : env.Spares k) {σ : Scope} {ms : List Mark} {ty : Option String}
    (hty : k.ShowsOpt ms ty) (ds : List Declarator) :
    Writes k σ (Plan.declarators env k σ.owned σ.facing ms ds).marks (fun _ => True)
      (env.declarators ty ds) := by
  rw [declarators.eq_def]
  match ds with
  | [] => exact .pure trivial
  | ⟨_,name,some e⟩ :: ds =>
    rw [Plan.declarators, Plan.marks_seq, Plan.marks_piece]
    refine (writes_expr H none e).after fun l hl =>
      (Writes.ignored (env.silent_declareLocal name true)).after fun mutable _ =>
        (writes_splice H hl.lines ?_).bind fun _ _ => writes_declarators H hty ds
    exact H.dialect.localDeclaration mutable (SoughtName.shows_clashes .clear) hty
      (show k.ShowsOpt _ (some l.code) from hl.code)
  | ⟨_,name,none⟩ :: ds =>
    rw [Plan.declarators, Plan.marks_seq, Plan.marks_piece]
    refine (Writes.ignored (env.silent_declareLocal name false)).after fun mutable _ =>
      .bind (P := fun _ => True) ?_ fun _ _ => writes_declarators H hty ds
    have hline : k.Shows (k.clashes name ++ ms ++ [])
        (env.dialect.localDeclaration name ty none mutable) :=
      H.dialect.localDeclaration mutable (SoughtName.shows_clashes .clear) hty rfl
    exact .of_eq (by simp [Sheet.all]) (writes_emit H hline)

theorem writes_headDeclarators (H : env.Spares k) {σ : Scope} (ds : List Declarator) :
    Writes k σ (Sheet.heads env k σ.owned σ.facing ds).before (fun heads =>
      k.ShowsHeads (Sheet.heads env k σ.owned σ.facing ds).code heads ∧
        (Sheet.heads env k σ.owned σ.facing ds).after = []) (env.headDeclarators ds) := by
  rw [headDeclarators.eq_def]
  match ds with
  | [] => exact .pure ⟨.nil,rfl⟩
  | ⟨_,name,some e⟩ :: ds =>
    refine (Writes.declare _).after fun _ _ => .of_eq (List.append_nil _) ?_
    refine .of_eq (List.append_assoc _ _ _).symm <| (writes_expr H none e).after fun l hl =>
      (writes_refuse _ _).after fun _ hr => (writes_emitAll H hl.lines.before).bind fun _ _ =>
        .after (P := fun value => value = some l.code) (.pure rfl) fun value hv =>
          (writes_headDeclarators H ds).bind fun _ hh => ?_
    subst hv
    have hafter := (hr ▸ hl.lines.after).eq_nil
    refine .pure ⟨.cons (SoughtName.shows_clashes .clear) hl.code hh.1,?_⟩
    rw [Sheet.heads, Sheet.after_append, Sheet.after_append, hafter, hh.2]
    rfl
  | ⟨_,name,none⟩ :: ds =>
    refine (Writes.declare _).after fun _ _ => .after (P := fun value => value = none) (.pure rfl)
      fun value hv => (writes_headDeclarators H ds).next fun _ hh => ?_
    subst hv
    exact .pure ⟨.cons (SoughtName.shows_clashes .clear) rfl hh.1,hh.2⟩

theorem writes_headInitializers (H : env.Spares k) {σ : Scope} (es : List Expr) :
    Writes k σ (Sheet.exprs env k σ.owned σ.facing es).before (fun codes =>
      k.ShowsAll (Sheet.exprs env k σ.owned σ.facing es).code codes ∧
        (Sheet.exprs env k σ.owned σ.facing es).after = []) (env.headInitializers es) := by
  rw [headInitializers.eq_def]
  match es with
  | [] => exact .pure ⟨.nil,rfl⟩
  | e :: es =>
    refine (writes_expr H none e).after fun _ hl => (writes_refuse _ _).after fun _ hr =>
      (writes_emitAll H hl.lines.before).bind fun _ _ =>
        (writes_headInitializers H es).next fun _ hh => .pure ⟨.cons hl.code hh.1,?_⟩
    have hafter := (hr ▸ hl.lines.after).eq_nil
    rw [Sheet.exprs, Sheet.after_append, hafter, hh.2]
    rfl

theorem writes_headIncrementors (H : env.Spares k) {σ : Scope} (es : List Expr) :
    Writes k σ [] (fun codes =>
      k.ShowsAll (Sheet.exprs env k σ.owned σ.facing es).code codes ∧
        (Sheet.exprs env k σ.owned σ.facing es).before = [] ∧
        (Sheet.exprs env k σ.owned σ.facing es).after = []) (env.headIncrementors es) := by
  rw [headIncrementors.eq_def]
  match es with
  | [] => exact .pure ⟨.nil,rfl,rfl⟩
  | e :: es =>
    refine (writes_expr H none e).after fun _ hl => (writes_refuse _ _).after fun _ hr =>
      (writes_headIncrementors H es).after fun _ hh => .pure ⟨.cons hl.code hh.1,?_⟩
    obtain ⟨hbefore,hafter,-⟩ := reads_of_refused hl.lines hr
    rw [Sheet.exprs, Sheet.before_append, Sheet.after_append, hbefore, hafter, hh.2.1, hh.2.2]
    exact ⟨rfl,rfl⟩

theorem writes_labels (H : env.Spares k) {σ : Scope} (ls : List SwitchLabel) :
    Writes k σ (Plan.labels env k σ.owned σ.facing ls).marks (fun _ => True) (env.labels ls) := by
  rw [labels.eq_def]
  match ls with
  | [] => exact .pure trivial
  | .case value :: ls =>
    rw [Plan.labels, Plan.marks_seq, Plan.marks_piece]
    refine (writes_expr H none value).after fun l hl => (writes_refuse _ _).after fun _ hr => ?_
    rw [(reads_of_refused hl.lines hr).2.2]
    exact (writes_emit H (H.dialect.caseLabel hl.code)).bind fun _ _ => writes_labels H ls
  | .default :: ls =>
    exact (writes_clear H H.dialect.defaultLabel).after fun _ _ => writes_labels H ls

theorem writes_switchSections (H : env.Spares k) {σ : Scope} (sections : List SwitchSection) :
    Writes k σ (Plan.switchSections env k σ.owned σ.facing sections).marks (fun _ => True)
      (env.switchSections sections) := by
  rw [switchSections.eq_def]
  match sections with
  | [] => exact .pure trivial
  | ⟨labels,statements⟩ :: sections =>
    rw [Plan.switchSections, Plan.marks_seq, Plan.marks_scope, Plan.marks_seq, List.append_assoc]
    exact (writes_labels H labels).bind fun _ _ => (writes_stmts H statements).indented.bind
      fun _ _ => writes_switchSections H sections

theorem writes_catchClauses (H : env.Spares k) {σ : Scope} (clauses : List CatchClause) :
    Writes k σ (Plan.catchClauses env k σ.owned σ.facing clauses).marks (fun _ => True)
      (env.catchClauses clauses) := by
  rw [catchClauses.eq_def]
  match clauses with
  | [] => exact .pure trivial
  | ⟨ty,name,block⟩ :: clauses =>
    rw [Plan.catchClauses, Plan.marks_seq, Plan.marks_scope, Plan.marks_seq, Plan.marks_piece,
      Sheet.all_writes, List.append_assoc]
    have hrest {ms : List Mark} (hname : k.ShowsOpt ms name) : Writes k σ
        (ms ++ ((Plan.stmts env k σ.owned σ.facing block).marks ++
          (Plan.catchClauses env k σ.owned σ.facing clauses).marks)) (fun _ => True) (do
        let ty ← env.spellType? ty
        env.emit (env.dialect.catchHeader name ty)
        Lower.indented (env.stmts block)
        env.catchClauses clauses) :=
      (writes_spellType? _).after fun _ _ => (writes_emit H (H.dialect.catchHeader _ hname)).bind
        fun _ _ => (writes_stmts H block).indented.bind fun _ _ => writes_catchClauses H clauses
    cases name with
    | some name =>
      exact (Writes.declare _).after fun _ _ =>
        hrest (show k.ShowsOpt _ (some name) from SoughtName.shows_clashes .clear)
    | none => exact hrest rfl

theorem writes_stmt (H : env.Spares k) {σ : Scope} (place : Place) (st : Stmt) :
    Writes k σ (Plan.stmt env k σ.owned σ.facing st).marks (fun _ => True) (env.stmt place st) := by
  rw [stmt.eq_def]
  have hclose {σ : Scope} : Writes k σ [] (fun _ => True) (env.emit env.dialect.blockClose) :=
    writes_clear H H.dialect.blockClose.clear
  match st with
  | .expression _ e =>
    exact writes_placed H place <|
      ((writes_expr H none e).and_run fun _ _ _ h hσ => (env.lifts_expr none e h hσ).2).after
        fun _ hl => writes_expressionStatement H hl.1 hl.2
  | .ret _ (some e) =>
    rw [Plan.stmt, Plan.marks_piece]
    exact writes_placed H place <| (writes_expr H none e).after fun _ hl =>
      writes_bound H (by decide) hl H.dialect.returned
  | .throw _ (some e) =>
    rw [Plan.stmt, Plan.marks_piece]
    exact writes_placed H place <| (writes_expr H none e).after fun _ hl =>
      writes_bound H (by decide) hl H.dialect.thrown
  | .ret _ none =>
    exact writes_placed H place (writes_emit H (H.dialect.returnStatement rfl))
  | .throw _ none => exact writes_placed H place (writes_emit H (H.dialect.throwStatement rfl))
  | .breakLoop _ => exact writes_placed H place (writes_clear H H.dialect.breakStatement)
  | .continueLoop _ => exact writes_placed H place (writes_clear H H.dialect.continueStatement)
  | .locals _ ⟨_,ds⟩ =>
    refine writes_placed H place <| (writes_spellType? _).after fun text ht => ?_
    exact writes_declarators H ht ds
  | .switch _ subject sections =>
    rw [Plan.stmt, Plan.marks_seq, Plan.marks_piece]
    exact writes_placed H place <| (writes_expr H none subject).after fun _ hl =>
      (writes_bound H (by decide) hl H.dialect.switchHeader).bind fun _ _ =>
        (writes_switchSections H sections).indented.next fun _ _ => hclose
  | .block _ statements =>
    match place with
    | .line =>
      exact (writes_clear H H.dialect.blockOpen.clear).after fun _ _ =>
        (writes_stmts H statements).indented.next fun _ _ => hclose
    | .inner => exact writes_placed H .inner (writes_stmts H statements)
    | .alternative => exact writes_placed H .alternative (writes_stmts H statements)
  | .ifElse _ condition thenBranch (some otherwise) =>
    rw [Plan.stmt, Plan.marks_seq, Plan.marks_piece, Plan.marks_seq]
    exact (writes_expr H none condition).after fun _ hl => writes_branches H place hl <|
      (writes_stmt H .inner thenBranch).indented.bind fun _ _ =>
        writes_stmt H .alternative otherwise
  | .ifElse _ condition thenBranch none =>
    rw [Plan.stmt, Plan.marks_seq, Plan.marks_piece, Plan.marks_seq]
    exact (writes_expr H none condition).after fun _ hl => writes_branches H place hl <|
      (writes_stmt H .inner thenBranch).indented.bind fun _ _ => .pure trivial
  | .forLoop _ declaration initializers condition incrementors body =>
    have hsteps := writes_headIncrementors H (σ := σ) incrementors
    have hbody := writes_stmt H (σ := σ) .inner body
    have htest {e : Expr} {l : Lowered}
        (hl : (Sheet.expr env k σ.owned σ.facing e).Reads k l)
        (hr : l.hoists.before ++ l.hoists.after = []) :
        k.ShowsOpt (Sheet.expr env k σ.owned σ.facing e).code (some l.code) ∧
          (Sheet.expr env k σ.owned σ.facing e).before = [] ∧
          (Sheet.expr env k σ.owned σ.facing e).after = [] :=
      ⟨hl.code,(reads_of_refused hl.lines hr).1,(reads_of_refused hl.lines hr).2.1⟩
    have hnone : k.ShowsOpt ({} : Sheet).code none ∧ ({} : Sheet).before = [] ∧
        ({} : Sheet).after = [] := ⟨rfl,rfl,rfl⟩
    have hparts {parts : List String} (h : k.ShowsAll
        (Sheet.exprs env k σ.owned σ.facing initializers).code parts) :
        k.ShowsOpt (Sheet.exprs env k σ.owned σ.facing initializers).code
          (if parts.isEmpty then none else some (String.intercalate ", " parts)) := by
      split
      · next hempty => exact (List.isEmpty_iff.mp hempty ▸ h).eq_nil
      · exact h.intercalate (SoughtName.parts_of_separates (by decide))
    refine writes_placed H place ?_
    match declaration, condition with
    | some ⟨_,ds⟩, some e =>
      exact .of_eq (marks_for _ _ _ _).symm <| (writes_headDeclarators H ds).bind fun _ hh =>
        .after (.pure ⟨H.dialect.declarationClause hh.1,hh.2⟩) fun _ hstart =>
          (writes_expr H none e).after fun _ hl => (writes_refuse _ _).after fun _ hr =>
            .after (.pure (htest hl hr)) fun _ ht => writes_for H hstart ht hsteps hbody
    | some ⟨_,ds⟩, none =>
      exact .of_eq (marks_for _ _ _ _).symm <| (writes_headDeclarators H ds).bind fun _ hh =>
        .after (.pure ⟨H.dialect.declarationClause hh.1,hh.2⟩) fun _ hstart =>
          .after (.pure hnone) fun _ ht => writes_for H hstart ht hsteps hbody
    | none, some e =>
      exact .of_eq (marks_for _ _ _ _).symm <| (writes_headInitializers H initializers).bind
        fun _ hh => .after (.pure ⟨hparts hh.1,hh.2⟩) fun _ hstart =>
          (writes_expr H none e).after fun _ hl => (writes_refuse _ _).after fun _ hr =>
            .after (.pure (htest hl hr)) fun _ ht => writes_for H hstart ht hsteps hbody
    | none, none =>
      exact .of_eq (marks_for _ _ _ _).symm <| (writes_headInitializers H initializers).bind
        fun _ hh => .after (.pure ⟨hparts hh.1,hh.2⟩) fun _ hstart =>
          .after (.pure hnone) fun _ ht => writes_for H hstart ht hsteps hbody
  | .whileLoop _ condition body =>
    have hb := writes_stmt H (σ := σ) .inner body
    rw [Plan.stmt, Plan.marks_scope, Plan.marks_seq, Plan.marks_piece, Plan.marks_scope]
    refine writes_placed H place <| (writes_expr H none condition).after fun l hl => ?_
    split
    · next hempty =>
      rw [hl.lines.all_eq_code hempty]
      exact (writes_emit H (H.dialect.whileHeader hl.code)).bind fun _ _ =>
        hb.indented.next fun _ _ => hclose
    · exact writes_loopWithExit H false hl hb
  | .doWhile _ body condition =>
    have hb := writes_stmt H (σ := σ) .inner body
    refine writes_placed H place <| ((writes_expr H none condition).and_run
      fun _ _ _ h hσ => env.hoists_eq_nil_iff h hσ).after fun l hl => ?_
    obtain ⟨hl,hbefore,hafter⟩ := hl
    rw [Plan.stmt]
    by_cases hempty : Passed.delivered (Passed.expr env.oracle σ.owned σ.facing condition) = []
    · have hb' := hbefore.mpr hempty
      have ha' := hafter.mpr hempty
      rw [if_pos (List.isEmpty_iff.mpr hempty), if_pos (by simp [Hoists.isEmpty, hb', ha']),
        Plan.marks_scope, Plan.marks_seq, Plan.marks_scope, Plan.marks_piece,
        (hl.lines.all_eq hb' ha').2.2]
      exact (writes_clear H H.dialect.doHeader).after fun _ _ => hb.indented.bind fun _ _ =>
        writes_emit H (H.dialect.doFooter hl.code)
    · have hne := mt hbefore.mp hempty
      rw [if_neg (mt List.isEmpty_iff.mp hempty), if_neg (by simp [Hoists.isEmpty, hne])]
      exact writes_loopWithExit H true ⟨⟨hl.lines.before,hl.lines.after⟩,hl.code⟩ hb
  | .forEach id ty name iterable body =>
    have hmarks : (Plan.stmt env k σ.owned σ.facing (.forEach id ty name iterable body)).marks =
        (Sheet.expr env k σ.owned σ.facing iterable).all ++
          (k.clashes name ++ (Plan.stmt env k σ.owned σ.facing body).marks) := by
      simp [Plan.stmt, Sheet.all, Sheet.trails]
    refine writes_placed H place <| .of_eq hmarks.symm <| (writes_expr H none iterable).after
      fun l hl => writes_bind H (by decide) hl fun ms code hcode => ?_
    rw [← List.append_assoc]
    refine (Writes.declare _).after fun _ _ => (writes_spellType? _).after fun ty _ => ?_
    have hline := H.dialect.forEachHeader ty (SoughtName.shows_clashes (s := name) .clear) hcode
    exact (writes_emit H hline.clashes_last).bind fun _ _ =>
      (writes_stmt H .inner body).indented.next fun _ _ => hclose
  | .tryCatch _ block catches (some statements) =>
    rw [Plan.stmt, Plan.marks_seq, Plan.marks_seq]
    exact writes_placed H place <| (writes_clear H H.dialect.tryHeader).after fun _ _ =>
      (writes_stmts H block).indented.bind fun _ _ => (writes_catchClauses H catches).bind
        fun _ _ => (writes_clear H H.dialect.finallyHeader).after fun _ _ =>
          (writes_stmts H statements).indented.next fun _ _ => hclose
  | .tryCatch _ block catches none =>
    rw [Plan.stmt, Plan.marks_seq, Plan.marks_seq]
    exact writes_placed H place <| (writes_clear H H.dialect.tryHeader).after fun _ _ =>
      (writes_stmts H block).indented.bind fun _ _ => (writes_catchClauses H catches).bind
        fun _ _ => hclose
  | .lock _ target body =>
    have hb : Writes k σ (Plan.stmt env k σ.owned σ.facing body).marks (fun _ => True) (do
        env.emit env.dialect.blockOpen
        Lower.indented (env.stmt .inner body)
        env.emit env.dialect.blockClose) :=
      (writes_clear H H.dialect.blockOpen.clear).after fun _ _ =>
        (writes_stmt H .inner body).indented.next fun _ _ => hclose
    have he := (writes_expr H (σ := σ) none target).and_run
      fun _ _ _ h hσ => (env.lifts_expr none target h hσ).2
    refine writes_placed H place ?_
    rw [Plan.stmt, Plan.marks_seq, Plan.marks_scope]
    dsimp only
    cases target.isPlainReference with
    | true => exact hb
    | false =>
      exact he.after fun _ hl => (writes_expressionStatement H hl.1 hl.2).bind fun _ _ => hb
  | .useResource _ (some ⟨ty,ds⟩) target body =>
    rw [Plan.stmt, Plan.marks_scope, Plan.marks_seq, Plan.marks_seq, Plan.marks_scope,
      Plan.marks_piece, Sheet.all_writes]
    refine writes_placed H place <| writes_guarded H ?_ (writes_stmt H .inner body)
    refine (writes_spellType? _).after fun text ht => (writes_declarators H ht ds).next
      fun _ _ => .pure ?_
    exact .clashes _
  | .useResource _ none (some e) body =>
    rw [Plan.stmt, Plan.marks_scope, Plan.marks_seq, Plan.marks_piece, Plan.marks_scope,
      ← List.append_nil (Plan.stmt _ _ _ _ _).marks]
    refine writes_placed H place <| writes_guarded H ?_ (writes_stmt H .inner body)
    refine (writes_expr H none e).after fun l hl =>
      (writes_temp H (by decide)).after fun temp htemp => ?_
    have hline : k.Shows ([] ++ [] ++ (Sheet.expr env k σ.owned σ.facing e).code)
        (env.dialect.localDeclaration temp none (some l.code) false) :=
      H.dialect.localDeclaration false (.clear htemp) rfl hl.code
    exact (writes_splice H hl.lines hline).next fun _ _ => .pure (.singleton (.clear htemp))
  | .useResource _ none none body =>
    rw [Plan.stmt, Plan.marks_scope, ← List.append_nil (Plan.stmt _ _ _ _ _).marks]
    exact writes_placed H place <| writes_guarded H (.pure .nil) (writes_stmt H .inner body)
  | .empty _ => exact writes_placed H place (.pure trivial)
  | .other id construct =>
    refine writes_placed H place fun s a t h => ?_
    cases h

theorem writes_stmts (H : env.Spares k) {σ : Scope} (ss : List Stmt) :
    Writes k σ (Plan.stmts env k σ.owned σ.facing ss).marks (fun _ => True) (env.stmts ss) := by
  rw [stmts.eq_def]
  match ss with
  | [] => exact .pure trivial
  | s :: ss =>
    rw [Plan.stmts, Plan.marks_seq]
    exact (writes_stmt H .line s).bind fun _ _ => writes_stmts H ss

end

end Surroundings

end Recast
