import Mathlib.Data.List.TakeWhile
import Recast.Proofs.Lowering.Written

/-! # Locals declared by arguments

An argument `out var x` declares a local when its call is evaluated, but the line that declares it
is written behind the statement. The rest of the statement may mention the local before. Whether a
local is declared before it is mentioned is decided statement by statement.
-/
namespace Recast

namespace Surroundings
open Lower
variable {env : Surroundings} {k : SoughtName} (H : env.Spares k) {σ : Scope}
include H

theorem writes_body (returns : Bool) (b : Body) :
    Writes k σ (Plan.body env k σ.owned σ.facing returns b).marks (fun _ => True)
      (if returns then env.returningBody b else env.effectBody b) := by
  cases b with
  | block statements =>
    cases returns with
    | true => exact writes_stmts H statements
    | false => exact writes_stmts H statements
  | expression e =>
    cases returns with
    | true =>
      refine (writes_expr H none e).after fun l hl => .of_eq (Plan.marks_piece _).symm ?_
      exact writes_bound H (by decide) hl H.dialect.returned
    | false =>
      exact ((writes_expr H none e).and_run fun _ _ _ h hσ => (env.lifts_expr none e h hσ).2).after
        fun l hl => writes_expressionStatement H hl.1 hl.2

theorem writes_chain (id : ClassId) (c : ConstructorChain) :
    Writes k σ (Plan.piece (Sheet.arguments env k σ.owned σ.facing c.args)).marks (fun _ => True)
      (env.chain id c) := by
  refine (writes_arguments H c.args).after fun args ha => .of_eq (Plan.marks_piece _).symm ?_
  exact writes_splice H ha.lines
    (H.dialect.constructorChain c.target H.constructorName? ha.codes)

theorem writes_routineBody (id : ClassId) (f : Routine) :
    Writes k σ (Plan.routine env k σ.owned σ.facing f).marks (fun _ => True)
      (env.routineBody id f) := by
  unfold routineBody Plan.routine
  rw [Plan.marks_seq]
  cases f.chain with
  | some c =>
    cases f.body with
    | some b => exact (writes_chain H id c).bind fun _ _ => writes_body H _ b
    | none => exact (writes_chain H id c).bind fun _ _ => .pure trivial
  | none =>
    cases f.body with
    | some b => exact writes_body H _ b
    | none => exact .pure trivial

end Surroundings

/-- What stands in front of the declaration of the local does not mention it. -/
def SoughtName.DeclaresFirst (k : SoughtName) (ts : List String) : Prop :=
  ∃ front keyword rest, keyword ∈ keywords ∧ ts = front ++ keyword :: " " :: k.name :: rest ∧
    k.name ∉ front

theorem SoughtName.DeclaresFirst.exists_suffix {k : SoughtName} {ts : List String}
    (h : k.DeclaresFirst ts) (hname : k.name ∉ keywords) :
    ∃ keyword ∈ keywords, [keyword," "] <:+ ts.takeWhile (· != k.name) := by
  obtain ⟨front,keyword,rest,hk,rfl,hfront⟩ := h
  have hblank : " " ≠ k.name := by
    intro h
    have hopens := k.opens_name
    rw [← h] at hopens
    exact absurd hopens (by decide)
  have hbefore : ∀ t ∈ front ++ [keyword," "], (t != k.name) = true := by
    intro t ht
    rw [bne_iff_ne]
    rintro rfl
    simp only [List.mem_append, List.mem_cons, List.not_mem_nil, or_false] at ht
    obtain ht | ht | ht := ht
    · exact hfront ht
    · exact hname (ht ▸ hk)
    · exact hblank ht.symm
  refine ⟨keyword,hk,front,?_⟩
  have hts : front ++ keyword :: " " :: k.name :: rest =
      (front ++ [keyword," "]) ++ k.name :: rest := by simp
  rw [hts, List.takeWhile_append_of_pos hbefore]
  simp

def LoweredBody.tokens (b : LoweredBody) : List String := b.lines.flatMap Text.tokens

namespace Lowering
open Lower
variable {l : Lowering} {k : SoughtName} {id : ClassId} {index : Nat} {c : Class} {f : Routine}
  {body : LoweredBody}

def surroundings (l : Lowering) (c : Class) (f : Routine) : Surroundings :=
  (l.contextIn c f.name []).env

def plan (l : Lowering) (k : SoughtName) (c : Class) (f : Routine) : Plan :=
  Plan.routine (l.surroundings c f) k true false f

theorem marked_tokens (hc : l.program.class? id = some c) (hf : c.routines[index]? = some f)
    (H : (l.surroundings c f).Spares k) (hr : l.routine id index = .ok body) :
    k.Marked (l.plan k c f).marks body.tokens := by
  have hat : l.program.routineAt? id index = some f := by
    rw [Program.routineAt?, hc]
    exact hf
  have hrun : finish (l.contextIn c f.name [.ofClass (.program id),.ofRoutine id index])
      ((l.surroundings c f).routineBody id f) = .ok body := by
    rw [routine, routineContext, hc, hat] at hr
    exact hr
  unfold finish at hrun
  split at hrun
  · next s hs =>
    obtain ⟨-,-,lines,hlines,hshow⟩ := (l.surroundings c f).writes_routineBody H id f _ () s hs rfl
    cases hrun
    rw [LoweredBody.tokens, hlines]
    exact hshow.marked
  · cases hrun

/-- What is promised about a local that an argument declares: if it is read only where it is
declared, and nothing else has its name, it is not mentioned in front of its declaration. -/
def DeclaresFirst (l : Lowering) (k : SoughtName) (id : ClassId) (index : Nat) : Prop :=
  ∀ c f body, l.program.class? id = some c → c.routines[index]? = some f →
    (l.surroundings c f).Spares k → l.routine id index = .ok body →
    (l.plan k c f).course.Sound → .declares ∈ (l.plan k c f).marks → k.DeclaresFirst body.tokens

/-- The local is not mentioned in front of its declaration exactly if each piece of the routine, a
line with the lines around it, does nothing with the local before it declares it. -/
theorem notMem_front_iff (hc : l.program.class? id = some c) (hf : c.routines[index]? = some f)
    (H : (l.surroundings c f).Spares k) (hr : l.routine id index = .ok body)
    (hs : (l.plan k c f).course.Sound) (hd : .declares ∈ (l.plan k c f).marks) :
    ∃ front keyword rest, keyword ∈ SoughtName.keywords ∧
      body.tokens = front ++ keyword :: " " :: k.name :: rest ∧
      (k.name ∉ front ↔ ∀ piece ∈ (l.plan k c f).pieces, InOrder piece) := by
  have hclash : .clashes ∉ (l.plan k c f).marks :=
    fun h => hs.clashes_notMem ((l.plan k c f).fits.covered h)
  obtain ⟨as,bs,hsplit,has⟩ := List.eq_append_cons_of_mem hd
  obtain ⟨front,keyword,rest,hk,htext,hfront⟩ := (marked_tokens hc hf H hr).split hclash hsplit
  refine ⟨front,keyword,rest,hk,htext,?_⟩
  have hfirst : as = [] ↔ InOrder (l.plan k c f).marks := by
    rw [hsplit]
    cases as with
    | nil => exact iff_of_true rfl fun _ => rfl
    | cons a as =>
      refine iff_of_false (by simp) fun hin => has ?_
      have ha : a = .declares := Option.some.inj (hin (by simp))
      exact ha ▸ List.mem_cons_self
  have hnone : .clashes ∉ as := fun h => hclash (hsplit ▸ List.mem_append_left _ h)
  rw [hfront.clear_iff hnone, hfirst]
  exact (l.plan k c f).fits.inOrder_iff hs

def localV : SoughtName where
  name := "v"
  ne_empty := by decide
  letters := by decide +kernel

def ofStatements (statements : List Stmt) : Lowering where
  program := {
    classes := [{ name := "K", routines := [{ name := "m", body := some (.block statements) }] }] }
  dialect := TypeScript.dialect
  known := {}

theorem spares_ofStatements {k : SoughtName} (hk : k.name ∉ TypeScript.vocabulary)
    (hplain : '_' ∉ k.name.toList) (hclass : k.Clear "K") (hmethod : k.SparesMember "m" none)
    (statements : List Stmt) (f : Routine) :
    ∀ c ∈ (ofStatements statements).program.classes,
      ((ofStatements statements).surroundings c f).Spares k := by
  intro c hc
  obtain rfl := List.mem_singleton.mp hc
  refine ⟨TypeScript.transparent hk,?_,by rintro c ⟨⟩,fun _ id symbol h => ?_,?_⟩
  · intro c hc
    obtain rfl := List.mem_singleton.mp hc
    refine ⟨fun _ => hclass,by rintro v ⟨⟩,fun f hf _ => ?_,by rintro f ⟨⟩⟩
    obtain rfl := List.mem_singleton.mp hf
    exact hmethod
  · unfold Oracle.symbolOf? at h
    split at h
    · cases h
    · cases h
  · intro word _ n h
    have hmem : '_' ∈ (word ++ "_" ++ toString n).toList := by simp
    rw [← h] at hmem
    exact hplain hmem

theorem spares_localV (statements : List Stmt) (f : Routine) :
    ∀ c ∈ (ofStatements statements).program.classes,
      ((ofStatements statements).surroundings c f).Spares localV :=
  spares_ofStatements (by decide) (by decide) (by decide +kernel)
    (.inl ⟨by decide +kernel,by rintro t ⟨⟩⟩) statements f

def tryGet : Expr := .invocation 0 (.identifier 0 "TryGet") [⟨.byOut,.declaration 0 none "v"⟩]

/-- A method that leaves early unless the call succeeds, and then uses the local. -/
def guard : Lowering := ofStatements [
  .ifElse 0 (.prefixUnary 0 .not tryGet) (.block 0 [.ret 0 none]) none,
  .expression 0 (.invocation 0 (.identifier 0 "Use") [⟨.value,.identifier 0 "v"⟩])]

theorem guard_notMem_front :
    ∃ c f body front keyword rest, guard.program.class? 0 = some c ∧ c.routines[0]? = some f ∧
      (guard.surroundings c f).Spares localV ∧ guard.routine 0 0 = .ok body ∧
      (guard.plan localV c f).course.Sound ∧ .declares ∈ (guard.plan localV c f).marks ∧
      keyword ∈ SoughtName.keywords ∧ body.tokens = front ++ keyword :: " " :: "v" :: rest ∧
      "v" ∉ front := by
  have hok : (guard.routine 0 0).isOk = true := by decide +kernel
  cases hr : guard.routine 0 0 with
  | error e =>
    rw [hr] at hok
    cases hok
  | ok body =>
    obtain ⟨front,keyword,rest,hk,htokens,hfront⟩ := notMem_front_iff (l := guard) (k := localV) rfl
      rfl (spares_localV _ _ _ List.mem_cons_self) hr (by decide +kernel) (by decide +kernel)
    exact ⟨_,_,body,front,keyword,rest,rfl,rfl,spares_localV _ _ _ List.mem_cons_self,rfl,
      by decide +kernel,by decide +kernel,hk,htokens,hfront.mpr (by decide +kernel)⟩

/-- A method that uses the local in the condition that declares it. -/
def usedAtOnce : Lowering := ofStatements [
  .ifElse 0 (.binary 0 .and tryGet (.identifier 0 "v")) (.block 0 []) none]

/-- The condition is kept in a temporary variable before the local is declared. -/
theorem usedAtOnce_not_declaresFirst : ¬ usedAtOnce.DeclaresFirst localV 0 0 := by
  intro h
  have hlines : (usedAtOnce.routine 0 0).toOption.map LoweredBody.lines = some [
      "const out_1: \x7b value: any \x7d = \x7b value: undefined \x7d;",
      "const cond_2 = TryGet(out_1) && v;",
      "let v = out_1.value;",
      "if (cond_2) \x7b",
      "\x7d"] := by decide +kernel
  cases hr : usedAtOnce.routine 0 0 with
  | error e =>
    rw [hr] at hlines
    cases hlines
  | ok body =>
    rw [hr] at hlines
    have hfirst := h _ _ body rfl rfl (spares_localV _ _ _ List.mem_cons_self) hr
      (by decide +kernel) (by decide +kernel)
    rw [LoweredBody.tokens, show body.lines = _ from Option.some.inj hlines] at hfirst
    exact absurd (hfirst.exists_suffix (by decide)) (by decide +kernel)

end Lowering

end Recast
