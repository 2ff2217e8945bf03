import Recast.Proofs.Lowering.Failures
import Recast.Proofs.Lowering.Splicing

/-! # What lowering refuses

Lowering a method or constructor is to fail exactly if there is something in it that the target has
nothing for. It does fail at nothing else. But the lines of an argument that are lost reach no
barrier, so a routine with such an argument in a forbidden place may be lowered all the same.
-/
namespace Recast

namespace Surroundings
open Lower
variable (env : Surroundings) {σ : Scope}

theorem meets_returningBody (b : Body) :
    env.Meets σ (Hurdle.body env.oracle σ.owned σ.facing b) (env.returningBody b) := by
  cases b with
  | block statements => exact env.meets_stmts statements
  | expression e => exact (env.meets_expr none e).next fun _ => env.meets_bound _ _ _

theorem meets_effectBody (b : Body) :
    env.Meets σ (Hurdle.body env.oracle σ.owned σ.facing b) (env.effectBody b) := by
  cases b with
  | block statements => exact env.meets_stmts statements
  | expression e => exact (env.meets_expr none e).next fun _ => env.unhindered.expressionStatement _

theorem meets_routineBody (id : ClassId) (f : Routine) :
    env.Meets σ (Hurdle.routine env.oracle σ.owned σ.facing f) (env.routineBody id f) := by
  have hchain (c : ConstructorChain) : env.Meets σ
      (Hurdle.arguments env.oracle σ.owned σ.facing c.args) (env.chain id c) :=
    (env.meets_arguments c.args).next fun _ => env.unhindered.splice _ _
  have hbody (b : Body) : env.Meets σ (Hurdle.body env.oracle σ.owned σ.facing b)
      (if f.returnType.isSome then env.returningBody b else env.effectBody b) := by
    split
    · exact env.meets_returningBody b
    · exact env.meets_effectBody b
  unfold routineBody Hurdle.routine
  cases f.chain with
  | some c =>
    cases f.body with
    | some b => exact (hchain c).bind fun _ => hbody b
    | none => exact (hchain c).bind fun _ => .pure _
  | none =>
    cases f.body with
    | some b => exact hbody b
    | none => exact .pure _

end Surroundings

def Class.hurdles (c : Class) (f : Routine) : List Hurdle :=
  Hurdle.routine (c.oracle.getD {}) true false f

namespace Lowering
open Lower
variable {l : Lowering} {id : ClassId} {index : Nat} {c : Class} {f : Routine}

theorem error?_routine (hc : l.program.class? id = some c) (hf : c.routines[index]? = some f) :
    error? (l.routine id index) = Hurdle.failure? (c.name ++ "." ++ f.name) (c.hurdles f) := by
  have hcontext : l.routineContext id index =
      .ok (f,l.contextIn c f.name [.ofClass (.program id),.ofRoutine id index]) := by
    have hat : l.program.routineAt? id index = some f := by
      rw [Program.routineAt?,hc]
      exact hf
    rw [routineContext,hc,hat]
  let context := l.contextIn c f.name [.ofClass (.program id),.ofRoutine id index]
  have hmeets := (context.env.meets_routineBody id f context.state rfl).2
  have hroutine : l.routine id index = finish context (context.env.routineBody id f) := by
    rw [routine,hcontext]
    rfl
  rw [hroutine]
  refine Eq.trans ?_ hmeets
  unfold finish
  match context.env.routineBody id f context.state with
  | (.ok (), t) => rfl
  | (.error e, t) => rfl

/-- What is promised about failures: a routine is lowered exactly if nothing in it is forbidden, and
a failure is one at something that is. -/
def FailsExactly (l : Lowering) (id : ClassId) (index : Nat) : Prop :=
  ∀ c f, l.program.class? id = some c → c.routines[index]? = some f →
    ((∃ body, l.routine id index = .ok body) ↔ ∀ h ∈ c.hurdles f, h.forbidden = false) ∧
      ∀ e, l.routine id index = .error e →
        ∃ h ∈ c.hurdles f, h.forbidden = true ∧ e = h.error (c.name ++ "." ++ f.name)

theorem exists_ok_iff (hc : l.program.class? id = some c) (hf : c.routines[index]? = some f) :
    (∃ body, l.routine id index = .ok body) ↔ ∀ h ∈ c.hurdles f, h.stops = false := by
  rw [← Hurdle.failure?_eq_none_iff (c.name ++ "." ++ f.name),← error?_routine hc hf]
  cases l.routine id index with
  | ok body => exact iff_of_true ⟨body,rfl⟩ rfl
  | error e => exact iff_of_false (fun ⟨_,h⟩ => nomatch h) (fun h => nomatch h)

/-- Nothing forbidden is in a routine that nothing stops. -/
def NothingSlipsThrough (l : Lowering) (id : ClassId) (index : Nat) : Prop :=
  ∀ c f, l.program.class? id = some c → c.routines[index]? = some f →
    (∀ h ∈ c.hurdles f, h.stops = false) → ∀ h ∈ c.hurdles f, h.forbidden = false

/-- The promise is kept exactly if nothing forbidden slips through. In any case lowering fails at
the first hurdle that stops, and only there. -/
theorem failsExactly_iff (l : Lowering) (id : ClassId) (index : Nat) :
    (l.FailsExactly id index ↔ l.NothingSlipsThrough id index) ∧
      ∀ c f, l.program.class? id = some c → c.routines[index]? = some f →
        error? (l.routine id index) =
          Hurdle.failure? (c.name ++ "." ++ f.name) (c.hurdles f) := by
  refine ⟨?_,fun c f hc hf => error?_routine hc hf⟩
  refine forall_congr' fun c => forall_congr' fun f => forall_congr' fun hc =>
    forall_congr' fun hf => ?_
  rw [exists_ok_iff hc hf]
  constructor
  · exact fun h => h.1.mp
  · intro hall
    refine ⟨⟨hall,fun hnone h hh => ?_⟩,fun e he => ?_⟩
    · exact Bool.eq_false_iff.mpr fun hs =>
        Bool.eq_false_iff.mp (hnone h hh) (Hurdle.forbidden_of_stops hs)
    · have herror := error?_routine hc hf
      rw [he] at herror
      obtain ⟨h,hh,hs,heq⟩ := Hurdle.exists_of_failure? herror.symm
      exact ⟨h,hh,Hurdle.forbidden_of_stops hs,heq⟩

/-- A method with an argument `out x` in a branch, where its lines are lost. -/
def branchInNamespace : Lowering where
  program := {
    classes := [{
      name := "K"
      oracle := some Surroundings.inNamespace.oracle
      routines := [{
        name := "m"
        body := some (.block [.locals 0 ⟨none,[⟨0,"y",some (.conditional 0 (.identifier 0 "c")
          Surroundings.memberOfCall (.literal 0 .numeric "1"))⟩]⟩]) }] }] }
  dialect := TypeScript.dialect
  known := {}

theorem branchInNamespace_not_failsExactly : ¬ branchInNamespace.FailsExactly 0 0 := by
  intro h
  obtain ⟨hok,-⟩ := h _ _ rfl rfl
  have hlowered : (branchInNamespace.routine 0 0).isOk = true := by decide +kernel
  match hr : branchInNamespace.routine 0 0 with
  | .ok body => exact absurd (hok.mp ⟨body,hr⟩) (by decide +kernel)
  | .error e =>
    rw [hr] at hlowered
    cases hlowered

end Lowering

end Recast
