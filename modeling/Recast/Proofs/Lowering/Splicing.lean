import Recast.Proofs.Lowering.Hoisting
import Recast.TypeScript.Dialect

/-! # Splicing

A statement writes the hoisted lines of its expression around its own line. So every argument by
reference has its two lines in the output, unless it stands in something that vanishes: in the
target of a member, whose lines are lost, or in a statement that is not written at all.
-/
namespace Recast

def Expr.isName : Expr → Bool
  | .identifier .. => true
  | .memberAccess _ target name => target.isName && name.isName
  | .qualifiedName _ target name => target.isName && name.isName
  | _ => false

namespace Surroundings
open Lower
variable (env : Surroundings)

theorem emitAll_eq (lines : List String) (s : LowerState) :
    env.emitAll lines s =
      (.ok (),{ s with lines := s.lines ++ lines.map (env.indentation s.depth ++ ·) }) := by
  induction lines generalizing s with
  | nil =>
    rw [List.map_nil,List.append_nil]
    rfl
  | cons line lines ih =>
    have h : env.emit line s =
      (.ok (),{ s with lines := s.lines ++ [env.indentation s.depth ++ line] }) := rfl
    change (env.emit line >>= fun _ => env.emitAll lines) s = _
    rw [bind_of_ok h,ih]
    simp

def spliced (depth : Nat) (h : Hoists) (line : String) : List String :=
  (h.before ++ [line] ++ h.after).map (env.indentation depth ++ ·)

theorem splice_eq (h : Hoists) (line : String) (s : LowerState) :
    env.splice h line s = (.ok (),{ s with lines := s.lines ++ env.spliced s.depth h line }) := by
  have hline (s : LowerState) : env.emit line s =
    (.ok (),{ s with lines := s.lines ++ [env.indentation s.depth ++ line] }) := rfl
  rw [splice,bind_of_ok (env.emitAll_eq _ s),bind_of_ok (hline _),env.emitAll_eq]
  simp [spliced]

def passed (σ : Scope) (e : Expr) : List Passed := Passed.expr env.oracle σ.owned σ.facing e

/-- What is promised about the lines of an expression: it has the two lines of each argument by
reference in it, and a statement writes them all around its own line. The name of a namespace is
not written. -/
structure KeepsHoists (s : LowerState) (e : Expr) : Prop where
  sizes : ∀ owner l t, env.expr owner e s = (.ok l,t) →
    l.hoists.before.length = (env.passed s.scope e).length ∧
      l.hoists.after.length = (env.passed s.scope e).length
  lines : ∀ owner l t, env.expr owner e s = (.ok l,t) →
    env.Hoisted ((env.passed s.scope e).map Passed.argument) s.temps t.temps l.hoists
  statement : ∀ place id t, place ≠ .alternative →
    ¬ (e.isName = true ∧ e.vanishes env.oracle s.scope.facing = true) →
    env.stmt place (.expression id e) s = (.ok (),t) →
    ∃ l u, env.expr none e s = (.ok l,u) ∧ t.lines = s.lines ++
      env.spliced s.depth l.hoists (env.dialect.expressionStatement l.code)
  declarator : ∀ ty id name ds t, env.declarators ty (⟨id,name,some e⟩ :: ds) s = (.ok (),t) →
    ∃ l u mutable v, env.expr none e s = (.ok l,u) ∧ env.declarators ty ds v = (.ok (),t) ∧
      v.lines = s.lines ++ env.spliced s.depth l.hoists
        (env.dialect.localDeclaration name ty (some l.code) mutable)

variable {env} {s t : LowerState} {e : Expr} {l : Lowered} {owner : Option ClassId}

theorem hoisted_passed_iff (h : env.expr owner e s = (.ok l,t)) :
    env.Hoisted ((env.passed s.scope e).map Passed.argument) s.temps t.temps l.hoists ↔
      ∀ p ∈ env.passed s.scope e, p.kept = true := by
  have H := (env.lifts_expr owner e h rfl).1.hoisted
  constructor
  · intro hall
    rw [← Passed.delivered_eq_iff]
    have hlen := H.length_before.symm.trans hall.length_before
    simpa [passed] using hlen
  · intro hk
    have hd : Passed.delivered (env.passed s.scope e) =
        (env.passed s.scope e).map Passed.argument := by
      rw [Passed.delivered,List.filter_eq_self.mpr hk]
    rw [← hd]
    exact H

theorem lines_expressionStatement (h : env.expr none e s = (.ok l,t)) {u : LowerState}
    (hu : env.expressionStatement l t = (.ok (),u)) :
    u.lines = s.lines ++ if e.vanishes env.oracle s.scope.facing then [] else
      env.spliced s.depth l.hoists (env.dialect.expressionStatement l.code) := by
  have hl := (env.silent_expr none e).lines_eq h
  have hd := (env.silent_expr none e).depth_eq h
  have hp := (env.lifts_expr none e h rfl).2
  unfold expressionStatement at hu
  cases hv : e.vanishes env.oracle s.scope.facing with
  | true =>
    rw [hv] at hp
    rw [if_neg (by simp [hp])] at hu
    obtain ⟨-,rfl⟩ := ok_of_pure hu
    simp [hl]
  | false =>
    rw [hv] at hp
    rw [if_pos (by simp [hp]),splice_eq] at hu
    cases hu
    simp [hl,hd]

theorem stmt_expression {place : Place} (hplace : place ≠ .alternative) (id : NodeId) (e : Expr) :
    env.stmt place (.expression id e) = (env.expr none e >>= env.expressionStatement) := by
  rw [stmt]
  cases place with
  | line | inner => rfl
  | alternative => exact absurd rfl hplace

/-- A local is written with all lines of its initial value, before the next one is declared. -/
theorem lines_declarators {ty : Option String} {id : NodeId} {name : String} {ds : List Declarator}
    (h : env.declarators ty (⟨id,name,some e⟩ :: ds) s = (.ok (),t)) :
    ∃ l u mutable v, env.expr none e s = (.ok l,u) ∧ env.declarators ty ds v = (.ok (),t) ∧
      v.lines = s.lines ++ env.spliced s.depth l.hoists
        (env.dialect.localDeclaration name ty (some l.code) mutable) := by
  rw [declarators] at h
  obtain ⟨l,u,h₁,h₂⟩ := ok_of_bind h
  obtain ⟨mutable,v,h₃,h₄⟩ := ok_of_bind h₂
  rw [bind_of_ok (env.splice_eq _ _ v)] at h₄
  refine ⟨l,u,mutable,_,h₁,h₄,?_⟩
  have hs := (env.silent_expr none e).bind fun _ => env.silent_declareLocal name true
  have hr := (bind_of_ok (f := fun _ => env.declareLocal name true) h₁).trans h₃
  simp only [hs.lines_eq hr,hs.depth_eq hr]

/-- The promise is kept exactly if no target of a member vanishes with an argument by reference in
it, and nothing but names vanishes as a whole. -/
theorem keepsHoists_iff (env : Surroundings) (s : LowerState) (e : Expr) :
    env.KeepsHoists s e ↔
      (∀ owner l t, env.expr owner e s = (.ok l,t) →
        ∀ p ∈ env.passed s.scope e, p.kept = true) ∧
      ∀ l t, env.expr none e s = (.ok l,t) →
        e.vanishes env.oracle s.scope.facing = true → e.isName = true := by
  constructor
  · intro H
    refine ⟨fun owner l t h => (hoisted_passed_iff h).mp (H.lines owner l t h),?_⟩
    intro l t h hv
    cases hn : e.isName with
    | true => rfl
    | false =>
      -- The statement is left out, although it has a line of its own.
      have hs : env.stmt .line (.expression 0 e) s = env.expressionStatement l t := by
        rw [stmt_expression (show Place.line ≠ .alternative by decide)]
        exact bind_of_ok h
      match hx : env.expressionStatement l t with
      | (.ok (), u) =>
        have hu := lines_expressionStatement h hx
        obtain ⟨_,_,_,hl⟩ := H.statement .line 0 u nofun (by simp [hn]) (hs.trans hx)
        simp [hu,hv,spliced] at hl
      | (.error err, u) =>
        unfold expressionStatement at hx
        split at hx
        · rw [splice_eq] at hx
          cases hx
        · cases hx
  · rintro ⟨hk,hn⟩
    constructor
    · intro owner l t h
      have H := (hoisted_passed_iff h).mpr (hk owner l t h)
      have hlen : ((env.passed s.scope e).map Passed.argument).length = _ := List.length_map _
      exact ⟨H.length_before.trans hlen,H.length_after.trans hlen⟩
    · exact fun owner l t h => (hoisted_passed_iff h).mpr (hk owner l t h)
    · intro place id t hplace hb h
      rw [stmt_expression hplace] at h
      obtain ⟨l,u,h₁,h₂⟩ := ok_of_bind h
      have hv : ¬ e.vanishes env.oracle s.scope.facing = true := fun hv => hb ⟨hn l u h₁ hv,hv⟩
      have hl := lines_expressionStatement h₁ h₂
      rw [if_neg hv] at hl
      exact ⟨l,u,h₁,hl⟩
    · exact fun ty id name ds t h => lines_declarators h

/-- A method of a class, in a document in which a name is that of a namespace. -/
def inNamespace : Surroundings where
  program := { classes := [{ name := "K", routines := [{ name := "m" }] }] }
  dialect := TypeScript.dialect
  known := {}
  oracle := { symbols := .ofList [(5,{ kind := .namespaceName, name := "Ns" })] }
  location := "K.m"

/-- A member of what a call of the namespace gives, with an argument `out x`. -/
def memberOfCall : Expr :=
  .memberAccess 0 (.invocation 0 (.identifier 5 "Ns") [⟨.byOut,.identifier 0 "x"⟩])
    (.identifier 0 "Size")

theorem memberOfCall_not_keepsHoists : ¬ inNamespace.KeepsHoists (.inRoutine 0 0) memberOfCall := by
  intro h
  have hok : (inNamespace.expr none memberOfCall (.inRoutine 0 0)).1.isOk = true := by
    decide +kernel
  match hr : inNamespace.expr none memberOfCall (.inRoutine 0 0) with
  | (.ok l, t) =>
    have hk := (hoisted_passed_iff hr).mp (h.lines none l t hr)
    have hlost : (inNamespace.passed (LowerState.inRoutine 0 0).scope memberOfCall).all
        Passed.kept = false := by
      decide +kernel
    exact absurd (List.all_eq_true.mpr hk) (by simp [hlost])
  | (.error e, t) =>
    rw [hr] at hok
    cases hok

end Surroundings

end Recast
