import Mathlib.Data.List.Basic
import Recast.Proofs.Execution.Behaviours
import Recast.Proofs.Lowering.Accesses
import Recast.Proofs.Lowering.Creations
import Recast.Proofs.Lowering.Splicing

/-! # Loops whose condition has lines of its own

Such a loop is written as `while (true)` with an exit. Here the written lines are read as a program
with `while`, `if` and `break`, in which only the lines of the body, the lines of the condition and
the code of the condition are left open. Whatever these do, the program does what the loop does: it
evaluates the condition and runs the body in the same order in the same stores, and it ends in the
same way. A loop that tests last has a flag for its first round, which nothing else may touch.
-/
namespace Recast

namespace Execution

/-- What the pieces of code do that are not looked into: lines in front of a value, a condition, and
the lines of a statement. -/
structure Meaning (ω : Type) where
  prepare : List String → Store ω → Option Halt → Store ω → Prop
  evaluate : String → Store ω → Answer → Store ω → Prop
  perform : List String → Store ω → Ending → Store ω → Prop

/-- A condition with the lines in front of it. -/
structure Test where
  lines : List String
  code : String

inductive Guard where
  | always
  | flag (x : String)
  | code (text : String)

/-- A program made of pieces of code. -/
inductive Flow where
  | prepare (lines : List String)
  | perform (lines : List String)
  | breaks
  | declare (x : String) (v : Bool)
  | assign (x : String) (v : Bool)
  | seq (first second : Flow)
  | ifNot (g : Guard) (body : Flow)
  | whileLoop (g : Guard) (body : Flow)

section Runs
variable {ω : Type} (m : Meaning ω)
open Behaviour

namespace Meaning

def prepares (lines : List String) : Behaviour ω (Option Halt) :=
  observed (some .running) (.prepared lines) (m.prepare lines)

def evaluates (code : String) : Behaviour ω Answer :=
  observed (.halts .running) (.evaluated code) (m.evaluate code)

def performs (lines : List String) : Behaviour ω Ending :=
  observed (.halts .running) (.performed lines) (m.perform lines)

end Meaning

def Test.runs (test : Test) : Behaviour ω Answer := do
  match ← m.prepares test.lines with
  | some h => pure (.halts h)
  | none => m.evaluates test.code

def Guard.runs : Guard → Behaviour ω Answer
  | .always => pure (.value true)
  | .flag x => reads x
  | .code text => m.evaluates text

def Flow.runs : Flow → Behaviour ω Ending
  | .prepare lines => do
    match ← m.prepares lines with
    | some h => pure (.halts h)
    | none => pure .normal
  | .perform lines => m.performs lines
  | .breaks => pure .breaks
  | .declare x v => puts x v
  | .assign x v => puts x v
  | .seq first second => (first.runs).andThen second.runs
  | .ifNot g body => Behaviour.ifNot (g.runs m) body.runs
  | .whileLoop g body => Behaviour.whileLoop (g.runs m) body.runs

/-- The flag is touched neither by a condition nor by the lines of a body. -/
structure Meaning.Spares (x : String) (test : Test) (lines : List String) : Prop where
  prepare : Behaviour.Spares x (m.prepare test.lines)
  evaluate : Behaviour.Spares x (m.evaluate test.code)
  perform : Behaviour.Spares x (m.perform lines)

variable {m} in
theorem Meaning.Spares.untouched {x : String} {test : Test} {lines : List String}
    (h : m.Spares x test lines) : Untouched x (test.runs m) ∧ Untouched x (m.performs lines) := by
  refine ⟨(Untouched.observed h.prepare ..).bind fun r => ?_, .observed h.perform ..⟩
  cases r with
  | some h => exact .pure _
  | none => exact .observed h.evaluate ..

def loop (testLast : Bool) (condition : Behaviour ω Answer) (b : Behaviour ω Ending) :
    Behaviour ω Ending :=
  if testLast then doLoop b condition else Behaviour.whileLoop condition b

end Runs

namespace Flow

def exitUnless (test : Test) : Flow :=
  .seq (.prepare test.lines) (.ifNot (.code test.code) .breaks)

/-- A loop as an endless one with an exit. With a flag, the test is left out in the first round. -/
def exitForm (flag : Option String) (test : Test) (body : Flow) : Flow :=
  match flag with
  | none => .whileLoop .always (.seq (exitUnless test) body)
  | some x =>
    .seq (.declare x true) (.whileLoop .always
      (.seq (.ifNot (.flag x) (exitUnless test)) (.seq (.assign x false) body)))

end Flow

def Answer.leaving : Answer → Ending
  | .value true => .normal
  | .value false => .breaks
  | .halts h => .halts h

section Forms
variable {ω : Type} {m : Meaning ω}
open Behaviour

theorem runs_exitUnless (test : Test) :
    (Flow.exitUnless test).runs m = test.runs m >>= fun a => pure a.leaving := by
  simp only [Flow.exitUnless, Flow.runs, Test.runs, Guard.runs, andThen, ifNot,
    Behaviour.bind_assoc]
  congr 1
  funext r
  cases r with
  | some h => simp [Answer.leaving]
  | none =>
    simp only [Behaviour.pure_bind]
    congr 1
    funext a
    rcases a with (_ | _) | h <;> rfl

/-- Leaving the loop unless the condition holds makes the first half of a round. -/
theorem andThen_leaving (condition : Behaviour ω Answer) (b : Behaviour ω Ending) :
    (condition >>= fun a => pure a.leaving).andThen b >>= (fun e => pure e.exit?) =
      half (condition >>= fun a => pure a.exit?) (b >>= fun e => pure e.exit?) := by
  simp only [andThen, half, Behaviour.bind_assoc, Behaviour.pure_bind]
  congr 1
  funext a
  rcases a with (_ | _) | h
  · exact Behaviour.pure_bind ..
  · rfl
  · exact Behaviour.pure_bind ..

theorem whileLoop_always (b : Behaviour ω Ending) :
    Behaviour.whileLoop (Guard.always.runs m) b = Rounds (b >>= fun e => pure e.exit?) := by
  simp only [Behaviour.whileLoop, Guard.runs, half, Behaviour.pure_bind]
  rfl

theorem runs_exitForm_none (test : Test) (body : Flow) :
    (Flow.exitForm none test body).runs m =
      Behaviour.whileLoop (test.runs m) (body.runs m) := by
  simp only [Flow.exitForm, Flow.runs]
  rw [whileLoop_always]
  exact congrArg Rounds ((runs_exitUnless test).symm ▸ andThen_leaving ..)

/-- The body of the endless loop of a loop that tests last. -/
def flagged (x : String) (condition : Behaviour ω Answer) (b : Behaviour ω Ending) :
    Behaviour ω Ending :=
  (Behaviour.ifNot (reads x) (condition >>= fun a => pure a.leaving)).andThen
    ((puts x false).andThen b)

theorem andThen_puts (x : String) (v : Bool) (b : Behaviour ω Ending) (s : Store ω) :
    (puts x v).andThen b s = b (s.put x v) :=
  puts_bind x v _ s

section Flag
variable {x : String} {condition : Behaviour ω Answer} {b : Behaviour ω Ending} {s : Store ω}

theorem flagged_of_set (hs : s.flags x = true) : flagged x condition b s = b (s.put x false) := by
  rw [flagged, andThen, ifNot, Behaviour.bind_assoc, reads_bind, hs, Behaviour.pure_bind]
  exact andThen_puts ..

/-- In the other rounds the flag makes no difference. -/
theorem flagged_of_unset (hc : Untouched x condition) (hs : s.flags x = false) :
    flagged x condition b s = (condition >>= fun a => pure a.leaving).andThen b s := by
  rw [flagged, andThen, ifNot, Behaviour.bind_assoc, reads_bind, hs, andThen]
  refine (hc.bind fun a => .pure a.leaving).bind_congr hs fun e u hu => ?_
  cases e with
  | normal => exact (andThen_puts ..).trans (by rw [Store.put_of_flags x u hu])
  | _ => rfl

/-- With the flag unset, the loop is the one that tests first. -/
theorem rounds_flagged (hc : Untouched x condition) (hb : Untouched x b) (hs : s.flags x = false) :
    Rounds (flagged x condition b >>= fun e => pure e.exit?) s =
      Behaviour.whileLoop condition b s := by
  have hround (u : Store ω) (hu : u.flags x = false) :
      (flagged x condition b >>= fun e => pure e.exit?) u =
        half (condition >>= fun a => pure a.exit?) (b >>= fun e => pure e.exit?) u := by
    rw [bind_eq_of_eq (flagged_of_unset hc hu), andThen_leaving]
  have hkeeps : Untouched x
      (half (condition >>= fun a => pure a.exit?) (b >>= fun e => pure e.exit?)) :=
    (hc.bind fun _ => .pure _).half (hb.bind fun _ => .pure _)
  funext τ e t
  refine propext (rounds_congr hround (fun u τ t hu h => ?_) hs)
  rw [hround u hu] at h
  exact (hkeeps.keeps _ _ _ _ h).trans hu

end Flag

/-- The rewritten loop that tests last does what the loop does if the flag is false. -/
theorem runs_exitForm_some {x : String} {test : Test} {body : Flow}
    (hc : Untouched x (test.runs m)) (hb : Untouched x (body.runs m)) (s : Store ω) :
    (Flow.exitForm (some x) test body).runs m s =
      doLoop (body.runs m) (test.runs m) (s.put x false) := by
  simp only [Flow.exitForm, Flow.runs]
  rw [andThen_puts, whileLoop_always, runs_exitUnless]
  change Rounds (flagged x (test.runs m) (body.runs m) >>= _) _ = _
  rw [rounds_eq_goesOn, doLoop_eq]
  have hfirst : (flagged x (test.runs m) (body.runs m) >>= fun e => pure e.exit?) (s.put x true) =
      (body.runs m >>= fun e => pure e.exit?) (s.put x false) :=
    bind_eq_of_eq ((flagged_of_set (Store.flags_put ..)).trans (by rw [Store.put_put])) _
  rw [goesOn, bind_eq_of_eq hfirst]
  refine (hb.bind fun _ => .pure _).bind_congr (Store.flags_put ..) fun r u hu => ?_
  cases r with
  | some e => rfl
  | none => exact rounds_flagged hc hb hu

/-- The rewritten loop does what the loop does, whatever the pieces of code mean that do not touch
the flag. -/
theorem runs_exitForm {flag : Option String} {test : Test} {body : Flow}
    (h : ∀ x ∈ flag, Untouched x (test.runs m) ∧ Untouched x (body.runs m)) :
    without flag ((Flow.exitForm flag test body).runs m) =
      without flag (loop flag.isSome (test.runs m) (body.runs m)) := by
  cases flag with
  | none => exact runs_exitForm_none test body
  | some x =>
    obtain ⟨hc, hb⟩ := h x rfl
    exact without_eq_of_put (hb.doLoop hc) (runs_exitForm_some hc hb)

end Forms

/-! ## The lines of a program -/

def Guard.text (d : Dialect) : Guard → String
  | .always => d.literal .boolTrue "true"
  | .flag x => x
  | .code text => d.parenthesized text

def boolean (d : Dialect) (v : Bool) : String :=
  if v then d.literal .boolTrue "true" else d.literal .boolFalse "false"

/-- The lines of a program, in which those of its pieces are indented already. -/
def Flow.lines (env : Surroundings) : Nat → Flow → List String
  | _, .prepare lines => lines
  | _, .perform lines => lines
  | depth, .breaks => [env.indentation depth ++ env.dialect.breakStatement]
  | depth, .declare x v =>
    [env.indentation depth ++
      env.dialect.localDeclaration x none (some (boolean env.dialect v)) true]
  | depth, .assign x v =>
    [env.indentation depth ++ env.dialect.expressionStatement
      (env.dialect.assignment x .assign (boolean env.dialect v))]
  | depth, .seq first second => first.lines env depth ++ second.lines env depth
  | depth, .ifNot g body =>
    (env.indentation depth ++
      env.dialect.ifHeader (env.dialect.prefixUnary .not (g.text env.dialect))) ::
        body.lines env (depth + 1) ++ [env.indentation depth ++ env.dialect.blockClose]
  | depth, .whileLoop g body =>
    (env.indentation depth ++ env.dialect.whileHeader (g.text env.dialect)) ::
      body.lines env (depth + 1) ++ [env.indentation depth ++ env.dialect.blockClose]

end Execution

/-- Some lines are written, at a depth that is the same afterwards. -/
structure Emitted (depth : Nat) (s t : LowerState) (lines : List String) : Prop where
  lines : t.lines = s.lines ++ lines
  depth : t.depth = depth

theorem Emitted.trans {d : Nat} {s t u : LowerState} {as bs : List String} (h : Emitted d s t as)
    (k : Emitted d t u bs) : Emitted d s u (as ++ bs) where
  lines := by rw [k.lines, h.lines, List.append_assoc]
  depth := k.depth

namespace Surroundings
open Lower Execution
variable (env : Surroundings)

/-- A lowered condition as it is written: a value with lines after it is kept in a variable. -/
def test (depth temps : Nat) (l : Lowered) : Test :=
  if l.hoists.after.isEmpty then
    ⟨l.hoists.before.map (env.indentation depth ++ ·), l.code⟩
  else
    let kept := "cond" ++ "_" ++ toString (temps + 1)
    ⟨(l.hoists.before ++ env.dialect.localDeclaration kept none (some l.code) false ::
      l.hoists.after).map (env.indentation depth ++ ·), kept⟩

def loopFlag (testLast : Bool) (temps : Nat) : Option String :=
  if testLast then some ("first" ++ "_" ++ toString (temps + 1)) else none

/-- The condition of a loop, which stands in two blocks if the loop has a flag. -/
def loopTest (testLast : Bool) (depth temps : Nat) (l : Lowered) : Test :=
  if testLast then env.test (depth + 2) (temps + 1) l else env.test (depth + 1) temps l

variable {env} {d n : Nat} {s t : LowerState} {l : Lowered}

theorem emitted_emit {line : String} (hd : s.depth = d) (h : env.emit line s = (.ok (), t)) :
    t.temps = s.temps ∧ Emitted d s t [env.indentation d ++ line] := by
  obtain rfl : { s with lines := s.lines ++ [env.indentation s.depth ++ line] } = t :=
    congrArg Prod.snd h
  exact ⟨rfl, by rw [hd], hd⟩

theorem emitted_emitAll {lines : List String} (hd : s.depth = d)
    (h : env.emitAll lines s = (.ok (), t)) :
    t.temps = s.temps ∧ Emitted d s t (lines.map (env.indentation d ++ ·)) := by
  rw [emitAll_eq] at h
  obtain rfl := congrArg Prod.snd h
  exact ⟨rfl, by rw [hd], hd⟩

theorem emitted_temp {word name : String} (hd : s.depth = d)
    (h : Lower.temp word s = (.ok name, t)) :
    name = word ++ "_" ++ toString (s.temps + 1) ∧ t.temps = s.temps + 1 ∧ Emitted d s t [] := by
  have hname : Except.ok (word ++ "_" ++ toString (s.temps + 1)) = Except.ok name :=
    congrArg Prod.fst h
  obtain rfl : { s with handedOut := (word ++ "_" ++ toString (s.temps + 1)) :: s.handedOut } = t :=
    congrArg Prod.snd h
  exact ⟨(Except.ok.inj hname).symm, rfl, (List.append_nil _).symm, hd⟩

/-- A block is its header, what is written one level deeper, and the line that closes it. -/
theorem emitted_block {header : String} {m : Lower Unit} {u v : LowerState} (hd : s.depth = d)
    (hopen : env.emit header s = (.ok (), u)) (hinner : indented m u = (.ok (), v))
    (hclose : env.emit env.dialect.blockClose v = (.ok (), t)) :
    ∃ x y, m x = (.ok (), y) ∧ x.depth = d + 1 ∧ x.temps = s.temps ∧
      ∀ lines, Emitted (d + 1) x y lines → Emitted d s t ((env.indentation d ++ header) ::
        lines ++ [env.indentation d ++ env.dialect.blockClose]) := by
  obtain ⟨hun, hu⟩ := emitted_emit hd hopen
  obtain ⟨y, hy, rfl⟩ := ok_of_indented hinner
  refine ⟨{ u with depth := u.depth + 1 }, y, hy, congrArg (· + 1) hu.depth, hun, ?_⟩
  intro lines hlines
  have hv : Emitted d u { y with depth := y.depth - 1 } lines :=
    ⟨hlines.lines, by rw [hlines.depth, Nat.add_sub_cancel]⟩
  exact hu.trans (hv.trans (emitted_emit hv.depth hclose).2)

theorem emitted_bind {code : String} (hd : s.depth = d) (hn : s.temps = n)
    (h : env.bind "cond" l s = (.ok code, t)) :
    code = (env.test d n l).code ∧ Emitted d s t (env.test d n l).lines := by
  obtain ⟨_, u, hbefore, h⟩ := ok_of_bind h
  obtain ⟨hun, hu⟩ := emitted_emitAll hd hbefore
  rw [test]
  by_cases hafter : l.hoists.after.isEmpty = true
  · rw [if_pos hafter] at h ⊢
    obtain ⟨rfl, rfl⟩ := ok_of_pure h
    exact ⟨rfl, hu⟩
  · rw [if_neg hafter] at h ⊢
    obtain ⟨_, v, htemp, h⟩ := ok_of_bind h
    obtain ⟨rfl, -, hv⟩ := emitted_temp hu.depth htemp
    obtain ⟨_, w, hkept, h⟩ := ok_of_bind h
    obtain ⟨-, hw⟩ := emitted_emit hv.depth hkept
    obtain ⟨_, hrest, rfl⟩ := ok_of_map h
    obtain ⟨-, ht⟩ := emitted_emitAll hw.depth hrest
    rw [hun, hn] at hw ⊢
    refine ⟨rfl, ?_⟩
    dsimp only
    rw [List.map_append]
    exact hu.trans (hv.trans (hw.trans ht))

theorem emitted_exitUnless (h : env.exitUnless l s = (.ok (), t)) (hd : s.depth = d)
    (hn : s.temps = n) : Emitted d s t ((Flow.exitUnless (env.test d n l)).lines env d) := by
  obtain ⟨_, u, hbind, h⟩ := ok_of_bind h
  obtain ⟨_, v, hif, h⟩ := ok_of_bind h
  obtain ⟨_, w, hinner, hclose⟩ := ok_of_bind h
  obtain ⟨rfl, hu⟩ := emitted_bind hd hn hbind
  obtain ⟨x, y, hbreak, hx, -, hblock⟩ := emitted_block hu.depth hif hinner hclose
  exact hu.trans (hblock _ (emitted_emit hx hbreak).2)

theorem exists_emitted {A : List Site} {m : Lower Unit} (hm : env.Keeps A m) (hd : s.depth = d)
    (h : m s = (.ok (), t)) : ∃ lines, Emitted d s t lines := by
  have hextends : s.Extends (m s).2 := hm.1 s
  rw [h] at hextends
  obtain ⟨lines, hlines⟩ := hextends.lines
  exact ⟨lines, hlines.symm, hextends.depth.trans hd⟩

/-- A loop with an exit is written as the program that the loop is rewritten to. -/
theorem emitted_loopWithExit {A : List Site} {body : Lower Unit} {testLast : Bool}
    (hbody : env.Keeps A body) (hd : s.depth = d) (hn : s.temps = n)
    (h : env.loopWithExit l testLast body s = (.ok (), t)) :
    ∃ lines v w, body v = (.ok (), w) ∧ Emitted (d + 1) v w lines ∧
      Emitted d s t ((Flow.exitForm (loopFlag testLast n) (env.loopTest testLast d n l)
        (.perform lines)).lines env d) := by
  dsimp only [loopWithExit] at h
  cases testLast with
  | false =>
    obtain ⟨_, s₁, hwhile, h⟩ := ok_of_bind h
    obtain ⟨_, s₂, hrounds, hclose⟩ := ok_of_bind h
    obtain ⟨x, w, hround, hx, hxn, hblock⟩ := emitted_block hd hwhile hrounds hclose
    obtain ⟨_, v, hexit, hrun⟩ := ok_of_bind hround
    have hv := emitted_exitUnless hexit hx (hxn.trans hn)
    obtain ⟨lines, hlines⟩ := exists_emitted hbody hv.depth hrun
    exact ⟨lines, v, w, hrun, hlines, hblock _ (hv.trans hlines)⟩
  | true =>
    obtain ⟨_, s₁, htemp, h⟩ := ok_of_bind h
    obtain ⟨rfl, hn₁, h₁⟩ := emitted_temp hd htemp
    rw [hn] at h hn₁
    obtain ⟨_, s₂, hdeclare, h⟩ := ok_of_bind h
    obtain ⟨hn₂, h₂⟩ := emitted_emit h₁.depth hdeclare
    obtain ⟨_, s₃, hwhile, h⟩ := ok_of_bind h
    obtain ⟨_, s₄, hrounds, hclose⟩ := ok_of_bind h
    obtain ⟨x, w, hround, hx, hxn, hblock⟩ := emitted_block h₂.depth hwhile hrounds hclose
    -- the test is in a block of its own, which is skipped in the first round
    obtain ⟨_, x₁, hif, hround⟩ := ok_of_bind hround
    obtain ⟨_, x₂, hinner, hround⟩ := ok_of_bind hround
    obtain ⟨_, x₃, hend, hround⟩ := ok_of_bind hround
    obtain ⟨y, z, hexit, hy, hyn, hskipped⟩ := emitted_block hx hif hinner hend
    have hyn : y.temps = n + 1 := hyn.trans (hxn.trans (hn₂.trans hn₁))
    have htest := hskipped _ (emitted_exitUnless hexit hy hyn)
    obtain ⟨_, v, hassign, hrun⟩ := ok_of_bind hround
    have hv := (emitted_emit htest.depth hassign).2
    obtain ⟨lines, hlines⟩ := exists_emitted hbody hv.depth hrun
    have hloop := hblock _ (htest.trans (hv.trans hlines))
    exact ⟨lines, v, w, hrun, hlines, h₁.trans (h₂.trans hloop)⟩

end Surroundings

def Stmt.loop (testLast : Bool) (id : NodeId) (condition : Expr) (body : Stmt) : Stmt :=
  if testLast then .doWhile id body condition else .whileLoop id condition body

namespace Surroundings
open Lower Execution
variable (env : Surroundings)

/-- The state in which a statement starts to write its own lines. -/
def opened (place : Place) (s : LowerState) : LowerState :=
  match place with
  | .alternative =>
    { s with
      lines := s.lines ++ [env.indentation s.depth ++ env.dialect.elseHeader]
      depth := s.depth + 1 }
  | _ => s

def loopForm (testLast : Bool) (depth temps : Nat) (l : Lowered) (lines : List String) : Flow :=
  Flow.exitForm (loopFlag testLast temps) (env.loopTest testLast depth temps l) (.perform lines)

variable {env} {s t u : LowerState} {l : Lowered} {place : Place} {testLast : Bool} {id : NodeId}
  {condition : Expr} {body : Stmt}

theorem ok_of_placed {m : Lower Unit} (h : env.placed place m s = (.ok (), t)) :
    ∃ u, m (env.opened place s) = (.ok (), u) ∧ t.lines = u.lines := by
  cases place with
  | alternative =>
    obtain ⟨_, v, helse, h⟩ := ok_of_bind h
    obtain rfl : { s with lines := s.lines ++ [env.indentation s.depth ++ _] } = v :=
      congrArg Prod.snd helse
    obtain ⟨u, hu, rfl⟩ := ok_of_indented h
    exact ⟨u, hu, rfl⟩
  | line => exact ⟨t, h, rfl⟩
  | inner => exact ⟨t, h, rfl⟩

theorem ok_of_loop (h : env.stmt place (.loop testLast id condition body) s = (.ok (), t))
    (hcondition : env.expr none condition (env.opened place s) = (.ok l, u))
    (hl : l.hoists.isEmpty = false) :
    ∃ v, env.loopWithExit l testLast (env.stmt .inner body) u = (.ok (), v) ∧
      t.lines = v.lines := by
  have hif (plain : Lowered → Lower Unit) (v : LowerState)
      (h : (env.expr none condition >>= fun l =>
        if l.hoists.isEmpty then plain l else env.loopWithExit l testLast (env.stmt .inner body))
          (env.opened place s) = (.ok (), v)) :
      env.loopWithExit l testLast (env.stmt .inner body) u = (.ok (), v) := by
    rw [bind_of_ok hcondition, if_neg (by simp [hl])] at h
    exact h
  cases testLast with
  | false =>
    change env.stmt place (.whileLoop id condition body) s = _ at h
    rw [stmt] at h
    obtain ⟨v, hv, hlines⟩ := ok_of_placed h
    exact ⟨v, hif _ v hv, hlines⟩
  | true =>
    change env.stmt place (.doWhile id body condition) s = _ at h
    rw [stmt] at h
    obtain ⟨v, hv, hlines⟩ := ok_of_placed h
    exact ⟨v, hif _ v hv, hlines⟩

/-- A loop whose condition has lines of its own is written as an endless loop with an exit. Whatever
its pieces mean, as long as they do not touch the flag, the written program evaluates the condition
and runs the body in the same order and in the same stores as the loop, and ends like it. -/
theorem loop_keeps_meaning (h : env.stmt place (.loop testLast id condition body) s = (.ok (), t))
    (hcondition : env.expr none condition (env.opened place s) = (.ok l, u))
    (hl : l.hoists.isEmpty = false) :
    ∃ lines v w, env.stmt .inner body v = (.ok (), w) ∧ w.lines = v.lines ++ lines ∧
      t.lines = (env.opened place s).lines ++
        (env.loopForm testLast u.depth u.temps l lines).lines env u.depth ∧
      ∀ (ω : Type) (m : Meaning ω), (∀ x ∈ loopFlag testLast u.temps,
          m.Spares x (env.loopTest testLast u.depth u.temps l) lines) →
        Behaviour.without (loopFlag testLast u.temps)
            ((env.loopForm testLast u.depth u.temps l lines).runs m) =
          Behaviour.without (loopFlag testLast u.temps)
            (loop testLast ((env.loopTest testLast u.depth u.temps l).runs m)
              (m.performs lines)) := by
  obtain ⟨x, hloop, hlines⟩ := ok_of_loop h hcondition hl
  have hbefore : u.lines = (env.opened place s).lines :=
    (env.silent_expr none condition).lines_eq hcondition
  obtain ⟨lines, v, w, hrun, hbody, hform⟩ :=
    emitted_loopWithExit (env.keeps_stmt .inner body) rfl rfl hloop
  refine ⟨lines, v, w, hrun, hbody.lines, ?_, fun ω m hm => ?_⟩
  · rw [hlines, hform.lines, hbefore]
    rfl
  · have hflag : testLast = (loopFlag testLast u.temps).isSome := by
      cases testLast <;> rfl
    have hloop : @loop ω testLast = loop (loopFlag testLast u.temps).isSome := congrArg loop hflag
    rw [hloop]
    exact runs_exitForm fun x hx => (hm x hx).untouched

/-- A source of items: a condition takes one of them and holds while there are more. -/
def countdown : Meaning Nat where
  prepare _ s halt t := halt = none ∧ t = { s with rest := s.rest - 1 }
  evaluate _ s answer t := answer = .value (s.rest != 0) ∧ t = s
  perform _ s ending t := ending = .continues ∧ t = s

theorem countdown_spares (x : String) (test : Test) (lines : List String) :
    countdown.Spares x test lines where
  prepare := by
    rintro s _ _ ⟨rfl, rfl⟩
    exact ⟨rfl, fun _ => ⟨rfl, rfl⟩⟩
  evaluate := by
    rintro s _ _ ⟨rfl, rfl⟩
    exact ⟨rfl, fun _ => ⟨rfl, rfl⟩⟩
  perform := by
    rintro s _ _ ⟨rfl, rfl⟩
    exact ⟨rfl, fun _ => ⟨rfl, rfl⟩⟩

/-- `do { continue; } while (TryNext(out var item));` -/
def drain : Stmt := .loop true 0 .takesNext (.block 0 [.continueLoop 0])

theorem drain_keeps_meaning : ∃ l u lines, emptyProgram.expr none .takesNext {} = (.ok l, u) ∧
    (emptyProgram.loopForm true u.depth u.temps l lines).lines emptyProgram u.depth =
      ["let first_2 = true;",
        "while (true) \x7b",
        "  if (!first_2) \x7b",
        "    const out_1: \x7b value: any \x7d = \x7b value: undefined \x7d;",
        "    const cond_3 = TryNext(out_1);",
        "    let item = out_1.value;",
        "    if (!(cond_3)) \x7b",
        "      break;",
        "    \x7d",
        "  \x7d",
        "  first_2 = false;",
        "  continue;",
        "\x7d"] ∧
    Behaviour.without (loopFlag true u.temps)
        ((emptyProgram.loopForm true u.depth u.temps l lines).runs countdown) =
      Behaviour.without (loopFlag true u.temps)
        (loop true ((emptyProgram.loopTest true u.depth u.temps l).runs countdown)
          (countdown.performs lines)) := by
  have hhoists : (emptyProgram.expr none .takesNext {}).1.map (fun l => l.hoists.isEmpty) =
      .ok false := by
    decide +kernel
  have hok : (emptyProgram.stmt .line drain {}).1.map (fun _ => true) = .ok true := by
    decide +kernel
  obtain ⟨l, u, hcondition, hl⟩ := Yields.of_fst hhoists
  obtain ⟨_, t, hrun, -⟩ := Yields.of_fst hok
  obtain ⟨lines, v, w, -, -, hlines, hruns⟩ := loop_keeps_meaning hrun hcondition hl
  refine ⟨l, u, lines, hcondition, ?_, ?_⟩
  · have hwritten : t.lines = (emptyProgram.stmt .line drain {}).2.lines := by rw [hrun]
    rw [hwritten] at hlines
    refine hlines.symm.trans ?_
    decide +kernel
  · exact hruns Nat countdown fun x _ => countdown_spares x _ lines

end Surroundings

end Recast
