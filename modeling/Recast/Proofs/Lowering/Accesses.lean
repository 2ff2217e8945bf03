import Recast.Proofs.Lowering.Failures

/-! # What a name becomes

A run of lowering that is known to succeed, with what it yields. Names always succeed, so their text
can be computed from what the program and the oracle say about them: alone, behind a dot, and behind
the dot of a call that asks first whether there is a receiver.
-/
namespace Recast

namespace Lower
variable {α β : Type} {m : Lower α} {f : α → Lower β} {s u : LowerState} {a : α} {P : α → Prop}
  {Q : β → Prop}

/-- From `s`, `m` succeeds, and what it yields satisfies `P`. -/
def Yields (s : LowerState) (P : α → Prop) (m : Lower α) : Prop := ∃ a t, m s = (.ok a,t) ∧ P a

namespace Yields

theorem pure (h : P a) : Yields s P (Pure.pure a : Lower α) := ⟨a,s,rfl,h⟩

theorem mono {P' : α → Prop} (h : Yields s P m) (hP : ∀ a, P a → P' a) : Yields s P' m := by
  obtain ⟨a,t,hm,ha⟩ := h
  exact ⟨a,t,hm,hP a ha⟩

/-- What `m` yields is settled by its run. -/
theorem elim {t : LowerState} (h : Yields s P m) (hm : m s = (.ok a,t)) : P a := by
  obtain ⟨b,u,hb,hP⟩ := h
  obtain ⟨rfl,rfl⟩ : b = a ∧ u = t := by
    rw [hb] at hm
    cases hm
    exact ⟨rfl,rfl⟩
  exact hP

theorem of_fst {g : α → β} {b : β} (h : (m s).1.map g = .ok b) : Yields s (fun a => g a = b) m := by
  rcases hm : m s with ⟨r,t⟩
  rw [hm] at h
  cases r with
  | error e => cases h
  | ok a => exact ⟨a,t,hm,Except.ok.inj h⟩

theorem after (hm : m s = (.ok a,u)) (hf : Yields u Q (f a)) : Yields s Q (m >>= f) := by
  obtain ⟨b,t,hb,hQ⟩ := hf
  exact ⟨b,t,(bind_of_ok hm).trans hb,hQ⟩

theorem bind (hm : Yields s P m) (hf : ∀ a u, m s = (.ok a,u) → P a → Yields u Q (f a)) :
    Yields s Q (m >>= f) := by
  obtain ⟨a,u,ha,hP⟩ := hm
  exact after ha (hf a u ha hP)

theorem isolated (h : Yields s P m) : Yields s P (Lower.isolated m) := by
  obtain ⟨a,t,hm,ha⟩ := h
  refine ⟨a,{ t with scope := t.scope.restore s.scope.depth },?_,ha⟩
  simp only [Lower.isolated,hm]

theorem calling {arity : Option Nat} (h : Yields { s with callArity := arity } P m) :
    Yields s P (Lower.calling arity m) := by
  obtain ⟨a,t,hm,ha⟩ := h
  refine ⟨a,{ t with callArity := none },?_,ha⟩
  simp only [Lower.calling,hm]

theorem withBinding {receiver : ClassRef}
    (h : Yields { s with bindingReceiver := some receiver } P m) :
    Yields s P (Lower.withBinding receiver m) := by
  obtain ⟨a,t,hm,ha⟩ := h
  refine ⟨a,{ t with bindingReceiver := s.bindingReceiver },?_,ha⟩
  simp only [Lower.withBinding,hm]

theorem memberOf {receiver : ClassRef} {arity : Option Nat}
    (h : Yields { s with scope := s.scope.push (.ofClass receiver), callArity := arity } P m) :
    Yields s P (Lower.memberOf receiver arity m) :=
  .isolated (.after rfl (.calling h))

end Yields

end Lower

theorem Scope.receiver?_push_ofClass {σ : Scope} (h : σ.memberOwner?.isSome) (c : ClassRef) :
    (σ.push (.ofClass c)).receiver? = some c := by
  unfold receiver?
  rw [memberOwner?_push_ofClass]
  simp [push,h]

namespace Surroundings
open Lower
variable {env : Surroundings} {s u : LowerState} {id : NodeId} {name : String}

/-- A step without hurdles succeeds. -/
theorem Meets.yields {α : Type} {m : Lower α} {P : α → Prop} (hm : env.Meets s.scope [] m)
    (hP : ∀ a t, m s = (.ok a,t) → P a) : Yields s P m := by
  have h := (hm s rfl).2
  match hr : m s with
  | (.ok a, t) => exact ⟨a,t,hr,hP a t hr⟩
  | (.error e, t) =>
    rw [hr] at h
    cases h

theorem yields_spellTypes (tys : List SourceType) : Yields s
    (fun texts => texts = tys.map fun ty => (env.tables.spell (.ofType ty)).text)
    (env.spellTypes tys) := by
  induction tys generalizing s with
  | nil => exact .pure rfl
  | cons ty tys ih =>
    refine Yields.bind (P := fun text => text = (env.tables.spell (.ofType ty)).text) ?_ ?_
    · exact (env.unhindered.spell _).yields fun text t h => by
        obtain ⟨_,_,_,h₁⟩ := ok_of_bind h
        obtain ⟨_,_,_,h₂⟩ := ok_of_bind h₁
        exact (ok_of_pure h₂).1.symm
    · rintro text u - rfl
      refine Yields.bind ih ?_
      rintro texts v - rfl
      exact .pure rfl

/-- A name behind a dot is looked up on the receiver, whatever the oracle says about it. -/
theorem yields_identifier_of_receiver {receiver : ClassRef}
    (h : s.scope.receiver? = some receiver) :
    Yields s (fun l => l.code = (env.memberName receiver name s.callArity).code ∧
      l.processed = true) (env.identifier id name) := by
  refine .after (u := { s with callArity := none }) rfl (.after rfl ?_)
  dsimp only
  rw [h]
  refine .after rfl (.pure ?_)
  have hp := (env.plain_memberName receiver name s.callArity).processed
  rw [if_pos hp]
  exact ⟨rfl,hp⟩

variable (env) in
/-- A name with the type that the oracle gives it, if something is left of the name. -/
def typed (id : NodeId) (l : Lowered) : Lowered :=
  if l.processed then { l with ty := env.typeOf? id <|> l.ty } else l

theorem typed_code (id : NodeId) (l : Lowered) : (env.typed id l).code = l.code := by
  unfold typed
  split
  · rfl
  · rfl

theorem yields_identifier_of_symbol {symbol : Symbol} {P : Lowered → Prop}
    (h : s.scope.receiver? = none) (hs : env.oracle.symbolOf? id = some symbol)
    (hm : Yields { s with callArity := none } P
      (env.symbolName s.scope symbol name s.callArity)) :
    Yields s (fun l => ∃ k, P k ∧ l = env.typed id k) (env.identifier id name) := by
  refine .after (u := { s with callArity := none }) rfl (.after rfl ?_)
  dsimp only
  rw [h,hs]
  exact hm.bind fun l t _ hl => .pure ⟨l,hl,rfl⟩

theorem yields_identifier_of_plain {P : Lowered → Prop} (h : s.scope.receiver? = none)
    (hs : env.oracle.symbolOf? id = none)
    (hm : Yields { s with callArity := none } P (env.plainName s.scope name s.callArity)) :
    Yields s (fun l => ∃ k, P k ∧ l = env.typed id k) (env.identifier id name) := by
  refine .after (u := { s with callArity := none }) rfl (.after rfl ?_)
  dsimp only
  rw [h,hs]
  exact hm.bind fun l t _ hl => .pure ⟨l,hl,rfl⟩

/-- A member behind something of which a value or a class is left. -/
theorem yields_access {target member : Expr} {lowerTarget lowerName : Lower Lowered} {l : Lowered}
    {P : Lowered → Prop} (hl : lowerTarget { s with callArity := none } = (.ok l,u))
    (hp : l.processed = true)
    (hm : Yields u P
      (Lower.memberOf (env.receiverFor u.scope target l) s.callArity lowerName)) :
    Yields s (fun r => ∃ m, P m ∧ r.code =
      (env.redirect? u.scope (env.receiverFor u.scope target l) target member s.callArity).elim
        (env.dialect.memberAccess l.code m.code)
        fun className => env.dialect.staticMember className m.code)
      (env.access id target member lowerTarget lowerName) := by
  refine .after (u := { s with callArity := none }) rfl (.after hl ?_)
  simp only [hp,Bool.not_true,Bool.false_eq_true,if_false]
  refine .after (u := u) rfl (hm.bind fun m t _ hP => ?_)
  split
  · next hr =>
    rw [hr]
    exact .after rfl (.pure ⟨m,hP,rfl⟩)
  · next hr =>
    rw [hr]
    exact .pure ⟨m,hP,rfl⟩

end Surroundings

end Recast
