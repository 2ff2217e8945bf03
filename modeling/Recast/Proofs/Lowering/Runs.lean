import Recast.Lower.Routine

/-! # Successful runs

A run of lowering that succeeds is taken apart into runs of its steps. There is one lemma for each
operation that steps are put together with.
-/
namespace Recast.Lower
variable {α β : Type} {m : Lower α} {f : α → Lower β} {s t : LowerState} {a : α} {b : β}

theorem bind_of_ok (h : m s = (.ok a,t)) : (m >>= f) s = f a t := by
  simp only [bind,ExceptT.bind,ExceptT.mk,StateT.bind,ExceptT.bindCont,h]

theorem bind_of_error {e : LowerError} (h : m s = (.error e,t)) : (m >>= f) s = (.error e,t) := by
  simp only [bind,ExceptT.bind,ExceptT.mk,StateT.bind,ExceptT.bindCont,h]
  rfl

theorem ok_of_bind (h : (m >>= f) s = (.ok b,t)) :
    ∃ a u, m s = (.ok a,u) ∧ f a u = (.ok b,t) := by
  match hm : m s with
  | (.ok a, u) => exact ⟨a,u,rfl,by rw [← h, bind_of_ok hm]⟩
  | (.error e, u) =>
    rw [bind_of_error hm] at h
    cases h

theorem ok_of_pure {b : α} (h : (pure a : Lower α) s = (.ok b,t)) : a = b ∧ s = t := by
  cases h
  exact ⟨rfl,rfl⟩

theorem ok_of_map {g : α → β} (h : (m >>= fun a => pure (g a)) s = (.ok b,t)) :
    ∃ a, m s = (.ok a,t) ∧ g a = b := by
  obtain ⟨a,u,hm,hp⟩ := ok_of_bind h
  obtain ⟨hb,rfl⟩ := ok_of_pure hp
  exact ⟨a,hm,hb⟩

theorem ok_of_isolated (h : isolated m s = (.ok a,t)) :
    ∃ u, m s = (.ok a,u) ∧ t = { u with scope := u.scope.restore s.scope.depth } := by
  match hm : m s with
  | (r, u) =>
    simp only [isolated,hm] at h
    cases h
    exact ⟨u,rfl,rfl⟩

theorem ok_of_indented (h : indented m s = (.ok a,t)) :
    ∃ u, m { s with depth := s.depth + 1 } = (.ok a,u) ∧ t = { u with depth := u.depth - 1 } := by
  match hm : m { s with depth := s.depth + 1 } with
  | (r, u) =>
    simp only [indented,hm] at h
    cases h
    exact ⟨u,rfl,rfl⟩

theorem ok_of_calling {arity : Option Nat} (h : calling arity m s = (.ok a,t)) :
    ∃ u, m { s with callArity := arity } = (.ok a,u) ∧ t = { u with callArity := none } := by
  match hm : m { s with callArity := arity } with
  | (r, u) =>
    simp only [calling,hm] at h
    cases h
    exact ⟨u,rfl,rfl⟩

theorem ok_of_withBinding {receiver : ClassRef} (h : withBinding receiver m s = (.ok a,t)) :
    ∃ u, m { s with bindingReceiver := some receiver } = (.ok a,u) ∧
      t = { u with bindingReceiver := s.bindingReceiver } := by
  match hm : m { s with bindingReceiver := some receiver } with
  | (r, u) =>
    simp only [withBinding,hm] at h
    cases h
    exact ⟨u,rfl,rfl⟩

theorem ok_of_memberOf {receiver : ClassRef} {arity : Option Nat}
    (h : memberOf receiver arity m s = (.ok a,t)) :
    ∃ u, m { s with scope := s.scope.push (.ofClass receiver), callArity := arity } = (.ok a,u) ∧
      t = { u with callArity := none, scope := u.scope.restore s.scope.depth } := by
  obtain ⟨_,hi,rfl⟩ := ok_of_isolated h
  obtain ⟨_,_,hp,hc⟩ := ok_of_bind hi
  obtain ⟨u,hm,rfl⟩ := ok_of_calling hc
  cases hp
  exact ⟨u,hm,rfl⟩

theorem ok_of_collected {m : Lower Unit} {lines : List String}
    (h : collected m s = (.ok lines,t)) :
    ∃ u, m { s with lines := [] } = (.ok (),u) ∧ lines = u.lines ∧
      t = { u with lines := s.lines } := by
  match hm : m { s with lines := [] } with
  | (.ok (), u) =>
    simp only [collected,hm,Except.map] at h
    cases h
    exact ⟨u,rfl,rfl,rfl⟩
  | (.error e, u) =>
    simp only [collected,hm,Except.map] at h
    cases h

/-- Whatever `m` yields satisfies `P`. -/
def Gives (P : α → Prop) (m : Lower α) : Prop := ∀ s a t, m s = (.ok a,t) → P a

theorem Gives.pure {P : α → Prop} (h : P a) : Gives P (Pure.pure a : Lower α) := fun _ _ _ hp =>
  (ok_of_pure hp).1 ▸ h

theorem Gives.bind {P : β → Prop} (h : ∀ a, Gives P (f a)) : Gives P (m >>= f) := fun _ _ _ hb =>
  let ⟨a,_,_,hf⟩ := ok_of_bind hb
  h a _ _ _ hf

end Recast.Lower

namespace Recast.LowerState

/-- At the start of the body of a routine. -/
def inRoutine (owner : ClassId) (index : Nat) : LowerState :=
  { scope := ⟨[.ofClass (.program owner),.ofRoutine owner index]⟩ }

end Recast.LowerState
