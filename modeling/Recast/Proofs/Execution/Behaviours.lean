import Mathlib.Logic.Function.Basic

/-! # What a piece of a program does

A run starts in a store, makes steps and ends with a result in another store. What a piece of a
program does is the set of its runs. Runs may be cut off before each step, so that a loop that never
ends has runs as well, with every number of steps. Sequences, alternatives and loops have their
usual meaning; nothing is said about the single steps.
-/
namespace Recast.Execution

/-- Flags by their names, and the rest of the store, which is left open. -/
structure Store (ω : Type) where
  flags : String → Bool
  rest : ω

namespace Store
variable {ω : Type}

def put (x : String) (v : Bool) (s : Store ω) : Store ω :=
  { s with flags := Function.update s.flags x v }

variable (x : String) (v : Bool) (s : Store ω)

@[simp] theorem flags_put : (s.put x v).flags x = v := by
  simp [put]

@[simp] theorem put_put (w : Bool) : (s.put x w).put x v = s.put x v := by
  simp [put]

theorem put_of_flags {v : Bool} (h : s.flags x = v) : s.put x v = s := by
  subst h
  simp [put]

end Store

/-- Why a run does not go on where it is. -/
inductive Halt where
  | returns | throws
  /-- The run is cut off. -/
  | running
  deriving DecidableEq, Repr

inductive Ending where
  | normal | continues | breaks
  | halts (h : Halt)
  deriving DecidableEq, Repr

inductive Answer where
  | value (b : Bool)
  | halts (h : Halt)
  deriving DecidableEq, Repr

/-- How a loop ends whose body ends like this; none if it goes on. -/
def Ending.exit? : Ending → Option Ending
  | .normal | .continues => none
  | .breaks => some .normal
  | .halts h => some (.halts h)

/-- How a loop ends whose condition comes to this; none if it goes on. -/
def Answer.exit? : Answer → Option Ending
  | .value true => none
  | .value false => some .normal
  | .halts h => some (.halts h)

inductive Step where
  /-- Lines in front of the value that they belong to, which end by themselves or halt. -/
  | prepared (lines : List String) (halt : Option Halt)
  | evaluated (code : String) (answer : Answer)
  | performed (lines : List String) (ending : Ending)

/-- A step with the stores before and after it. -/
structure Event (ω : Type) where
  step : Step
  before : Store ω
  after : Store ω

namespace Event
variable {ω : Type}

def put (x : String) (v : Bool) (e : Event ω) : Event ω :=
  { e with before := e.before.put x v, after := e.after.put x v }

@[simp] theorem put_put (x : String) (v w : Bool) (e : Event ω) :
    (e.put x w).put x v = e.put x v := by
  simp [put]

end Event

/-- The runs of a piece of a program, each with the store it starts in, its steps, its result and
the store it ends in. -/
def Behaviour (ω α : Type) : Type := Store ω → List (Event ω) → α → Store ω → Prop

namespace Behaviour
variable {ω α β γ : Type}

@[ext] theorem ext {b c : Behaviour ω α} (h : ∀ s τ a t, b s τ a t ↔ c s τ a t) : b = c := by
  funext s τ a t
  exact propext (h s τ a t)

instance : Monad (Behaviour ω) where
  pure a s τ b t := τ = [] ∧ b = a ∧ t = s
  bind b f s τ c t := ∃ τ₁ a u τ₂, τ = τ₁ ++ τ₂ ∧ b s τ₁ a u ∧ f a u τ₂ c t

theorem bind_apply {b : Behaviour ω α} {f : α → Behaviour ω β} {s t : Store ω}
    {τ : List (Event ω)} {c : β} :
    (b >>= f) s τ c t ↔ ∃ τ₁ a u τ₂, τ = τ₁ ++ τ₂ ∧ b s τ₁ a u ∧ f a u τ₂ c t := Iff.rfl

@[simp] protected theorem pure_bind (a : α) (f : α → Behaviour ω β) : pure a >>= f = f a := by
  ext s τ c t
  constructor
  · rintro ⟨_, _, _, τ₂, rfl, ⟨rfl, rfl, rfl⟩, h⟩
    exact h
  · intro h
    exact ⟨[], a, s, τ, rfl, ⟨rfl, rfl, rfl⟩, h⟩

@[simp] protected theorem bind_assoc (b : Behaviour ω α) (f : α → Behaviour ω β)
    (g : β → Behaviour ω γ) : b >>= f >>= g = b >>= fun a => f a >>= g := by
  ext s τ c t
  constructor
  · rintro ⟨_, d, u, τ₃, rfl, ⟨τ₁, a, v, τ₂, rfl, hb, hf⟩, hg⟩
    exact ⟨τ₁, a, v, τ₂ ++ τ₃, List.append_assoc .., hb, τ₂, d, u, τ₃, rfl, hf, hg⟩
  · rintro ⟨τ₁, a, v, _, rfl, hb, τ₂, d, u, τ₃, rfl, hf, hg⟩
    exact ⟨τ₁ ++ τ₂, d, u, τ₃, (List.append_assoc ..).symm, ⟨τ₁, a, v, τ₂, rfl, hb, hf⟩, hg⟩

/-- One step, or a run that is cut off before it. -/
def observed (cut : α) (step : α → Step) (R : Store ω → α → Store ω → Prop) : Behaviour ω α :=
  fun s τ a t => (τ = [] ∧ a = cut ∧ t = s) ∨ (τ = [⟨step a, s, t⟩] ∧ R s a t)

def reads (x : String) : Behaviour ω Answer :=
  fun s τ o t => τ = [] ∧ o = .value (s.flags x) ∧ t = s

def puts (x : String) (v : Bool) : Behaviour ω Ending :=
  fun s τ e t => τ = [] ∧ e = .normal ∧ t = s.put x v

theorem reads_bind (x : String) (f : Answer → Behaviour ω α) (s : Store ω) :
    (reads x >>= f) s = f (.value (s.flags x)) s := by
  funext τ a t
  refine propext ⟨?_, ?_⟩
  · rintro ⟨_, _, _, τ₂, rfl, ⟨rfl, rfl, rfl⟩, h⟩
    exact h
  · intro h
    exact ⟨[], _, s, τ, rfl, ⟨rfl, rfl, rfl⟩, h⟩

theorem puts_bind (x : String) (v : Bool) (f : Ending → Behaviour ω α) (s : Store ω) :
    (puts x v >>= f) s = f .normal (s.put x v) := by
  funext τ a t
  refine propext ⟨?_, ?_⟩
  · rintro ⟨_, _, _, τ₂, rfl, ⟨rfl, rfl, rfl⟩, h⟩
    exact h
  · intro h
    exact ⟨[], _, s.put x v, τ, rfl, ⟨rfl, rfl, rfl⟩, h⟩

def andThen (b c : Behaviour ω Ending) : Behaviour ω Ending := do
  match ← b with
  | .normal => c
  | e => pure e

/-- `if (!condition) ...` -/
def ifNot (condition : Behaviour ω Answer) (b : Behaviour ω Ending) : Behaviour ω Ending := do
  match ← condition with
  | .value true => pure .normal
  | .value false => b
  | .halts h => pure (.halts h)

/-- Two halves of a round: the second one only takes place if the first one does not end the
loop. -/
def half (p q : Behaviour ω (Option Ending)) : Behaviour ω (Option Ending) := do
  match ← p with
  | some e => pure (some e)
  | none => q

/-- Something that may end a loop, and what the loop does if it goes on. -/
def goesOn (p : Behaviour ω (Option Ending)) (rest : Behaviour ω Ending) : Behaviour ω Ending := do
  match ← p with
  | some e => pure e
  | none => rest

/-- Rounds until one of them ends the loop. -/
inductive Rounds (round : Behaviour ω (Option Ending)) : Behaviour ω Ending
  | last {s t : Store ω} {τ : List (Event ω)} {e : Ending} (h : round s τ (some e) t) :
    Rounds round s τ e t
  | again {s t u : Store ω} {τ τ' : List (Event ω)} {e : Ending} (h : round s τ none u)
      (hrest : Rounds round u τ' e t) : Rounds round s (τ ++ τ') e t

/-- `while (condition) ...` -/
def whileLoop (condition : Behaviour ω Answer) (b : Behaviour ω Ending) : Behaviour ω Ending :=
  Rounds (half (condition >>= fun o => pure o.exit?) (b >>= fun e => pure e.exit?))

/-- `do ... while (condition)` -/
def doLoop (b : Behaviour ω Ending) (condition : Behaviour ω Answer) : Behaviour ω Ending :=
  Rounds (half (b >>= fun e => pure e.exit?) (condition >>= fun o => pure o.exit?))

variable {s t : Store ω} {τ : List (Event ω)} {e : Ending}
  {p q : Behaviour ω (Option Ending)} {rest : Behaviour ω Ending}

theorem half_some_iff : half p q s τ (some e) t ↔ p s τ (some e) t ∨
    ∃ τ₁ u τ₂, τ = τ₁ ++ τ₂ ∧ p s τ₁ none u ∧ q u τ₂ (some e) t := by
  constructor
  · rintro ⟨τ₁, r, u, τ₂, rfl, hp, h⟩
    cases r with
    | some d =>
      obtain ⟨rfl, hd, rfl⟩ := h
      rw [List.append_nil, hd]
      exact .inl hp
    | none => exact .inr ⟨τ₁, u, τ₂, rfl, hp, h⟩
  · rintro (hp | ⟨τ₁, u, τ₂, rfl, hp, hq⟩)
    · exact ⟨τ, some e, t, [], (List.append_nil τ).symm, hp, rfl, rfl, rfl⟩
    · exact ⟨τ₁, none, u, τ₂, rfl, hp, hq⟩

theorem half_none_iff : half p q s τ none t ↔
    ∃ τ₁ u τ₂, τ = τ₁ ++ τ₂ ∧ p s τ₁ none u ∧ q u τ₂ none t := by
  constructor
  · rintro ⟨τ₁, r, u, τ₂, rfl, hp, h⟩
    cases r with
    | some d => exact absurd h.2.1 (by simp)
    | none => exact ⟨τ₁, u, τ₂, rfl, hp, h⟩
  · rintro ⟨τ₁, u, τ₂, rfl, hp, hq⟩
    exact ⟨τ₁, none, u, τ₂, rfl, hp, hq⟩

theorem goesOn_iff : goesOn p rest s τ e t ↔ p s τ (some e) t ∨
    ∃ τ₁ u τ₂, τ = τ₁ ++ τ₂ ∧ p s τ₁ none u ∧ rest u τ₂ e t := by
  constructor
  · rintro ⟨τ₁, r, u, τ₂, rfl, hp, h⟩
    cases r with
    | some d =>
      obtain ⟨rfl, rfl, rfl⟩ := h
      rw [List.append_nil]
      exact .inl hp
    | none => exact .inr ⟨τ₁, u, τ₂, rfl, hp, h⟩
  · rintro (hp | ⟨τ₁, u, τ₂, rfl, hp, hrest⟩)
    · exact ⟨τ, some e, t, [], (List.append_nil τ).symm, hp, rfl, rfl, rfl⟩
    · exact ⟨τ₁, none, u, τ₂, rfl, hp, hrest⟩

theorem rounds_eq_goesOn (round : Behaviour ω (Option Ending)) :
    Rounds round = goesOn round (Rounds round) := by
  ext s τ e t
  rw [goesOn_iff]
  constructor
  · rintro (h | ⟨h, hrest⟩)
    · exact .inl h
    · exact .inr ⟨_, _, _, rfl, h, hrest⟩
  · rintro (h | ⟨τ₁, u, τ₂, rfl, h, hrest⟩)
    · exact .last h
    · exact .again h hrest

/-- A loop may start in the middle of a round. -/
theorem rounds_half (p q : Behaviour ω (Option Ending)) :
    Rounds (half p q) = goesOn p (Rounds (half q p)) := by
  ext s τ e t
  rw [goesOn_iff]
  constructor
  · intro h
    induction h with
    | last h =>
      rcases half_some_iff.mp h with hp | ⟨τ₁, u, τ₂, rfl, hp, hq⟩
      · exact .inl hp
      · exact .inr ⟨τ₁, u, τ₂, rfl, hp, .last (half_some_iff.mpr (.inl hq))⟩
    | again h _ ih =>
      obtain ⟨τ₁, u, τ₂, rfl, hp, hq⟩ := half_none_iff.mp h
      rcases ih with hp' | ⟨τ₃, v, τ₄, rfl, hp', hrest⟩
      · exact .inr ⟨τ₁, u, _, List.append_assoc .., hp,
          .last (half_some_iff.mpr (.inr ⟨τ₂, _, _, rfl, hq, hp'⟩))⟩
      · refine .inr ⟨τ₁, u, τ₂ ++ τ₃ ++ τ₄, by simp, hp, ?_⟩
        exact .again (half_none_iff.mpr ⟨τ₂, _, τ₃, rfl, hq, hp'⟩) hrest
  · rintro (hp | ⟨τ₁, u, τ₂, rfl, hp, h⟩)
    · exact .last (half_some_iff.mpr (.inl hp))
    · -- the loop that starts with the other half runs ahead of this one by one half
      induction h generalizing s τ₁ with
      | @last u t τ e h =>
        rcases half_some_iff.mp h with hq | ⟨τ₂, v, τ₃, rfl, hq, hp'⟩
        · exact .last (half_some_iff.mpr (.inr ⟨τ₁, u, τ, rfl, hp, hq⟩))
        · rw [← List.append_assoc]
          exact .again (half_none_iff.mpr ⟨τ₁, u, τ₂, rfl, hp, hq⟩)
            (.last (half_some_iff.mpr (.inl hp')))
      | @again u t w τ τ' e h _ ih =>
        obtain ⟨τ₂, v, τ₃, rfl, hq, hp'⟩ := half_none_iff.mp h
        have happend : τ₁ ++ (τ₂ ++ τ₃ ++ τ') = τ₁ ++ τ₂ ++ (τ₃ ++ τ') := by simp
        rw [happend]
        exact .again (half_none_iff.mpr ⟨τ₁, u, τ₂, rfl, hp, hq⟩) (ih _ _ hp')

/-- A `do` loop runs its body once and is a `while` loop from then on. -/
theorem doLoop_eq (b : Behaviour ω Ending) (condition : Behaviour ω Answer) :
    doLoop b condition = goesOn (b >>= fun e => pure e.exit?) (whileLoop condition b) :=
  rounds_half ..

/-- Two loops do the same from stores of a kind that is kept, if their rounds do. -/
theorem rounds_congr {round round' : Behaviour ω (Option Ending)} {I : Store ω → Prop}
    (hround : ∀ s, I s → round s = round' s) (hkeep : ∀ s τ t, I s → round s τ none t → I t)
    (hs : I s) : Rounds round s τ e t ↔ Rounds round' s τ e t := by
  constructor
  · intro h
    induction h with
    | @last s t τ e h => exact .last (hround s hs ▸ h)
    | @again s t u τ τ' e h _ ih => exact .again (hround s hs ▸ h) (ih (hkeep s τ u hs h))
  · intro h
    induction h with
    | @last s t τ e h => exact .last ((hround s hs).symm ▸ h)
    | @again s t u τ τ' e h _ ih =>
      have hr : round s τ none u := (hround s hs).symm ▸ h
      exact .again hr (ih (hkeep s τ u hs hr))

theorem bind_eq_of_eq {b c : Behaviour ω α} {s s' : Store ω} (h : b s = c s')
    (f : α → Behaviour ω β) : (b >>= f) s = (c >>= f) s' := by
  funext τ a t
  simp only [bind_apply, h]

/-- A step does not touch the flag: it leaves it as it is, and it does the same whatever it is. -/
def Spares (x : String) (R : Store ω → α → Store ω → Prop) : Prop :=
  ∀ s a t, R s a t → t.flags x = s.flags x ∧ ∀ v, R (s.put x v) a (t.put x v)

/-- The same for whole runs. -/
structure Untouched (x : String) (b : Behaviour ω α) : Prop where
  keeps : ∀ s τ a t, b s τ a t → t.flags x = s.flags x
  ignores : ∀ v s τ a t, b s τ a t → b (s.put x v) (τ.map (Event.put x v)) a (t.put x v)

namespace Untouched
variable {x : String} {b : Behaviour ω α} {f g : α → Behaviour ω β}

theorem pure (a : α) : Untouched x (Pure.pure a : Behaviour ω α) where
  keeps := by
    rintro s _ _ _ ⟨rfl, rfl, rfl⟩
    rfl
  ignores := by
    rintro v s _ _ _ ⟨rfl, rfl, rfl⟩
    exact ⟨rfl, rfl, rfl⟩

theorem observed {R : Store ω → α → Store ω → Prop} (hR : Spares x R) (cut : α)
    (step : α → Step) : Untouched x (observed cut step R) where
  keeps := by
    rintro s _ a t (⟨rfl, rfl, rfl⟩ | ⟨rfl, h⟩)
    · rfl
    · exact (hR s a t h).1
  ignores := by
    rintro v s _ a t (⟨rfl, rfl, rfl⟩ | ⟨rfl, h⟩)
    · exact .inl ⟨rfl, rfl, rfl⟩
    · exact .inr ⟨rfl, (hR s a t h).2 v⟩

theorem bind (hb : Untouched x b) (hf : ∀ a, Untouched x (f a)) : Untouched x (b >>= f) where
  keeps := by
    rintro s _ c t ⟨τ₁, a, u, τ₂, rfl, h₁, h₂⟩
    exact ((hf a).keeps _ _ _ _ h₂).trans (hb.keeps _ _ _ _ h₁)
  ignores := by
    rintro v s _ c t ⟨τ₁, a, u, τ₂, rfl, h₁, h₂⟩
    exact ⟨_, a, _, _, List.map_append, hb.ignores v _ _ _ _ h₁, (hf a).ignores v _ _ _ _ h₂⟩

theorem half {p q : Behaviour ω (Option Ending)} (hp : Untouched x p) (hq : Untouched x q) :
    Untouched x (p.half q) :=
  hp.bind fun r => by
    cases r with
    | some e => exact .pure _
    | none => exact hq

theorem rounds {round : Behaviour ω (Option Ending)} (h : Untouched x round) :
    Untouched x (Rounds round) where
  keeps s τ e t hr := by
    induction hr with
    | last hl => exact h.keeps _ _ _ _ hl
    | again hl _ ih => exact ih.trans (h.keeps _ _ _ _ hl)
  ignores v s τ e t hr := by
    induction hr with
    | last hl => exact .last (h.ignores v _ _ _ _ hl)
    | again hl _ ih =>
      rw [List.map_append]
      exact .again (h.ignores v _ _ _ _ hl) ih

theorem doLoop {b : Behaviour ω Ending} {condition : Behaviour ω Answer} (hb : Untouched x b)
    (hc : Untouched x condition) : Untouched x (doLoop b condition) :=
  ((hb.bind fun _ => .pure _).half (hc.bind fun _ => .pure _)).rounds

/-- What comes next may rely on the value that the flag has. -/
theorem bind_congr (hb : Untouched x b) {v : Bool} (hs : s.flags x = v)
    (hfg : ∀ a u, u.flags x = v → f a u = g a u) : (b >>= f) s = (b >>= g) s := by
  funext τ c t
  refine propext ⟨?_, ?_⟩
  · rintro ⟨τ₁, a, u, τ₂, rfl, h₁, h₂⟩
    have hu := (hb.keeps _ _ _ _ h₁).trans hs
    exact ⟨τ₁, a, u, τ₂, rfl, h₁, hfg a u hu ▸ h₂⟩
  · rintro ⟨τ₁, a, u, τ₂, rfl, h₁, h₂⟩
    have hu := (hb.keeps _ _ _ _ h₁).trans hs
    exact ⟨τ₁, a, u, τ₂, rfl, h₁, (hfg a u hu).symm ▸ h₂⟩

end Untouched

/-- What is seen of the runs if a flag cannot be seen. -/
def without (flag : Option String) (b : Behaviour ω α) : Behaviour ω α :=
  match flag with
  | none => b
  | some x => fun s τ a t =>
    ∃ τ' t', b s τ' a t' ∧ τ = τ'.map (Event.put x false) ∧ t = t'.put x false

theorem map_put_put (x : String) (v w : Bool) (τ : List (Event ω)) :
    (τ.map (Event.put x w)).map (Event.put x v) = τ.map (Event.put x v) := by
  simp [Function.comp_def]

/-- A flag that is not touched may as well be false from the beginning. -/
theorem without_eq_of_put {x : String} {b c : Behaviour ω α} (hc : Untouched x c)
    (h : ∀ s, b s = c (s.put x false)) : without (some x) b = without (some x) c := by
  ext s τ a t
  constructor
  · rintro ⟨τ', t', hb, rfl, rfl⟩
    rw [h] at hb
    have hs := hc.ignores (s.flags x) _ _ _ _ hb
    rw [Store.put_put, Store.put_of_flags _ _ rfl] at hs
    exact ⟨_, _, hs, (map_put_put ..).symm, (Store.put_put ..).symm⟩
  · rintro ⟨τ', t', hs, rfl, rfl⟩
    refine ⟨_, _, ?_, (map_put_put x false false τ').symm, (Store.put_put x false t' false).symm⟩
    rw [h]
    exact hc.ignores false _ _ _ _ hs

end Behaviour

end Recast.Execution
