import Recast.Proofs.Lowering.Context

/-! # References to other classes

Lowering notes the classes that a body mentions. All of them are classes of the program, and the
owner of the member at hand is not among them.
-/
namespace Recast.Surroundings
variable (env : Surroundings) {α β : Type} {m : Lower α} {f : α → Lower β}

/-- A class of the program that is not the owner of the member at hand. -/
def Foreign (scope : Scope) (name : String) : Prop :=
  scope.memberOwner?.map env.className ≠ some name ∧ (env.program.find? name).isSome = true

/-- The scope is what it was before, and the references that were added are to other classes. -/
def RefersAbroad {α : Type} (m : Lower α) : Prop := ∀ s : LowerState,
  (m s).2.scope = s.scope ∧
    ∀ name ∈ (m s).2.referenced, name ∈ s.referenced ∨ env.Foreign s.scope name

variable {env}

theorem RefersAbroad.of_eq (h : ∀ s, (m s).2.scope = s.scope ∧ (m s).2.referenced = s.referenced) :
    env.RefersAbroad m :=
  fun s => ⟨(h s).1,fun _ hname => .inl ((h s).2 ▸ hname)⟩

theorem RefersAbroad.bind (hm : env.RefersAbroad m) (hf : ∀ a, env.RefersAbroad (f a)) :
    env.RefersAbroad (m >>= f) := by
  intro s
  obtain ⟨hscope,hnames⟩ := hm s
  match hms : m s with
  | (.error e, t) =>
    rw [hms] at hscope hnames
    rw [Lower.bind_of_error hms]
    exact ⟨hscope,hnames⟩
  | (.ok a, t) =>
    rw [hms] at hscope hnames
    rw [Lower.bind_of_ok hms]
    obtain ⟨hscope',hnames'⟩ := hf a t
    refine ⟨hscope'.trans hscope,fun name hname => ?_⟩
    rcases hnames' name hname with hname | hforeign
    · exact hnames name hname
    · exact .inr (hscope ▸ hforeign)

theorem refersAbroad_reference (name : String) : env.RefersAbroad (env.reference name) := by
  intro s
  have hrun : (env.reference name s).2 =
      if s.scope.memberOwner?.map env.className != some name && (env.program.find? name).isSome &&
          !s.referenced.contains name then
        { s with referenced := s.referenced ++ [name] }
      else s := rfl
  rw [hrun]
  split
  · next hname =>
    simp only [Bool.and_eq_true, bne_iff_ne] at hname
    refine ⟨rfl,fun n hn => ?_⟩
    rcases List.mem_append.mp hn with hn | hn
    · exact .inl hn
    · cases List.mem_singleton.mp hn
      exact .inr hname.1
  · exact ⟨rfl,fun n hn => .inl hn⟩

/-- The frame of a receiver is not that of a member. -/
theorem foreign_push_ofClass {scope : Scope} {receiver : ClassRef} {name : String} :
    env.Foreign (scope.push (.ofClass receiver)) name ↔ env.Foreign scope name := by
  have howner : (scope.push (.ofClass receiver)).memberOwner? = scope.memberOwner? := by
    rw [Scope.memberOwner?, Scope.innermost?, Scope.push, List.reverse_concat]
    rfl
  rw [Foreign, howner, Foreign]

theorem refersAbroad_memberOf (receiver : ClassRef) (arity : Option Nat)
    (hm : env.RefersAbroad m) : env.RefersAbroad (Lower.memberOf receiver arity m) := by
  intro s
  obtain ⟨hscope,hnames⟩ :=
    hm { s with scope := s.scope.push (.ofClass receiver), callArity := arity }
  refine ⟨?_,fun name hname => ?_⟩
  · have hrestore := congrArg (Scope.restore · s.scope.depth) hscope
    exact hrestore.trans (s.scope.restore_push _)
  · exact (hnames name hname).imp_right foreign_push_ofClass.mp

variable (env) in
theorem elementary_refersAbroad : env.Elementary env.RefersAbroad where
  pure _ := .of_eq fun _ => ⟨rfl,rfl⟩
  bind hm hf := hm.bind hf
  get := .of_eq fun _ => ⟨rfl,rfl⟩
  takeArity := .of_eq fun _ => ⟨rfl,rfl⟩
  addImports _ := .of_eq fun _ => ⟨rfl,rfl⟩
  reference name := refersAbroad_reference name
  emit _ := .of_eq fun _ => ⟨rfl,rfl⟩
  declare _ := .of_eq fun _ => ⟨rfl,rfl⟩

variable (env) in
/-- Whatever else it does, lowering refers to other classes. -/
theorem traced_refersAbroad : env.Traced fun _ _ => env.RefersAbroad where
  pure := env.elementary_refersAbroad.pure
  bind := env.elementary_refersAbroad.bind
  get := env.elementary_refersAbroad.get
  takeArity := env.elementary_refersAbroad.takeArity
  addImports := env.elementary_refersAbroad.addImports
  reference := env.elementary_refersAbroad.reference
  emit := env.elementary_refersAbroad.emit
  throw _ := .of_eq fun _ => ⟨rfl,rfl⟩
  temp _ := .of_eq fun _ => ⟨rfl,rfl⟩
  declare name := env.elementary_refersAbroad.declare { name }
  declareLocal := env.elementary_refersAbroad.declareLocal
  isolated hm s := by
    obtain ⟨hscope,hnames⟩ := hm s
    refine ⟨?_,hnames⟩
    exact (congrArg (Scope.restore · s.scope.depth) hscope).trans s.scope.restore_depth
  indented hm s := hm { s with depth := s.depth + 1 }
  collected hm s := hm { s with lines := [] }
  withBinding receiver hm s := hm { s with bindingReceiver := some receiver }
  calling arity hm s := hm { s with callArity := arity }
  memberOf receiver arity hm := refersAbroad_memberOf receiver arity hm

end Recast.Surroundings
