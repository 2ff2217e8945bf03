import Recast.Proofs.Locals.Constants
import Recast.Proofs.Naming.ClosedForm
import Recast.Proofs.Temporaries.Handing

/-! # Hygiene of temporary variables

Temporary variables stand in the same scopes of the target as the names that a routine binds itself.
No two of them have one name, since each has a number of its own. But nothing looks at the names of
the routine before a name is handed out, so hygiene depends on what the routine calls its own: it is
lost exactly if something in it has the name that one of its requests gets.
-/
namespace Recast

namespace Lower

def tempNames (n : Nat) : List String → List String
  | [] => []
  | word :: words => tempName word (n + 1) :: tempNames (n + 1) words

theorem handOut_eq (names words : List String) :
    handOut names words = (tempNames names.length words).reverse ++ names := by
  induction words generalizing names with
  | nil => rfl
  | cons word words ih =>
    change handOut (tempName word (names.length + 1) :: names) words = _
    rw [ih,tempNames,List.reverse_cons,List.append_assoc]
    rfl

/-- The digits at the end of a name are those of its number. -/
theorem takeWhile_isDigit_tempName (word : String) (n : Nat) :
    (tempName word n).toList.reverse.takeWhile Char.isDigit = (toString n).toList.reverse := by
  have hdigits : ∀ c ∈ (toString n).toList.reverse, c.isDigit = true := by
    intro c hc
    exact isDigits_toString n c (List.mem_reverse.mp hc)
  have hmark : ('_'.isDigit) = false := by decide
  rw [tempName,String.toList_append,String.toList_append,List.reverse_append,
    List.reverse_append,List.takeWhile_append_of_pos hdigits]
  simp [hmark]

/-- Whatever the words are, names with different numbers are different. -/
theorem number_eq_of_tempName_eq {v w : String} {i j : Nat} (h : tempName v i = tempName w j) :
    i = j := by
  have hdigits := congrArg (fun s : String => s.toList.reverse.takeWhile Char.isDigit) h
  simp only [takeWhile_isDigit_tempName] at hdigits
  exact toString_injective (String.toList_inj.mp (List.reverse_injective hdigits))

theorem exists_of_mem_tempNames {n : Nat} {words : List String} {name : String}
    (h : name ∈ tempNames n words) : ∃ word number, n < number ∧ name = tempName word number := by
  induction words generalizing n with
  | nil => cases h
  | cons word words ih =>
    rcases List.mem_cons.mp h with rfl | h
    · exact ⟨word,n + 1,Nat.lt_succ_self n,rfl⟩
    · obtain ⟨other,number,hlt,rfl⟩ := ih h
      exact ⟨other,number,Nat.lt_of_succ_lt hlt,rfl⟩

theorem nodup_tempNames (n : Nat) (words : List String) : (tempNames n words).Nodup := by
  induction words generalizing n with
  | nil => exact .nil
  | cons word words ih =>
    refine List.nodup_cons.mpr ⟨fun hmem => ?_,ih (n + 1)⟩
    obtain ⟨other,number,hlt,heq⟩ := exists_of_mem_tempNames hmem
    have hnumber := number_eq_of_tempName_eq heq
    omega

end Lower

/-- The name that an event gives a meaning in the body: that of a local or of a parameter of a
lambda. -/
def LocalEvent.binds? : LocalEvent → Option String
  | .declare site => some site.name
  | .hide name => some name
  | _ => none

/-- The names of the parameters of a routine, of the locals that are known of it and of those that
it declares, and of the parameters of the lambdas in it. -/
def Routine.boundNames (f : Routine) : List String :=
  f.parameters.map Parameter.name ++ f.locals.map LocalVariable.name ++
    (Trace.routine f).filterMap LocalEvent.binds?

namespace Lowering
open Lower
variable {l : Lowering} {id : ClassId} {index : Nat} {f : Routine} {c : Context} {t : LowerState}

def Context.requestedNames (c : Context) (f : Routine) : List String :=
  tempNames 0 (Requests.routine c.env.oracle true false f)

/-- If the routine is lowered, no name that is handed out is handed out again or is the name of a
parameter, a local or a parameter of a lambda of the routine. -/
def Hygienic (l : Lowering) (id : ClassId) (index : Nat) : Prop :=
  ∀ f c t, l.routineContext id index = .ok (f,c) →
    c.env.routineBody id f c.state = (.ok (),t) →
    t.handedOut.Nodup ∧ ∀ name ∈ t.handedOut, name ∉ f.boundNames

instance (l : Lowering) (id : ClassId) (index : Nat) : Decidable (l.Hygienic id index) :=
  match hc : l.routineContext id index with
  | .error _ => isTrue fun _ _ _ h => nomatch hc.symm.trans h
  | .ok (f,c) =>
    match hr : c.env.routineBody id f c.state with
    | (.error _,_) => isTrue fun _ _ _ h h' => by
      cases hc.symm.trans h
      nomatch hr.symm.trans h'
    | (.ok (),t) =>
      decidable_of_iff (t.handedOut.Nodup ∧ ∀ name ∈ t.handedOut, name ∉ f.boundNames) <| by
        constructor
        · intro hall _ _ _ h h'
          cases hc.symm.trans h
          cases hr.symm.trans h'
          exact hall
        · intro hall
          exact hall f c t hc hr

theorem handedOut_eq (h : l.routineContext id index = .ok (f,c))
    (hr : c.env.routineBody id f c.state = (.ok (),t)) :
    t.handedOut = (c.requestedNames f).reverse := by
  unfold routineContext at h
  split at h
  · cases h
    obtain ⟨-,hnames⟩ := Surroundings.grants_routineBody _ id f _ () t hr rfl
    rw [hnames,handOut_eq]
    exact List.append_nil _
  · cases h

/-- A routine gets the names that are read off its body, each once. It is hygienic exactly if it
binds none of them. -/
theorem hygienic_iff (l : Lowering) (id : ClassId) (index : Nat) :
    (l.Hygienic id index ↔ ∀ f c t, l.routineContext id index = .ok (f,c) →
      c.env.routineBody id f c.state = (.ok (),t) →
      ∀ name ∈ f.boundNames, name ∉ c.requestedNames f) ∧
    ∀ f c t, l.routineContext id index = .ok (f,c) →
      c.env.routineBody id f c.state = (.ok (),t) →
      t.handedOut = (c.requestedNames f).reverse ∧ t.handedOut.Nodup := by
  have hnames (f : Routine) (c : Context) (t : LowerState)
      (h : l.routineContext id index = .ok (f,c))
      (hr : c.env.routineBody id f c.state = (.ok (),t)) :
      t.handedOut = (c.requestedNames f).reverse ∧ t.handedOut.Nodup := by
    have heq := handedOut_eq h hr
    exact ⟨heq,heq ▸ List.nodup_reverse.mpr (nodup_tempNames 0 _)⟩
  refine ⟨⟨?_,?_⟩,hnames⟩
  · intro hall f c t h hr name hbound hrequested
    refine (hall f c t h hr).2 name ?_ hbound
    rw [(hnames f c t h hr).1]
    exact List.mem_reverse.mpr hrequested
  · intro hall f c t h hr
    obtain ⟨heq,hnodup⟩ := hnames f c t h hr
    refine ⟨hnodup,fun name hmem hbound => hall f c t h hr name hbound ?_⟩
    rw [heq] at hmem
    exact List.mem_reverse.mp hmem

def passesLocal : Document where
  name := "a"
  members := [.typeDecl { keyword := .classKind, name := "K" } [.method {
    name := "m", returns := .predefined "void", body := some (.block [
      .locals 0 ⟨none,[⟨0,"out_1",some (.literal 0 .numeric "1")⟩]⟩,
      .expression 0 (.invocation 0 (.identifier 0 "F") [⟨.byOut,.identifier 0 "out_1"⟩])]) }]]

theorem passesLocal_not_hygienic : ¬ (ofDocument passesLocal).Hygienic 0 0 := by decide +kernel

end Lowering

end Recast
