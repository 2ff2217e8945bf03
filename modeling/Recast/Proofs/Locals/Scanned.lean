import Recast.Session
import Recast.Proofs.Locals.Regular
import Recast.Proofs.Naming.Resolution
import Recast.Proofs.Ordering.StableSort

/-! # Discovered routines are scanned

Discovery scans the body of each routine that it adds to a program. Naming and ordering change
neither a body nor what is known of its locals, so the routines are scanned in every program that
the stages of a session make.
-/
namespace Recast

namespace Routine
variable {f : Routine}

theorem isScanned_of_body_eq_none (h : f.body = none) : f.IsScanned := by
  intro b hb
  rw [h] at hb
  nomatch hb

theorem isScanned_scanned (o : Oracle) (f : Routine) : (scanned o f).IsScanned := by
  unfold scanned
  split
  · next h => exact isScanned_of_body_eq_none h
  · next body h =>
    intro b hb
    obtain rfl : body = b := Option.some.inj (h.symm.trans hb)
    exact ⟨o,f.returnType.isSome,rfl⟩

theorem isScanned_unnamed : f.unnamed.IsScanned ↔ f.IsScanned := Iff.rfl

end Routine

/-- All routines of the class are scanned. -/
def Class.IsScanned (c : Class) : Prop := ∀ f ∈ c.routines, f.IsScanned

namespace Class

theorem isScanned_addMember {c : Class} (h : c.IsScanned) (o : Oracle) (m : Member) :
    (c.addMember o m).IsScanned := by
  have hadd (g : Routine) (hg : g.IsScanned) : ∀ f ∈ c.routines ++ [g], f.IsScanned :=
    List.forall_mem_append.mpr ⟨h,List.forall_mem_singleton.mpr hg⟩
  cases m with
  | method d => exact hadd _ (Routine.isScanned_scanned o _)
  | constructor d => exact hadd _ (Routine.isScanned_scanned o _)
  | _ => exact h

theorem isScanned_ofType (o : Oracle) (namespaceName : Option String) (head : TypeHead)
    (members : List Member) : (ofType o namespaceName head members).IsScanned := by
  have hfold (c : Class) (h : c.IsScanned) : (members.foldl (addMember o) c).IsScanned := by
    induction members generalizing c with
    | nil => exact h
    | cons m members ih => exact ih _ (isScanned_addMember h o m)
  exact hfold _ (List.forall_mem_nil _)

theorem isScanned_ofDelegate (o : Oracle) (namespaceName : Option String) (d : DelegateDecl) :
    (ofDelegate o namespaceName d).IsScanned :=
  List.forall_mem_singleton.mpr (Routine.isScanned_of_body_eq_none rfl)

theorem isScanned_sortMembers {c : Class} (h : c.IsScanned) : c.sortMembers.IsScanned :=
  fun f hf => h f (mem_sortBy.mp hf)

end Class

namespace Member
variable (rules : Rules) (o : Oracle)

theorem isScanned_harvest_delegate (outer : Option String) (d : DelegateDecl) :
    ∀ c ∈ (d.harvest rules o outer).classes, c.IsScanned := by
  unfold DelegateDecl.harvest
  split
  · exact List.forall_mem_nil _
  · exact List.forall_mem_singleton.mpr (Class.isScanned_ofDelegate o outer d)

mutual

theorem isScanned_harvest : ∀ (outer : Option String) (m : Member),
    ∀ c ∈ (harvest rules o outer m).classes, c.IsScanned
  | outer, .namespaceDecl name members => by
    have hall := isScanned_harvestAll (some (qualifiedName outer name)) members
    unfold harvest
    dsimp only
    split
    · exact List.forall_mem_nil _
    · exact hall
  | outer, .typeDecl head members => by
    have hnested := isScanned_harvestNested outer members
    unfold harvest
    split
    · exact List.forall_mem_nil _
    · exact List.forall_mem_append.mpr
        ⟨List.forall_mem_singleton.mpr (Class.isScanned_ofType o outer head members),hnested⟩
  | outer, .delegate d => isScanned_harvest_delegate rules o outer d
  | _, .field _ | _, .property _ | _, .event _ | _, .method _ | _, .constructor _
  | _, .enumMember _ | _, .region .. | _, .other _ => List.forall_mem_nil _

theorem isScanned_harvestAll : ∀ (outer : Option String) (ms : List Member),
    ∀ c ∈ (harvestAll rules o outer ms).classes, c.IsScanned
  | _, [] => List.forall_mem_nil _
  | outer, m :: ms =>
    List.forall_mem_append.mpr ⟨isScanned_harvest outer m,isScanned_harvestAll outer ms⟩

theorem isScanned_harvestNested : ∀ (outer : Option String) (ms : List Member),
    ∀ c ∈ (harvestNested rules o outer ms).classes, c.IsScanned
  | _, [] => List.forall_mem_nil _
  | outer, m :: ms => by
    have hm := isScanned_harvest outer m
    have hms := isScanned_harvestNested outer ms
    cases m with
    | typeDecl | delegate | region | other => exact List.forall_mem_append.mpr ⟨hm,hms⟩
    | _ => exact List.forall_mem_append.mpr ⟨List.forall_mem_nil _,hms⟩

end

end Member

namespace Program
variable {p q : Program}

/-- All routines of the program are scanned. -/
def IsScanned (p : Program) : Prop := ∀ c ∈ p.classes, c.IsScanned

theorem isScanned_addAll (h : p.IsScanned) {cs : List Class} (hcs : ∀ c ∈ cs, c.IsScanned)
    (hq : p.addAll cs = .ok q) : q.IsScanned := by
  induction cs generalizing p with
  | nil =>
    cases hq
    exact h
  | cons c cs ih =>
    obtain ⟨hc,hrest⟩ := List.forall_mem_cons.mp hcs
    unfold addAll at hq
    rw [List.foldlM_cons] at hq
    unfold add at hq
    split at hq
    · nomatch hq
    · have hadd : IsScanned { p with classes := p.classes ++ [c] } :=
        List.forall_mem_append.mpr ⟨h,List.forall_mem_singleton.mpr hc⟩
      exact ih hadd hrest hq

theorem isScanned_discover (h : p.IsScanned) {d : Document} (hq : p.discover d = .ok q) :
    q.IsScanned :=
  isScanned_addAll h (Member.isScanned_harvestAll p.rules d.oracle none d.members) hq

theorem isScanned_named {c : Class} (h : c.IsScanned) (id : ClassId) :
    (p.named id c).IsScanned := by
  intro f hf
  have hmem : f.unnamed ∈ c.routines.map Routine.unnamed := by
    rw [← map_unnamed_named p id c]
    exact List.mem_map_of_mem hf
  obtain ⟨g,hg,heq⟩ := List.mem_map.mp hmem
  rw [← Routine.isScanned_unnamed, ← heq, Routine.isScanned_unnamed]
  exact h g hg

theorem isScanned_resolve (h : p.IsScanned) : p.resolve.1.IsScanned := by
  intro c hc
  obtain ⟨id,hid⟩ := List.getElem?_of_mem hc
  have hclass := (class?_resolve p id).symm.trans hid
  obtain ⟨c',hc',rfl⟩ := Option.map_eq_some_iff.mp hclass
  have hold := h c' (List.mem_of_getElem? hc')
  unfold settled
  split
  · exact hold
  · exact isScanned_named hold id

theorem isScanned_sort (h : p.IsScanned) : p.sort.IsScanned := by
  intro c hc
  obtain ⟨c',hc',rfl⟩ := List.mem_map.mp hc
  exact Class.isScanned_sortMembers (h c' (mem_sortBy.mp hc'))

end Program

namespace Session

theorem isScanned_discoverAll (defines : Defines) (sources : List Source) {p : Program}
    (h : p.IsScanned) (d : Discovery) : (discoverAll defines sources p d).2.IsScanned := by
  induction sources generalizing p d with
  | nil => exact h
  | cons source sources ih =>
    unfold discoverAll
    split
    · exact h
    · next document _ =>
      split
      · exact h
      · next q hq => exact ih (Program.isScanned_discover h hq) _

/-- A stage leaves all routines scanned, even if it fails. -/
theorem isScanned_step {s : Session} (h : s.program.IsScanned) (stage : Stage) :
    (s.step stage).2.program.IsScanned := by
  cases stage with
  | reset => exact List.forall_mem_nil _
  | foldSymbols => exact h
  | discover =>
    have hall := isScanned_discoverAll s.defines s.sources h {}
    dsimp only [step]
    split
    · next heq => rwa [heq] at hall
    · next heq => rwa [heq] at hall
  | resolve => exact Program.isScanned_resolve h
  | sort => exact Program.isScanned_sort h

theorem isScanned_steps {s : Session} (h : s.program.IsScanned) (stages : List Stage) :
    (s.steps stages).2.program.IsScanned := by
  induction stages generalizing s with
  | nil => exact h
  | cons stage stages ih =>
    have hstep := isScanned_step h stage
    unfold steps
    split
    · next t heq =>
      rw [heq] at hstep
      exact ih hstep
    · next t heq => rwa [heq] at hstep

theorem isScanned_run {s : Session} (h : s.program.IsScanned) (stages : List Stage) :
    (s.run stages).2.program.IsScanned := by
  unfold run
  split
  · exact h
  · exact isScanned_steps h stages

end Session

end Recast
