import Recast.Proofs.Naming.Resolution
import Recast.Proofs.Ordering.StableSort
import Recast.Proofs.Session.Prerequisites

/-! # Frozen programs

The standard stages leave a program whose classes are named and in order, and to which no class can
be added. Until the next reset nothing changes such a program. Of the stages only discovery can fail
on it, at the first source that cannot be read or declares a class.
-/
namespace Recast

namespace Program
variable {p : Program}

theorem resolved_sort (h : ∀ c ∈ p.classes, c.resolved = true) :
    ∀ c ∈ p.sort.classes, c.resolved = true := by
  intro c hc
  obtain ⟨c',hc',rfl⟩ := List.mem_map.mp hc
  exact h c' (mem_sortBy.mp hc')

/-- Named, in order, and closed to further classes. -/
structure IsFinished (p : Program) : Prop where
  frozen : p.frozen = true
  resolved : ∀ c ∈ p.classes, c.resolved = true
  sorted : p.sort = p

theorem isFinished_sort_resolve (p : Program) : p.resolve.1.sort.IsFinished where
  frozen := rfl
  resolved := resolved_sort (resolved_resolve p)
  sorted := sort_sort p.resolve.1

theorem addAll_of_frozen (h : p.frozen = true) (c : Class) (cs : List Class) :
    p.addAll (c :: cs) = .error (.frozen c.name) := by
  have hadd : p.add c = .error (.frozen c.name) := by simp [add, h]
  rw [addAll, List.foldlM_cons, hadd]
  rfl

/-- A source that a program with no room for a class cannot take, and the failure it gives. -/
inductive Obstructs (p : Program) (defines : Defines) (source : Source) : StageError → Prop where
  | unreadable {cause : ReadError} (hload : source.load defines = .error cause) :
    Obstructs p defines source (.read source.name cause)
  | declares {document : Document} {c : Class} {cs : List Class}
    (hload : source.load defines = .ok document) (hclasses : (p.harvest document).classes = c :: cs) :
    Obstructs p defines source (.program (.frozen c.name))

/-- The first of the sources that the program cannot take gives the failure. -/
def StopsAt (p : Program) (defines : Defines) (sources : List Source) (e : StageError) : Prop :=
  ∃ earlier source later, sources = earlier ++ source :: later ∧
    (∀ x ∈ earlier, ∀ e', ¬ p.Obstructs defines x e') ∧ p.Obstructs defines source e

theorem Obstructs.unique {defines : Defines} {source : Source} {e e' : StageError}
    (h : p.Obstructs defines source e) (h' : p.Obstructs defines source e') : e = e' := by
  cases h with
  | unreadable hload =>
    cases h' with
    | unreadable hload' =>
      cases hload.symm.trans hload'
      rfl
    | declares hload' => nomatch hload.symm.trans hload'
  | declares hload hclasses =>
    cases h' with
    | unreadable hload' => nomatch hload.symm.trans hload'
    | declares hload' hclasses' =>
      cases hload.symm.trans hload'
      cases hclasses.symm.trans hclasses'
      rfl

section
variable {defines : Defines} {source : Source} {e e' : StageError}

theorem not_stopsAt_nil : ¬ p.StopsAt defines [] e := by
  rintro ⟨earlier,source,later,heq,-⟩
  simp at heq

theorem stopsAt_cons_of_obstructs (h : p.Obstructs defines source e) (sources : List Source) :
    p.StopsAt defines (source :: sources) e' ↔ e = e' := by
  constructor
  · rintro ⟨earlier,x,later,heq,hearlier,hx⟩
    cases earlier with
    | nil =>
      cases heq
      exact h.unique hx
    | cons y ys =>
      cases heq
      exact absurd h (hearlier _ List.mem_cons_self e)
  · rintro rfl
    exact ⟨[],source,sources,rfl,List.forall_mem_nil _,h⟩

theorem stopsAt_cons_of_not_obstructs (h : ∀ e', ¬ p.Obstructs defines source e')
    (sources : List Source) :
    p.StopsAt defines (source :: sources) e ↔ p.StopsAt defines sources e := by
  constructor
  · rintro ⟨earlier,x,later,heq,hearlier,hx⟩
    cases earlier with
    | nil =>
      cases heq
      exact absurd hx (h e)
    | cons y ys =>
      obtain ⟨-,hrest⟩ := List.cons.inj heq
      exact ⟨ys,x,later,hrest,(List.forall_mem_cons.mp hearlier).2,hx⟩
  · rintro ⟨earlier,x,later,rfl,hearlier,hx⟩
    exact ⟨source :: earlier,x,later,rfl,List.forall_mem_cons.mpr ⟨h,hearlier⟩,hx⟩

end

end Program

namespace Session
open Program
variable {s t u : Session} {e : StageError} {stage : Stage} {stages : List Stage}

/-- Discovery does nothing to a frozen program but stop at the first source it cannot take. -/
theorem discoverAll_of_frozen {p : Program} (hp : p.frozen = true) (defines : Defines)
    (sources : List Source) (d : Discovery) :
    (discoverAll defines sources p d).2 = p ∧
      ∀ e, (discoverAll defines sources p d).1 = .error e ↔ p.StopsAt defines sources e := by
  induction sources generalizing d with
  | nil => exact ⟨rfl,fun e => iff_of_false nofun not_stopsAt_nil⟩
  | cons source sources ih =>
    rw [discoverAll]
    cases hload : source.load defines with
    | error cause =>
      refine ⟨rfl,fun e => ?_⟩
      rw [stopsAt_cons_of_obstructs (.unreadable hload)]
      exact ⟨Except.error.inj,congrArg Except.error⟩
    | ok document =>
      cases hclasses : (p.harvest document).classes with
      | nil =>
        have hdiscover : p.discover document = .ok p := by
          rw [discover, hclasses]
          rfl
        have hpass : ∀ e, ¬ p.Obstructs defines source e := by
          intro e h
          cases h with
          | unreadable hload' => nomatch hload.symm.trans hload'
          | declares hload' hclasses' =>
            cases hload.symm.trans hload'
            nomatch hclasses.symm.trans hclasses'
        obtain ⟨hkeeps,hstops⟩ := ih (d.count (p.harvest document))
        dsimp only
        rw [hdiscover]
        refine ⟨hkeeps,fun e => ?_⟩
        rw [stopsAt_cons_of_not_obstructs hpass]
        exact hstops e
      | cons c cs =>
        have hdiscover : p.discover document = .error (.frozen c.name) := by
          rw [discover, hclasses, addAll_of_frozen hp]
        dsimp only
        rw [hdiscover]
        refine ⟨rfl,fun e => ?_⟩
        rw [stopsAt_cons_of_obstructs (.declares hload hclasses)]
        exact ⟨Except.error.inj,congrArg Except.error⟩

theorem sources_step (s : Session) (stage : Stage) : (s.step stage).2.sources = s.sources := by
  cases stage with
  | discover =>
    dsimp only [step]
    split
    · rfl
    · rfl
  | reset | foldSymbols | resolve | sort => rfl

theorem step_of_isFinished (hp : s.program.IsFinished) (hstage : stage ≠ .reset) :
    (s.step stage).2.program = s.program ∧
      ∀ e, (s.step stage).1 = .error e ↔
        stage = .discover ∧ s.program.StopsAt s.defines s.sources e := by
  cases stage with
  | reset => exact absurd rfl hstage
  | foldSymbols => exact ⟨rfl,fun e => iff_of_false nofun nofun⟩
  | discover =>
    obtain ⟨hkeeps,hstops⟩ := discoverAll_of_frozen hp.frozen s.defines s.sources {}
    have hiff (e : StageError) :
        (discoverAll s.defines s.sources s.program {}).1 = .error e ↔
          Stage.discover = .discover ∧ s.program.StopsAt s.defines s.sources e := by
      rw [hstops e]
      exact (and_iff_right rfl).symm
    dsimp only [step]
    split
    · next heq =>
      rw [heq] at hkeeps hiff
      exact ⟨hkeeps,fun e => (iff_of_false nofun nofun).trans (hiff e)⟩
    · next heq =>
      rw [heq] at hkeeps hiff
      simp only [Except.error.injEq] at hiff ⊢
      exact ⟨hkeeps,hiff⟩
  | resolve =>
    refine ⟨?_,fun e => iff_of_false nofun nofun⟩
    exact congrArg Prod.fst (resolve_of_resolved hp.resolved)
  | sort => exact ⟨hp.sorted,fun e => iff_of_false nofun nofun⟩

/-- What stages leave of a session with a finished program, even if one of them fails. -/
theorem steps_of_isFinished (hp : s.program.IsFinished) (hreset : .reset ∉ stages) :
    (s.steps stages).2.program = s.program ∧ (s.steps stages).2.sources = s.sources := by
  induction stages generalizing s with
  | nil => exact ⟨rfl,rfl⟩
  | cons stage stages ih =>
    have hne : stage ≠ .reset := (List.ne_of_not_mem_cons hreset).symm
    have hrest : .reset ∉ stages := List.not_mem_of_not_mem_cons hreset
    have hprogram := (step_of_isFinished hp hne).1
    have hsources := sources_step s stage
    rw [steps]
    split
    · next t heq =>
      rw [heq] at hprogram hsources
      have hkeeps := ih (s := { t with completed := t.completed ++ [stage] }) (hprogram ▸ hp) hrest
      exact ⟨hkeeps.1.trans hprogram,hkeeps.2.trans hsources⟩
    · next heq =>
      rw [heq] at hprogram hsources
      exact ⟨hprogram,hsources⟩

/-- Stages fail on a finished program exactly if they come to a discovery that stops. -/
theorem steps_eq_error_iff_stopsAt (hp : s.program.IsFinished) (hreset : .reset ∉ stages) :
    (s.steps stages).1 = .error e ↔
      ∃ before after v, stages = before ++ .discover :: after ∧ s.steps before = (.ok (),v) ∧
        s.program.StopsAt v.defines s.sources e := by
  have hfails {before after v stage} (heq : stages = before ++ stage :: after)
      (hv : s.steps before = (.ok (),v)) : (v.step stage).1 = .error e ↔
        stage = .discover ∧ s.program.StopsAt v.defines s.sources e := by
    obtain ⟨hbefore,hafter⟩ := not_or.mp (mt List.mem_append.mpr (heq ▸ hreset))
    have hne : stage ≠ .reset := (List.ne_of_not_mem_cons hafter).symm
    obtain ⟨hprogram,hsources⟩ := steps_of_isFinished hp hbefore
    rw [hv] at hprogram hsources
    have hstep := (step_of_isFinished (hprogram ▸ hp) hne).2 e
    rwa [hprogram, hsources] at hstep
  rw [steps_eq_error_iff]
  constructor
  · rintro ⟨before,stage,after,v,heq,hv,hfail⟩
    obtain ⟨rfl,hstops⟩ := (hfails heq hv).mp hfail
    exact ⟨before,after,v,heq,hv,hstops⟩
  · rintro ⟨before,after,v,heq,hv,hstops⟩
    exact ⟨before,.discover,after,v,heq,hv,(hfails heq hv).mpr ⟨rfl,hstops⟩⟩

theorem validate_of_standard_subset (h : Stage.standard ⊆ s.completed) (hne : stages ≠ [])
    (hreset : .reset ∉ stages) : s.validate stages = .ok () := by
  have hrequires (stage : Stage) : stage.requires ⊆ Stage.standard := by
    cases stage <;> decide
  cases stages with
  | nil => exact absurd rfl hne
  | cons stage stages =>
    rw [validate_of_ne_reset s stages (List.ne_of_not_mem_cons hreset).symm]
    apply validateFrom_eq_ok_iff.mpr
    intro before stage _ _ r hr
    exact List.mem_append_left _ (h (hrequires stage hr))

theorem isFinished_of_run_standard (h : s.run Stage.standard = (.ok (),t)) :
    t.program.IsFinished ∧ t.completed = Stage.standard := by
  constructor
  · have hsteps : s.steps ([.reset,.foldSymbols,.discover] ++ [.resolve,.sort]) = (.ok (),t) := h
    obtain ⟨u,-,hlast⟩ := steps_append_eq_ok_iff.mp hsteps
    cases hlast
    exact isFinished_sort_resolve u.program
  · have hsteps : s.steps ([] ++ .reset :: [.foldSymbols,.discover,.resolve,.sort]) = (.ok (),t) :=
      h
    exact completed_steps_of_reset (by decide) hsteps

/-- Once the standard stages have succeeded, no stages without a reset change the program, whatever
was done to the rest of the session. They fail exactly if they come to a discovery with a source that
cannot be read or declares a class, and with the failure that the first such source gives. -/
theorem run_keeps_finished (hrun : s.run Stage.standard = (.ok (),t))
    (hprogram : u.program = t.program) (hcompleted : t.completed ⊆ u.completed)
    (hne : stages ≠ []) (hreset : .reset ∉ stages) :
    (u.run stages).2.program = t.program ∧
      ∀ e, (u.run stages).1 = .error e ↔
        ∃ before after v, stages = before ++ .discover :: after ∧ u.steps before = (.ok (),v) ∧
          t.program.StopsAt v.defines u.sources e := by
  obtain ⟨hfinished,hall⟩ := isFinished_of_run_standard hrun
  rw [hall] at hcompleted
  rw [← hprogram] at hfinished ⊢
  have hvalid := validate_of_standard_subset hcompleted hne hreset
  rw [run, hvalid]
  exact ⟨(steps_of_isFinished hfinished hreset).1,
    fun e => steps_eq_error_iff_stopsAt hfinished hreset⟩

def kennel : Document where
  name := "kennel"
  members := [.typeDecl { keyword := .classKind, name := "Dog" } []]

def kennelSession : Session where
  sources := [.parsed kennel]

theorem kennelSession_run_keeps_finished :
    let t := (kennelSession.run Stage.standard).2
    kennelSession.run Stage.standard = (.ok (),t) ∧
      (t.run [.sort,.discover,.resolve]).2.program = t.program ∧
      (t.run [.sort,.discover,.resolve]).1 = .error (.program (.frozen "Dog")) := by
  have hrun : kennelSession.run Stage.standard = (.ok (),(kennelSession.run Stage.standard).2) :=
    rfl
  have hreset : .reset ∉ [Stage.sort,.discover,.resolve] := by decide
  obtain ⟨hkeeps,hfails⟩ :=
    run_keeps_finished hrun rfl (List.Subset.refl _) (List.cons_ne_nil _ _) hreset
  have hdog : (kennelSession.run Stage.standard).2.program.Obstructs {} (.parsed kennel)
      (.program (.frozen "Dog")) :=
    .declares (c := Class.ofType kennel.oracle none { keyword := .classKind, name := "Dog" } [])
      rfl rfl
  refine ⟨hrun,hkeeps,(hfails _).mpr ⟨[.sort],[.resolve],_,rfl,rfl,?_⟩⟩
  exact ⟨[],.parsed kennel,[],rfl,List.forall_mem_nil _,hdog⟩

end Session

end Recast
