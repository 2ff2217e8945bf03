import Recast.Session

/-! # Prerequisites of stages

A list of stages is checked before it runs, against a record of what will have finished by then. The
check adds each stage to its record and never takes one away. A run keeps its record in the session,
where each reset empties it. So a list that the check accepts can come to a stage whose requirements
are no longer met, and it can do so only after a reset that is not at its start.
-/
namespace Recast

theorem Stage.requires_subset_reset_cons {stage : Stage} {stages : List Stage} :
    stage.requires ⊆ .reset :: stages ↔ stage.requires ⊆ stages := by
  have hreset : .reset ∉ stage.requires := by cases stage <;> decide
  constructor
  · intro h r hr
    have hne : r ≠ .reset := fun heq => hreset (heq ▸ hr)
    exact List.mem_of_ne_of_mem hne (h hr)
  · intro h r hr
    exact List.mem_cons_of_mem _ (h hr)

namespace Session
variable {s t : Session} {stage : Stage} {stages before after older recent : List Stage}

theorem steps_cons_eq_ok_iff :
    s.steps (stage :: stages) = (.ok (),t) ↔
      ∃ u, s.step stage = (.ok (),u) ∧
        steps { u with completed := u.completed ++ [stage] } stages = (.ok (),t) := by
  rw [steps]
  constructor
  · intro h
    split at h
    · next u hu => exact ⟨u,hu,h⟩
    · nomatch h
  · rintro ⟨u,hu,h⟩
    rw [hu]
    exact h

theorem steps_append_eq_ok_iff :
    s.steps (before ++ after) = (.ok (),t) ↔
      ∃ u, s.steps before = (.ok (),u) ∧ u.steps after = (.ok (),t) := by
  induction before generalizing s with
  | nil =>
    constructor
    · intro h
      exact ⟨s,rfl,h⟩
    · rintro ⟨u,hu,h⟩
      cases hu
      exact h
  | cons stage before ih =>
    rw [List.cons_append, steps_cons_eq_ok_iff]
    constructor
    · rintro ⟨v,hv,h⟩
      obtain ⟨u,hu,h⟩ := ih.mp h
      exact ⟨u,steps_cons_eq_ok_iff.mpr ⟨v,hv,hu⟩,h⟩
    · rintro ⟨u,hu,h⟩
      obtain ⟨v,hv,hu⟩ := steps_cons_eq_ok_iff.mp hu
      exact ⟨v,hv,ih.mpr ⟨u,hu,h⟩⟩

theorem steps_eq_error_iff {e : StageError} :
    (s.steps stages).1 = .error e ↔
      ∃ before stage after v, stages = before ++ stage :: after ∧ s.steps before = (.ok (),v) ∧
        (v.step stage).1 = .error e := by
  induction stages generalizing s with
  | nil => simp [steps]
  | cons first rest ih =>
    rw [steps]
    cases hstep : s.step first with
    | mk result t =>
    cases result with
    | ok _ =>
      refine ih.trans ?_
      constructor
      · rintro ⟨before,stage,after,v,rfl,hbefore,hfail⟩
        have hsteps := steps_cons_eq_ok_iff.mpr ⟨t,hstep,hbefore⟩
        exact ⟨first :: before,stage,after,v,rfl,hsteps,hfail⟩
      · rintro ⟨before,stage,after,v,heq,hbefore,hfail⟩
        cases before with
        | nil =>
          cases heq
          cases hbefore
          rw [hstep] at hfail
          cases hfail
        | cons _ before =>
          obtain ⟨rfl,hrest⟩ := List.cons.inj heq
          obtain ⟨w,hw,hbefore⟩ := steps_cons_eq_ok_iff.mp hbefore
          cases hstep.symm.trans hw
          exact ⟨before,stage,after,v,hrest,hbefore,hfail⟩
    | error e' =>
      constructor
      · intro h
        refine ⟨[],first,rest,s,rfl,rfl,?_⟩
        rw [hstep]
        exact h
      · rintro ⟨before,stage,after,v,heq,hbefore,hfail⟩
        cases before with
        | nil =>
          cases heq
          cases hbefore
          rw [hstep] at hfail
          exact hfail
        | cons _ before =>
          cases heq
          obtain ⟨w,hw,-⟩ := steps_cons_eq_ok_iff.mp hbefore
          cases hstep.symm.trans hw

theorem completed_step (hstage : stage ≠ .reset) (s : Session) :
    (s.step stage).2.completed = s.completed := by
  cases stage with
  | reset => exact absurd rfl hstage
  | discover =>
    dsimp only [step]
    split
    · rfl
    · rfl
  | foldSymbols | resolve | sort => rfl

theorem completed_steps (hreset : .reset ∉ stages) (h : s.steps stages = (.ok (),t)) :
    t.completed = s.completed ++ stages := by
  induction stages generalizing s with
  | nil =>
    cases h
    exact (List.append_nil _).symm
  | cons stage stages ih =>
    have hne : stage ≠ .reset := (List.ne_of_not_mem_cons hreset).symm
    have hrest : .reset ∉ stages := List.not_mem_of_not_mem_cons hreset
    obtain ⟨u,hu,h⟩ := steps_cons_eq_ok_iff.mp h
    have hrecord : u.completed = s.completed := by
      have hstep := completed_step hne s
      rwa [hu] at hstep
    calc
      t.completed = (u.completed ++ [stage]) ++ stages := ih hrest h
      _ = s.completed ++ stage :: stages := by rw [hrecord, List.append_assoc]; rfl

/-- What has finished after a run is what came since the last reset, whatever the session had
finished before. -/
theorem completed_steps_of_reset (hreset : .reset ∉ recent)
    (h : s.steps (older ++ .reset :: recent) = (.ok (),t)) : t.completed = .reset :: recent := by
  obtain ⟨u,-,h⟩ := steps_append_eq_ok_iff.mp h
  obtain ⟨v,hv,h⟩ := steps_cons_eq_ok_iff.mp h
  cases hv
  exact completed_steps hreset h

theorem validateFrom_eq_ok_iff {done : List Stage} :
    validateFrom done stages = .ok () ↔
      ∀ before stage after, stages = before ++ stage :: after →
        stage.requires ⊆ done ++ before := by
  induction stages generalizing done with
  | nil => simp [validateFrom]
  | cons first rest ih =>
    have hfirst : (first.requires.find? fun r => !done.contains r) = none ↔
        first.requires ⊆ done := by
      simp [List.subset_def]
    rw [validateFrom]
    constructor
    · intro h
      split at h
      · nomatch h
      · next hfind =>
        rintro before stage after heq
        cases before with
        | nil =>
          cases heq
          rw [List.append_nil]
          exact hfirst.mp hfind
        | cons _ before =>
          obtain ⟨rfl,hrest⟩ := List.cons.inj heq
          have hsub := ih.mp h before stage after hrest
          rwa [List.append_assoc] at hsub
    · intro h
      have hsub := h [] first rest rfl
      rw [List.append_nil] at hsub
      rw [hfirst.mpr hsub]
      apply ih.mpr
      intro before stage after heq
      have hsub := h (first :: before) stage after (congrArg (first :: ·) heq)
      rwa [List.append_assoc]

theorem validate_of_ne_reset (s : Session) (stages : List Stage) (h : stage ≠ .reset) :
    s.validate (stage :: stages) = validateFrom s.completed (stage :: stages) := by
  cases stage with
  | reset => exact absurd rfl h
  | foldSymbols | discover | resolve | sort => rfl

/-- Up to the first reset the record of the check is that of the run. -/
theorem requires_subset_of_validate (h : s.validate (before ++ stage :: after) = .ok ())
    (hreset : .reset ∉ before) : stage.requires ⊆ s.completed ++ before := by
  cases before with
  | nil =>
    by_cases hstage : stage = .reset
    · subst hstage
      exact List.nil_subset _
    · rw [List.nil_append, validate_of_ne_reset s after hstage] at h
      exact validateFrom_eq_ok_iff.mp h [] stage after rfl
  | cons first rest =>
    have hfirst : first ≠ .reset := fun heq => hreset (heq ▸ List.mem_cons_self)
    rw [List.cons_append, validate_of_ne_reset s _ hfirst] at h
    exact validateFrom_eq_ok_iff.mp h (first :: rest) stage after rfl

theorem exists_last_reset (stages : List Stage) :
    .reset ∉ stages ∨ ∃ older recent, stages = older ++ .reset :: recent ∧ .reset ∉ recent := by
  by_cases h : .reset ∈ stages
  · right
    obtain ⟨recent,older,heq,hrecent⟩ := List.eq_append_cons_of_mem (List.mem_reverse.mpr h)
    refine ⟨older.reverse,recent.reverse,?_,?_⟩
    · rw [← List.reverse_reverse stages, heq]
      simp
    · rwa [List.mem_reverse]
  · exact .inl h

/-- Whenever a run comes to a stage, all that the stage requires has finished. -/
def StartsPrepared (s : Session) (stages : List Stage) : Prop :=
  ∀ before stage after t, stages = before ++ stage :: after → s.steps before = (.ok (),t) →
    stage.requires ⊆ t.completed

/-- Whenever a run comes to a stage after a reset, all that the stage requires comes between the
two. -/
def RenewsAfterReset (s : Session) (stages : List Stage) : Prop :=
  ∀ older recent stage after t, stages = older ++ .reset :: recent ++ stage :: after →
    .reset ∉ recent → s.steps (older ++ .reset :: recent) = (.ok (),t) → stage.requires ⊆ recent

theorem startsPrepared_iff (h : s.validate stages = .ok ()) :
    s.StartsPrepared stages ↔ s.RenewsAfterReset stages := by
  constructor
  · intro hprepared older recent stage after t heq hreset ht
    have hsub := hprepared _ stage after t heq ht
    rw [completed_steps_of_reset hreset ht] at hsub
    exact Stage.requires_subset_reset_cons.mp hsub
  · rintro hrenews before stage after t rfl ht
    rcases exists_last_reset before with hreset | ⟨older,recent,rfl,hreset⟩
    · rw [completed_steps hreset ht]
      exact requires_subset_of_validate h hreset
    · rw [completed_steps_of_reset hreset ht]
      exact Stage.requires_subset_reset_cons.mpr (hrenews older recent stage after t rfl hreset ht)

/-- A reset at the start is as good as none: the check begins there as well. -/
theorem renewsAfterReset_of_tail (h : s.validate stages = .ok ()) (htail : .reset ∉ stages.tail) :
    s.RenewsAfterReset stages := by
  rintro older recent stage after t rfl hreset ht
  cases older with
  | nil =>
    have hvalid : validateFrom [] (.reset :: recent ++ stage :: after) = .ok () := h
    have hsub : stage.requires ⊆ .reset :: recent :=
      validateFrom_eq_ok_iff.mp hvalid (.reset :: recent) stage after rfl
    exact Stage.requires_subset_reset_cons.mp hsub
  | cons first older => exact absurd (by simp) htail

def ValidatesPrerequisites (s : Session) (stages : List Stage) : Prop :=
  s.validate stages = .ok () → s.StartsPrepared stages

/-- The check is sound exactly for the lists that finish the requirements of a stage anew after each
reset, and so for all lists with no reset beyond their start. -/
theorem validatesPrerequisites_iff (s : Session) (stages : List Stage) :
    (s.ValidatesPrerequisites stages ↔
        (s.validate stages = .ok () → s.RenewsAfterReset stages)) ∧
      (.reset ∉ stages.tail → s.ValidatesPrerequisites stages) := by
  constructor
  · constructor
    · intro hsound h
      exact (startsPrepared_iff h).mp (hsound h)
    · intro hrenews h
      exact (startsPrepared_iff h).mpr (hrenews h)
  · intro htail h
    exact (startsPrepared_iff h).mpr (renewsAfterReset_of_tail h htail)

/-- Discovery after a reset in the middle is accepted because of the symbols folded before it. -/
theorem resetAfterFold_not_validatesPrerequisites :
    ¬ ({} : Session).ValidatesPrerequisites [.foldSymbols,.reset,.discover] := by
  intro hsound
  have hrun : ({} : Session).steps [.foldSymbols,.reset] =
      (.ok (),{ ({} : Session) with completed := [.reset] }) := rfl
  have hfold : .foldSymbols ∈ [Stage.reset] :=
    hsound rfl [.foldSymbols,.reset] .discover [] _ rfl hrun List.mem_cons_self
  exact absurd hfold (by decide)

end Session

end Recast
