import Recast.Lower.Scope

/-! # Isolated blocks

A script of steps on a stack: frames are pushed, the depth is marked, the stack is cut back to a
mark, and blocks of steps are run in isolation, inside of each other to any depth. A mark is a depth
and nothing else, and it outlives the frames that it was taken over. Still a block that goes back
only to marks of its own gives back the stack that it got, frame by frame: it never goes below the
depth that it was entered at, so no frame of that time is dropped and replaced.
-/
namespace Recast.Scope

/-- A step on a stack. A mark is known by the number of marks that were taken before it. -/
inductive Step where
  | push (f : Frame)
  | mark
  | restore (mark : Nat)
  | isolated (steps : List Step)

/-- What is noted about a step that drops frames: the stacks before and after it. -/
inductive Passage where
  | cut (depth : Nat) (before after : Scope)
  | block (before after : Scope)
  deriving DecidableEq, Repr

/-- A cut leaves as many frames as the mark says, the outermost ones, and a block leaves all. -/
def Passage.Faithful : Passage → Prop
  | .cut depth before after => after.frames = before.frames.take depth
  | .block before after => after.frames = before.frames

theorem Passage.faithful_cut (s : Scope) (depth : Nat) :
    (cut depth s (s.restore depth)).Faithful := rfl

theorem Passage.faithful_block (s : Scope) : (block s s).Faithful := rfl

instance (p : Passage) : Decidable p.Faithful :=
  match p with
  | .cut depth before after => decEq after.frames (before.frames.take depth)
  | .block before after => decEq after.frames before.frames

/-- A stack, the marks taken so far, which are never given up, and what was noted. -/
structure Walk where
  scope : Scope
  marks : List Nat := []
  passages : List Passage := []

namespace Step

mutual

/-- Take a step. A mark that was not taken yet cannot be gone back to. -/
def run : Step → Walk → Walk
  | .push f, w => { w with scope := w.scope.push f }
  | .mark, w => { w with marks := w.marks ++ [w.scope.depth] }
  | .restore i, w =>
    match w.marks[i]? with
    | some depth =>
      let scope := w.scope.restore depth
      { w with scope, passages := w.passages ++ [.cut depth w.scope scope] }
    | none => w
  | .isolated steps, w =>
    let (inner, scope) := w.scope.isolated fun s =>
      let t := runAll steps { w with scope := s }
      (t, t.scope)
    { inner with scope, passages := inner.passages ++ [.block w.scope scope] }

def runAll : List Step → Walk → Walk
  | [], w => w
  | step :: steps, w => runAll steps (step.run w)

end

mutual

def taken : Step → Nat
  | .mark => 1
  | .isolated steps => takenAll steps
  | .push _ | .restore _ => 0

def takenAll : List Step → Nat
  | [] => 0
  | step :: steps => step.taken + takenAll steps

end

mutual

/-- Inside of a block only marks are gone back to that were taken in the block. There are `count`
marks before the step, and the first `foreign` of them are from outside of the block around it. -/
def keepsToOwn (foreign count : Nat) : Step → Bool
  | .push _ | .mark => true
  | .restore i => foreign ≤ i
  | .isolated steps => allKeepToOwn count count steps

def allKeepToOwn (foreign count : Nat) : List Step → Bool
  | [] => true
  | step :: steps =>
    step.keepsToOwn foreign count && allKeepToOwn foreign (count + step.taken) steps

end

end Step

namespace Walk
variable {base : Scope} {foreign : List Nat} {v w : Walk}

/-- A walk inside of a block that was entered with the stack `base` and the marks `foreign`: it
stands on the frames of `base`, and so did it wherever it has taken a mark. -/
structure StandsOn (base : Scope) (foreign : List Nat) (w : Walk) : Prop where
  frames : base.frames <+: w.scope.frames
  marks : ∃ own, w.marks = foreign ++ own ∧ ∀ depth ∈ own, base.depth ≤ depth

/-- What was noted on the way from `v` to `w` is as it should be. -/
def NotesFaithfully (v w : Walk) : Prop := ∀ p ∈ w.passages, p ∈ v.passages ∨ p.Faithful

theorem NotesFaithfully.trans {u : Walk} (h : u.NotesFaithfully v) (k : v.NotesFaithfully w) :
    u.NotesFaithfully w := by
  intro p hp
  rcases k p hp with hp | hp
  · exact h p hp
  · exact .inr hp

theorem NotesFaithfully.note {p : Passage} (h : v.NotesFaithfully w) (hp : p.Faithful)
    {scope : Scope} : v.NotesFaithfully { w with scope, passages := w.passages ++ [p] } := by
  intro q hq
  rcases List.mem_append.mp hq with hq | hq
  · exact h q hq
  · exact .inr (List.mem_singleton.mp hq ▸ hp)

namespace StandsOn

/-- A block begins on all frames and without marks of its own. -/
theorem enter (w : Walk) : StandsOn w.scope w.marks w :=
  ⟨List.prefix_rfl,[],(List.append_nil _).symm,by simp⟩

theorem outside (w : Walk) : StandsOn {} [] w :=
  ⟨List.nil_prefix,w.marks,rfl,fun _ _ => Nat.zero_le _⟩

theorem depth_le (h : StandsOn base foreign w) : base.depth ≤ w.scope.depth := h.frames.length_le

theorem push (h : StandsOn base foreign w) (f : Frame) :
    StandsOn base foreign { w with scope := w.scope.push f } :=
  ⟨h.frames.trans (List.prefix_append _ _),h.marks⟩

theorem mark (h : StandsOn base foreign w) :
    StandsOn base foreign { w with marks := w.marks ++ [w.scope.depth] } := by
  obtain ⟨own,hmarks,hown⟩ := h.marks
  refine ⟨h.frames,own ++ [w.scope.depth],by simp [hmarks],fun depth hd => ?_⟩
  rcases List.mem_append.mp hd with hd | hd
  · exact hown depth hd
  · exact List.mem_singleton.mp hd ▸ h.depth_le

/-- A mark that is not foreign is at least as deep as the block was entered. -/
theorem le_of_own (h : StandsOn base foreign w) {i depth : Nat} (hi : foreign.length ≤ i)
    (hd : w.marks[i]? = some depth) : base.depth ≤ depth := by
  obtain ⟨own,hmarks,hown⟩ := h.marks
  rw [hmarks,List.getElem?_append_right hi] at hd
  exact hown depth (List.mem_of_getElem? hd)

theorem restore (h : StandsOn base foreign w) {depth : Nat} (hd : base.depth ≤ depth)
    {passages : List Passage} :
    StandsOn base foreign { w with scope := w.scope.restore depth, passages } :=
  ⟨List.prefix_take_iff.mpr ⟨h.frames,hd⟩,h.marks⟩

/-- At its end a block drops all but the frames that it was entered with. -/
theorem restore_eq (h : StandsOn base foreign w) : w.scope.restore base.depth = base := by
  obtain ⟨rest,hrest⟩ := h.frames
  simp [Scope.restore,Scope.depth,← hrest]

/-- A block inside of the block around has come to its end. -/
theorem leave (h : StandsOn base foreign v) (k : StandsOn v.scope v.marks w)
    {passages : List Passage} :
    StandsOn base foreign { w with scope := v.scope, passages } := by
  obtain ⟨own,hmarks,hown⟩ := h.marks
  obtain ⟨inner,hinner,hdeep⟩ := k.marks
  refine ⟨h.frames,own ++ inner,by simp [hinner,hmarks],fun depth hd => ?_⟩
  rcases List.mem_append.mp hd with hd | hd
  · exact hown depth hd
  · exact Nat.le_trans h.depth_le (hdeep depth hd)

end StandsOn

end Walk

namespace Step

theorem run_isolated {steps : List Step} {w : Walk} {scope : Scope}
    (h : (runAll steps w).scope.restore w.scope.depth = scope) :
    (isolated steps).run w = { runAll steps w with
      scope, passages := (runAll steps w).passages ++ [.block w.scope scope] } := by
  subst h
  rfl

mutual

theorem length_marks_run (step : Step) (w : Walk) :
    (step.run w).marks.length = w.marks.length + step.taken := by
  match step with
  | .push f => rfl
  | .mark => simp [run,taken]
  | .restore i =>
    rw [run]
    split <;> rfl
  | .isolated steps => exact length_marks_runAll steps w

theorem length_marks_runAll (steps : List Step) (w : Walk) :
    (runAll steps w).marks.length = w.marks.length + takenAll steps := by
  match steps with
  | [] => rfl
  | step :: steps =>
    rw [runAll,length_marks_runAll steps,length_marks_run step,takenAll,Nat.add_assoc]

end

mutual

/-- A step stays on the frames that the block around it was entered with, and what is noted about
it is as it should be. -/
theorem run_standsOn {base : Scope} {foreign : List Nat} {w : Walk} (step : Step)
    (h : w.StandsOn base foreign)
    (ho : step.keepsToOwn foreign.length w.marks.length = true) :
    (step.run w).StandsOn base foreign ∧ w.NotesFaithfully (step.run w) := by
  match step with
  | .push f => exact ⟨h.push f,fun p hp => .inl hp⟩
  | .mark => exact ⟨h.mark,fun p hp => .inl hp⟩
  | .restore i =>
    rw [run]
    split
    · next depth hd =>
      have hle := h.le_of_own (of_decide_eq_true ho) hd
      exact ⟨h.restore hle,.note (fun p hp => .inl hp) (Passage.faithful_cut w.scope depth)⟩
    · exact ⟨h,fun p hp => .inl hp⟩
  | .isolated steps =>
    -- The block has an invariant of its own: it stands on all that is there when it is entered.
    obtain ⟨hinner,hnotes⟩ := runAll_standsOn steps (.enter w) ho
    rw [run_isolated hinner.restore_eq]
    exact ⟨h.leave hinner,hnotes.note (Passage.faithful_block w.scope)⟩

theorem runAll_standsOn {base : Scope} {foreign : List Nat} {w : Walk} (steps : List Step)
    (h : w.StandsOn base foreign)
    (ho : allKeepToOwn foreign.length w.marks.length steps = true) :
    (runAll steps w).StandsOn base foreign ∧ w.NotesFaithfully (runAll steps w) := by
  match steps with
  | [] => exact ⟨h,fun p hp => .inl hp⟩
  | step :: steps =>
    rw [allKeepToOwn,Bool.and_eq_true,← length_marks_run step w] at ho
    obtain ⟨hstep,hnotes⟩ := run_standsOn step h ho.1
    obtain ⟨hrest,hmore⟩ := runAll_standsOn steps hstep ho.2
    exact ⟨hrest,hnotes.trans hmore⟩

end

/-- Whatever the stack and the marks are at the start: if blocks go back only to marks of their own,
each block leaves exactly the frames that it was entered with, and going back to a mark leaves
exactly as many of the frames at hand as the mark says. -/
theorem runAll_faithful (steps : List Step) (s : Scope) (marks : List Nat)
    (h : allKeepToOwn 0 marks.length steps = true) :
    ∀ p ∈ (runAll steps { scope := s, marks }).passages, p.Faithful := by
  intro p hp
  obtain ⟨-,hnotes⟩ := runAll_standsOn steps (.outside { scope := s, marks }) h
  rcases hnotes p hp with hp | hp
  · cases hp
  · exact hp

/-- A block with another one in it. Its second mark is gone back to when the frame is gone that it
was taken over. -/
def nestedBlocks : List Step :=
  [.push (.ofRoutine 0 0),.mark,.isolated [
    .push (.ofClass (.program 1)),.mark,.push (.ofClass (.external "Console")),.mark,.restore 1,
    .isolated [.mark,.push (.ofClass (.program 2)),.restore 3],
    .restore 2,.push (.ofVariable 1 0)],
  .restore 0]

theorem nestedBlocks_faithful : allKeepToOwn 0 0 nestedBlocks = true ∧
    (runAll nestedBlocks { scope := {} }).passages.length = 6 ∧
    ∀ p ∈ (runAll nestedBlocks { scope := {} }).passages, p.Faithful :=
  ⟨by decide,by decide,runAll_faithful nestedBlocks {} [] (by decide)⟩

/-- Without the condition on marks a block can leave other frames, even if it leaves as many: one
that goes back to a mark from outside drops the frame below it and pushes another one instead. -/
theorem exists_not_faithful_of_foreign (s : Scope) {f g : Frame} (h : f ≠ g) :
    ∃ p ∈ (runAll [.mark,.push f,.isolated [.restore 0,.push g]] { scope := s }).passages,
      ¬ p.Faithful := by
  let entry : Walk := { scope := s.push f, marks := [s.depth] }
  have hcut : (s.push f).restore s.depth = s := by simp [Scope.push,Scope.restore,Scope.depth]
  have hinner : (runAll [.restore 0,.push g] entry).scope = s.push g :=
    congrArg (Scope.push · g) hcut
  have hend : (runAll [.restore 0,.push g] entry).scope.restore entry.scope.depth = s.push g := by
    rw [hinner]
    exact congrArg Scope.mk (List.take_of_length_le (by simp [entry,Scope.push,Scope.depth]))
  refine ⟨.block (s.push f) (s.push g),?_,fun hsame => h ?_⟩
  · change _ ∈ ((isolated [.restore 0,.push g]).run entry).passages
    rw [run_isolated hend]
    exact List.mem_append_right _ (List.mem_singleton_self _)
  · have hlast : s.frames ++ [g] = s.frames ++ [f] := hsame
    exact (List.singleton_inj.mp (List.append_cancel_left hlast)).symm

end Step

end Recast.Scope
