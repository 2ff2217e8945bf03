import Recast.Proofs.Lowering.Mentions

/-! # Courses

What a body does with a local in the order of evaluation, next to the order in which it is written.
The lines of a statement are written before those of the next one, so only inside of one statement
can the two orders differ.
-/
namespace Recast

/-- What is done with a local in the order of evaluation. Behind a scope what is declared in it is
gone. -/
inductive Course where
  | does (ms : List Mark)
  | seq (first second : Course)
  | scope (inner : Course)

/-- Whether the local is visible after a mark; none if it would have to be and is not. -/
def Mark.step (visible : Bool) : Mark → Option Bool
  | .declares => some true
  | .mentions => if visible then some true else none
  | .clashes => none

namespace Course

def marks : Course → List Mark
  | does ms => ms
  | seq first second => first.marks ++ second.marks
  | scope inner => inner.marks

def run : Course → Bool → Option Bool
  | does ms, visible => ms.foldlM Mark.step visible
  | seq first second, visible => (first.run visible).bind second.run
  | scope inner, visible => (inner.run visible).map fun _ => visible

/-- The local is declared once at most, it is mentioned only where it is visible, and there is no
clash. -/
structure Sound (c : Course) : Prop where
  visible : (c.run false).isSome
  once : c.marks.count .declares ≤ 1

instance (c : Course) : Decidable c.Sound :=
  decidable_of_iff ((c.run false).isSome ∧ c.marks.count .declares ≤ 1)
    ⟨fun h => ⟨h.1,h.2⟩,fun h => ⟨h.visible,h.once⟩⟩

variable {a b c : Course} {visible : Bool}

/-- Where the local is not visible and not declared, nothing is done with it. -/
theorem marks_of_run (h : c.run false = some visible) (hd : .declares ∉ c.marks) :
    c.marks = [] ∧ visible = false := by
  induction c generalizing visible with
  | does ms =>
    cases ms with
    | nil => exact ⟨rfl,(Option.some.inj h).symm⟩
    | cons m ms =>
      cases m with
      | declares => exact absurd List.mem_cons_self hd
      | mentions | clashes => cases h
  | seq a b iha ihb =>
    rw [marks, List.mem_append, not_or] at hd
    obtain ⟨v,ha,hb⟩ := Option.bind_eq_some_iff.mp h
    obtain ⟨hma,rfl⟩ := iha ha hd.1
    obtain ⟨hmb,rfl⟩ := ihb hb hd.2
    exact ⟨by rw [marks, hma, hmb, List.append_nil],rfl⟩
  | scope a ih =>
    obtain ⟨v,ha,rfl⟩ := Option.map_eq_some_iff.mp h
    exact ⟨(ih ha hd).1,rfl⟩

theorem clashes_notMem_of_run {seen : Bool} (h : c.run seen = some visible) :
    .clashes ∉ c.marks := by
  induction c generalizing seen visible with
  | does ms =>
    rw [marks]
    induction ms generalizing seen with
    | nil => exact List.not_mem_nil
    | cons m ms ih =>
      rw [run, List.foldlM_cons] at h
      obtain ⟨v,hm,hms⟩ := Option.bind_eq_some_iff.mp h
      rw [List.mem_cons, not_or]
      refine ⟨?_,ih hms⟩
      rintro rfl
      cases hm
  | seq a b iha ihb =>
    obtain ⟨v,ha,hb⟩ := Option.bind_eq_some_iff.mp h
    rw [marks, List.mem_append, not_or]
    exact ⟨iha ha,ihb hb⟩
  | scope a ih =>
    obtain ⟨v,ha,-⟩ := Option.map_eq_some_iff.mp h
    exact ih ha

namespace Sound

theorem clashes_notMem (h : c.Sound) : .clashes ∉ c.marks := by
  obtain ⟨v,hv⟩ := Option.isSome_iff_exists.mp h.visible
  exact clashes_notMem_of_run hv

theorem first (h : (seq a b).Sound) : a.Sound := by
  obtain ⟨v,hv⟩ := Option.isSome_iff_exists.mp h.visible
  obtain ⟨w,ha,-⟩ := Option.bind_eq_some_iff.mp hv
  have hcount := h.once
  rw [marks, List.count_append] at hcount
  exact ⟨by simp [ha],by omega⟩

/-- If the local is declared in the second part, nothing is done with it in the first. -/
theorem second (h : (seq a b).Sound) (hd : .declares ∈ b.marks) : a.marks = [] ∧ b.Sound := by
  obtain ⟨v,hv⟩ := Option.isSome_iff_exists.mp h.visible
  obtain ⟨w,ha,hb⟩ := Option.bind_eq_some_iff.mp hv
  have hcount := h.once
  have hpos := List.count_pos_iff.mpr hd
  rw [marks, List.count_append] at hcount
  obtain ⟨hma,rfl⟩ := marks_of_run ha (List.count_eq_zero.mp (by omega))
  exact ⟨hma,by simp [hb],by omega⟩

/-- If it is declared in the first part, it is not declared again. -/
theorem not_again (h : (seq a b).Sound) (hd : .declares ∈ a.marks) : .declares ∉ b.marks := by
  have hcount := h.once
  have hpos := List.count_pos_iff.mpr hd
  rw [marks, List.count_append] at hcount
  exact List.count_eq_zero.mp (by omega)

theorem inner (h : (scope a).Sound) : a.Sound := by
  refine ⟨?_,h.once⟩
  have hv := h.visible
  rwa [run, Option.isSome_map] at hv

/-- Behind a scope that declares the local nothing is done with it. -/
theorem behind (h : (seq (scope a) b).Sound) (hd : .declares ∈ a.marks) : b.marks = [] := by
  obtain ⟨v,hv⟩ := Option.isSome_iff_exists.mp h.visible
  obtain ⟨w,ha,hb⟩ := Option.bind_eq_some_iff.mp hv
  obtain ⟨-,-,rfl⟩ := Option.map_eq_some_iff.mp ha
  exact (marks_of_run hb (h.not_again hd)).1

end Sound

end Course

/-- If the local is declared, then before anything else is done with it. -/
def InOrder (ms : List Mark) : Prop := .declares ∈ ms → ms.head? = some .declares

instance (ms : List Mark) : Decidable (InOrder ms) :=
  inferInstanceAs (Decidable (.declares ∈ ms → ms.head? = some .declares))

theorem InOrder.of_notMem {ms : List Mark} (h : .declares ∉ ms) : InOrder ms :=
  fun hd => absurd hd h

theorem inOrder_append_iff {as bs : List Mark} (h : .declares ∉ bs) :
    InOrder (as ++ bs) ↔ InOrder as := by
  cases as with
  | nil => exact iff_of_true (.of_notMem h) (.of_notMem List.not_mem_nil)
  | cons a as => simp [InOrder, h]

/-- The pieces in which a body with the course is written. As a whole they are in order exactly if
each of them is. -/
structure Course.Fits (c : Course) (pieces : List (List Mark)) : Prop where
  covered : pieces.flatten ⊆ c.marks
  inOrder_iff : c.Sound → (InOrder pieces.flatten ↔ ∀ piece ∈ pieces, InOrder piece)

namespace Course.Fits
variable {a b c : Course} {ps qs : List (List Mark)} {p : List Mark}

theorem none (c : Course) : c.Fits [] :=
  ⟨List.nil_subset _,fun _ => iff_of_true (.of_notMem List.not_mem_nil) (by simp)⟩

theorem one (h : p ⊆ c.marks) : c.Fits [p] := ⟨by simpa using h,by simp⟩

theorem scope (h : a.Fits ps) : (Course.scope a).Fits ps :=
  ⟨h.covered,fun hs => h.inOrder_iff hs.inner⟩

theorem inOrder_of_notMem (h : a.Fits ps) (hd : .declares ∉ a.marks) :
    .declares ∉ ps.flatten ∧ ∀ p ∈ ps, InOrder p := by
  have hps : .declares ∉ ps.flatten := fun hmem => hd (h.covered hmem)
  refine ⟨hps,fun p hp => .of_notMem fun hmem => hps ?_⟩
  exact List.mem_flatten.mpr ⟨p,hp,hmem⟩

theorem eq_nil (h : a.Fits ps) (ha : a.marks = []) : ps.flatten = [] :=
  List.subset_nil.mp (ha ▸ h.covered)

theorem seq (ha : a.Fits ps) (hb : b.Fits qs) : (Course.seq a b).Fits (ps ++ qs) := by
  constructor
  · rw [List.flatten_append]
    refine List.append_subset.mpr ⟨fun m hm => ?_,fun m hm => ?_⟩
    · exact List.mem_append_left _ (ha.covered hm)
    · exact List.mem_append_right _ (hb.covered hm)
  · intro hs
    rw [List.flatten_append, List.forall_mem_append]
    by_cases hd : .declares ∈ b.marks
    · -- Nothing is done with the local before.
      obtain ⟨hquiet,hsound⟩ := hs.second hd
      have hall := (ha.inOrder_of_notMem (by simp [hquiet])).2
      rw [ha.eq_nil hquiet, List.nil_append, hb.inOrder_iff hsound]
      exact ⟨fun h => ⟨hall,h⟩,fun h => h.2⟩
    · obtain ⟨hnot,hall⟩ := hb.inOrder_of_notMem hd
      rw [inOrder_append_iff hnot, ha.inOrder_iff hs.first]
      exact ⟨fun h => ⟨h,hall⟩,fun h => h.1⟩

/-- A loop whose head is written before its body, although a part of it is evaluated behind it. -/
theorem around (hb : b.Fits ps) (hp : p ⊆ a.marks ++ c.marks) :
    (Course.seq a (.seq (.scope b) c)).Fits (p :: ps) := by
  constructor
  · intro m hm
    rw [List.flatten_cons, List.mem_append] at hm
    simp only [Course.marks, List.mem_append]
    obtain hm | hm := hm
    · obtain h | h := List.mem_append.mp (hp hm)
      · exact .inl h
      · exact .inr (.inr h)
    · exact .inr (.inl (hb.covered hm))
  · intro hs
    rw [List.flatten_cons, List.forall_mem_cons]
    by_cases hd : .declares ∈ b.marks
    · obtain ⟨ha,hrest⟩ := hs.second (List.mem_append_left _ hd)
      have hc := hrest.behind hd
      rw [ha, hc] at hp
      rw [List.subset_nil.mp hp, List.nil_append, hb.inOrder_iff hrest.first.inner]
      exact ⟨fun h => ⟨.of_notMem List.not_mem_nil,h⟩,fun h => h.2⟩
    · obtain ⟨hnot,hall⟩ := hb.inOrder_of_notMem hd
      rw [inOrder_append_iff hnot]
      exact ⟨fun h => ⟨h,hall⟩,fun h => h.1⟩

end Course.Fits

end Recast
