import Mathlib.Data.List.Induction
import Recast.Proofs.Locals.Visits

/-! # The scan is exact

What is visible at a point of a walk can be told from the visits before it: a local is as long as no
scope around its declaration is left. The scan keeps to this, so each local in its list stands for
one declaration, and is marked exactly if a write comes while it is the innermost one of its name.
-/
namespace Recast

theorem exists_split_concat {α : Type} {P : List α → List α → Prop} {past : List α} {v x : α} :
    (∃ before after, past ++ [v] = before ++ x :: after ∧ P before after) ↔
      (∃ before after, past = before ++ x :: after ∧ P before (after ++ [v])) ∨
        v = x ∧ P past [] := by
  constructor
  · rintro ⟨before, after, h, hP⟩
    rcases List.eq_nil_or_concat after with rfl | ⟨after', last, rfl⟩
    · obtain ⟨rfl, hlast⟩ := List.append_inj' h rfl
      cases hlast
      exact .inr ⟨rfl, hP⟩
    · have hsplit : past ++ [v] = (before ++ x :: after') ++ [last] := by simpa using h
      obtain ⟨rfl, hlast⟩ := List.append_inj' hsplit rfl
      cases hlast
      exact .inl ⟨before, after', rfl, by simpa using hP⟩
  · rintro (⟨before, after, rfl, hP⟩ | ⟨rfl, hP⟩)
    · exact ⟨before, after ++ [v], by simp, hP⟩
    · exact ⟨past, [], rfl, hP⟩

/-- In an ascending list the last one found is the greatest. -/
theorem find?_reverse_eq_some_iff {xs : List Nat} (h : xs.Pairwise (· < ·)) {p : Nat → Bool}
    {i : Nat} : xs.reverse.find? p = some i ↔
      (i ∈ xs ∧ p i = true) ∧ ∀ j ∈ xs, p j = true → j ≤ i := by
  have hfound {k : Nat} (hk : xs.reverse.find? p = some k) :
      (k ∈ xs ∧ p k = true) ∧ ∀ j ∈ xs, p j = true → j ≤ k := by
    obtain ⟨hp, before, after, hsplit, hbefore⟩ := List.find?_eq_some_iff_append.mp hk
    have hdescending : (before ++ k :: after).Pairwise (· > ·) :=
      hsplit ▸ List.pairwise_reverse.mpr h
    refine ⟨⟨List.mem_reverse.mp (List.mem_of_find?_eq_some hk), hp⟩, fun j hj hpj => ?_⟩
    rw [← List.mem_reverse, hsplit, List.mem_append, List.mem_cons] at hj
    rcases hj with hj | rfl | hj
    · have hnot := hbefore j hj
      simp [hpj] at hnot
    · exact Nat.le_refl j
    · exact Nat.le_of_lt (List.rel_of_pairwise_cons (List.pairwise_append.mp hdescending).2.1 hj)
  refine ⟨hfound, ?_⟩
  rintro ⟨⟨hi, hp⟩, hmax⟩
  have hsome : (xs.reverse.find? p).isSome = true :=
    List.find?_isSome.mpr ⟨i, List.mem_reverse.mpr hi, hp⟩
  obtain ⟨k, hk⟩ := Option.isSome_iff_exists.mp hsome
  obtain ⟨⟨hkmem, hkp⟩, hkmax⟩ := hfound hk
  obtain rfl : k = i := Nat.le_antisymm (hmax k hkmem hkp) (hkmax i hi hp)
  exact hk

namespace Visits

/-- The name and the type of what is declared. -/
def site? : Visit → Option (String × Option TypeDesc)
  | .declare name ty => some (name, ty)
  | _ => none

/-- The declarations in some visits. -/
def sites (visits : List Visit) : List (String × Option TypeDesc) := visits.filterMap site?

@[simp] theorem sites_append (a b : List Visit) : sites (a ++ b) = sites a ++ sites b :=
  List.filterMap_append

theorem sites_concat (past : List Visit) (v : Visit) :
    sites (past ++ [v]) = sites past ++ (site? v).toList := by
  rw [sites_append]
  cases v <;> rfl

/-- How many scopes are open after some visits if `n` are open before them; none if more are left
than that. -/
def depth? : Nat → List Visit → Option Nat
  | n, [] => some n
  | n, .enter :: visits => depth? (n + 1) visits
  | 0, .leave :: _ => none
  | n + 1, .leave :: visits => depth? n visits
  | n, .declare .. :: visits => depth? n visits
  | n, .write _ :: visits => depth? n visits

theorem depth?_append (n : Nat) (a b : List Visit) :
    depth? n (a ++ b) = (depth? n a).bind fun m => depth? m b := by
  fun_induction depth? n a with
  | case1 n => rfl
  | case2 n visits ih => exact ih
  | case3 visits => rfl
  | case4 n visits ih => exact ih
  | case5 n visits name ty ih => exact ih
  | case6 n name visits ih => exact ih

/-- With `d` more scopes left after the visits, no scope from before them is. -/
def Stays (d : Nat) (visits : List Visit) : Prop := ∃ m ∈ depth? 0 visits, d ≤ m

section
variable {d : Nat} {visits : List Visit}

theorem stays_nil : Stays d [] ↔ d = 0 := by simp [Stays, depth?]

theorem stays_leave : Stays d (visits ++ [.leave]) ↔ Stays (d + 1) visits := by
  unfold Stays
  rw [depth?_append]
  cases depth? 0 visits with
  | none => simp
  | some m => cases m <;> simp [depth?]

theorem stays_enter_zero : Stays 0 (visits ++ [.enter]) ↔ Stays 0 visits := by
  unfold Stays
  rw [depth?_append]
  cases depth? 0 visits <;> simp [depth?]

theorem stays_enter_succ : Stays (d + 1) (visits ++ [.enter]) ↔ Stays d visits := by
  unfold Stays
  rw [depth?_append]
  cases depth? 0 visits <;> simp [depth?]

/-- A visit that is not the start or the end of a scope changes nothing. -/
theorem stays_of_depth? {v : Visit} (h : ∀ n, depth? n [v] = some n) (visits : List Visit) :
    Stays d (visits ++ [v]) ↔ Stays d visits := by
  unfold Stays
  rw [depth?_append]
  cases depth? 0 visits <;> simp [h]

end

/-- With `d` more scopes left after the visits, the local `i` is visible under its name: of the
scopes around its declaration none is left. -/
def Sees (d : Nat) (past : List Visit) (name : String) (i : Nat) : Prop :=
  ∃ ty before after, past = before ++ .declare name ty :: after ∧
    (sites before).length = i ∧ Stays d after

/-- The last declared of the locals that are visible under a name. -/
def Innermost (past : List Visit) (name : String) (i : Nat) : Prop :=
  Sees 0 past name i ∧ ∀ j, Sees 0 past name j → j ≤ i

/-- A write comes while the local is the innermost one of the name. -/
def Written (past : List Visit) (name : String) (i : Nat) : Prop :=
  ∃ before after, past = before ++ .write name :: after ∧ Innermost before name i

section
variable {d i : Nat} {past : List Visit} {name : String}

theorem not_sees_nil : ¬ Sees d [] name i := by
  rintro ⟨ty, before, after, h, -⟩
  simp at h

theorem Sees.site (h : Sees d past name i) : ∃ ty, (sites past)[i]? = some (name, ty) := by
  obtain ⟨ty, before, after, rfl, rfl, -⟩ := h
  exact ⟨ty, by simp [sites, site?]⟩

theorem Sees.lt (h : Sees d past name i) : i < (sites past).length := by
  obtain ⟨ty, hsite⟩ := h.site
  exact (List.getElem?_eq_some_iff.mp hsite).1

/-- A local was visible before the last visit or is declared by it. -/
theorem sees_concat {v : Visit} {e : Nat}
    (h : ∀ after : List Visit, Stays d (after ++ [v]) ↔ Stays e after) :
    Sees d (past ++ [v]) name i ↔
      Sees e past name i ∨ d = 0 ∧ (sites past).length = i ∧ ∃ ty, v = .declare name ty := by
  unfold Sees
  simp only [exists_split_concat, exists_or, stays_nil, h]
  refine or_congr Iff.rfl ?_
  constructor
  · rintro ⟨ty, hv, hi, hd⟩
    exact ⟨hd, hi, ty, hv⟩
  · rintro ⟨hd, hi, ty, hv⟩
    exact ⟨ty, hv, hi, hd⟩

theorem sees_leave : Sees d (past ++ [.leave]) name i ↔ Sees (d + 1) past name i := by
  simp [sees_concat fun _ => stays_leave]

theorem sees_enter_zero : Sees 0 (past ++ [.enter]) name i ↔ Sees 0 past name i := by
  simp [sees_concat fun _ => stays_enter_zero]

theorem sees_enter_succ : Sees (d + 1) (past ++ [.enter]) name i ↔ Sees d past name i := by
  simp [sees_concat fun _ => stays_enter_succ]

theorem sees_write (written : String) :
    Sees d (past ++ [.write written]) name i ↔ Sees d past name i := by
  simp [sees_concat (stays_of_depth? (v := .write written) fun _ => rfl)]

theorem sees_declare (declared : String) (ty : Option TypeDesc) :
    Sees d (past ++ [.declare declared ty]) name i ↔
      Sees d past name i ∨ d = 0 ∧ (sites past).length = i ∧ declared = name := by
  simp [sees_concat (stays_of_depth? (v := .declare declared ty) fun _ => rfl)]

/-- A write before the last visit, or one that is the last. -/
theorem written_concat {v : Visit} : Written (past ++ [v]) name i ↔
    Written past name i ∨ v = .write name ∧ Innermost past name i :=
  exists_split_concat (P := fun before _ => Innermost before name i)

theorem Written.lt (h : Written past name i) : i < (sites past).length := by
  obtain ⟨before, after, rfl, hinner, -⟩ := h
  have hlt := hinner.lt
  simp only [sites_append, List.length_append]
  omega

end

end Visits

/-! ## What a walk knows -/

open Visits

/-- The declaration that a local stands for. -/
def LocalVariable.site (v : LocalVariable) : String × Option TypeDesc := (v.name, v.ty)

namespace Scan

/-- What is visible is in the list, in the order of declaration. -/
structure Ordered (s : Scan) : Prop where
  ascending : s.visible.Pairwise (· < ·)
  inRange : ∀ i ∈ s.visible, i < s.locals.length

/-- A write marks the innermost visible local of the name and leaves the others as they are. -/
theorem getElem?_write (s : Scan) (name : String) (i : Nat) :
    (s.write (.identifier 0 name)).locals[i]? = s.locals[i]?.map fun v =>
      if s.innermost? name = some i then { v with reassigned := true } else v := by
  cases h : s.innermost? name with
  | none =>
    rw [write_identifier_none h]
    simp
  | some j =>
    rw [write_identifier h, mark, List.getElem?_modify]
    simp

theorem map_write {β : Type} (s : Scan) (f : LocalVariable → β) (name : String)
    (hf : ∀ v, f { v with reassigned := true } = f v) :
    (s.write (.identifier 0 name)).locals.map f = s.locals.map f := by
  apply List.ext_getElem?
  intro i
  rw [List.getElem?_map, List.getElem?_map, getElem?_write]
  cases s.locals[i]? with
  | none => rfl
  | some v => by_cases h : s.innermost? name = some i <;> simp [h, hf]

theorem visible_write (s : Scan) (target : Expr) : (s.write target).visible = s.visible := by
  rcases s.write_cases target with h | ⟨i, h⟩
  · rw [h]
  · rw [h, visible_mark]

/-- The innermost visible local is the last one with the name. -/
theorem innermost?_eq_some_iff {s : Scan} (hs : s.Ordered) {name : String} {i : Nat} :
    s.innermost? name = some i ↔
      (i ∈ s.visible ∧ (s.locals[i]?.any fun v => v.name == name) = true) ∧
        ∀ j ∈ s.visible, (s.locals[j]?.any fun v => v.name == name) = true → j ≤ i :=
  find?_reverse_eq_some_iff hs.ascending

end Scan

namespace Walk

/-- What is visible, and what will be after leaving one scope, two scopes and so on. -/
def levels (w : Walk) : List (List Nat) := w.scan.visible :: w.outer

theorem levels_write (w : Walk) (name : String) : (w.step (.write name)).levels = w.levels :=
  congrArg (· :: w.outer) (w.scan.visible_write _)

/-- What is visible, now or after leaving some scopes, is in the list, in the order of
declaration. -/
structure Ordered (w : Walk) : Prop where
  ascending : ∀ visible ∈ w.levels, visible.Pairwise (· < ·)
  inRange : ∀ visible ∈ w.levels, ∀ i ∈ visible, i < w.scan.locals.length

namespace Ordered
variable {w : Walk}

theorem scan (h : w.Ordered) : w.scan.Ordered where
  ascending := h.ascending _ List.mem_cons_self
  inRange := h.inRange _ List.mem_cons_self

theorem step (h : w.Ordered) (v : Visit) : (w.step v).Ordered := by
  cases v with
  | enter =>
    exact ⟨List.forall_mem_cons.mpr ⟨h.scan.ascending, h.ascending⟩,
      List.forall_mem_cons.mpr ⟨h.scan.inRange, h.inRange⟩⟩
  | leave =>
    obtain ⟨scan, outer⟩ := w
    cases outer with
    | nil => constructor <;> simp [Walk.step, levels]
    | cons visible outer =>
      exact ⟨(List.forall_mem_cons.mp h.ascending).2, (List.forall_mem_cons.mp h.inRange).2⟩
  | declare name ty =>
    have hlength : w.scan.locals.length < (w.scan.declare name ty).locals.length := by
      simp [Scan.declare]
    constructor
    · refine List.forall_mem_cons.mpr ⟨?_, (List.forall_mem_cons.mp h.ascending).2⟩
      refine List.pairwise_append.mpr ⟨h.scan.ascending, List.pairwise_singleton _ _, ?_⟩
      intro i hi j hj
      rw [List.mem_singleton.mp hj]
      exact h.scan.inRange i hi
    · refine List.forall_mem_cons.mpr ⟨?_, ?_⟩
      · intro i hi
        rcases List.mem_append.mp hi with hi | hi
        · exact Nat.lt_trans (h.scan.inRange i hi) hlength
        · rw [List.mem_singleton.mp hi]
          exact hlength
      · intro visible hvisible i hi
        exact Nat.lt_trans (h.inRange visible (List.mem_cons_of_mem _ hvisible) i hi) hlength
  | write name =>
    have hlength : (w.step (.write name)).scan.locals.length = w.scan.locals.length := by
      have hsites := congrArg List.length (w.scan.map_write LocalVariable.site name fun _ => rfl)
      rwa [List.length_map, List.length_map] at hsites
    constructor
    · rw [levels_write]
      exact h.ascending
    · rw [levels_write, hlength]
      exact h.inRange

theorem run (h : w.Ordered) (visits : List Visit) : (w.run visits).Ordered := by
  induction visits generalizing w with
  | nil => exact h
  | cons v visits ih => exact ih (h.step v)

end Ordered

/-- What the scan knows after some visits. -/
structure Exact (past : List Visit) (w : Walk) : Prop where
  ordered : w.Ordered
  sites : w.scan.locals.map LocalVariable.site = Visits.sites past
  numbered : Numbered w.scan.keys
  visible : ∀ d i, i ∈ w.levels.getD d [] ↔ ∃ name, Sees d past name i
  reassigned : ∀ i v, w.scan.locals[i]? = some v → (v.reassigned = true ↔ Written past v.name i)

namespace Exact
variable {past : List Visit} {w : Walk}

theorem start : Exact [] {} where
  ordered := by constructor <;> simp [levels]
  sites := rfl
  numbered _ _ h := by simp [Scan.keys] at h
  visible d i := by
    have hnone : i ∉ (levels {}).getD d [] := by
      cases d <;> simp [levels]
    exact iff_of_false hnone fun h => h.elim fun _ => not_sees_nil
  reassigned _ _ h := by simp at h

theorem length_locals (h : Exact past w) : w.scan.locals.length = (Visits.sites past).length := by
  rw [← h.sites, List.length_map]

/-- A local is seen under the name that it has in the list. -/
theorem sees_iff (h : Exact past w) {name : String} {i : Nat} : Sees 0 past name i ↔
    i ∈ w.scan.visible ∧ (w.scan.locals[i]?.any fun v => v.name == name) = true := by
  have hname {name' : String} (hsees : Sees 0 past name' i) :
      (w.scan.locals[i]?.any fun v => v.name == name) = (name' == name) := by
    obtain ⟨ty, hsite⟩ := hsees.site
    rw [← h.sites, List.getElem?_map, Option.map_eq_some_iff] at hsite
    obtain ⟨v, hv, hv'⟩ := hsite
    cases hv'
    rw [hv]
    rfl
  constructor
  · intro hsees
    refine ⟨(h.visible 0 i).mpr ⟨name, hsees⟩, ?_⟩
    rw [hname hsees]
    exact beq_self_eq_true name
  · rintro ⟨hi, hany⟩
    obtain ⟨name', hsees⟩ := (h.visible 0 i).mp hi
    rw [hname hsees] at hany
    exact eq_of_beq hany ▸ hsees

theorem innermost?_iff (h : Exact past w) {name : String} {i : Nat} :
    w.scan.innermost? name = some i ↔ Innermost past name i := by
  rw [Scan.innermost?_eq_some_iff h.ordered.scan, ← h.sees_iff]
  unfold Innermost
  refine and_congr Iff.rfl (forall_congr' fun j => ?_)
  rw [h.sees_iff]
  exact and_imp.symm

theorem enter (h : Exact past w) : Exact (past ++ [.enter]) (w.step .enter) where
  ordered := h.ordered.step _
  sites := by
    rw [sites_concat]
    exact h.sites.trans (List.append_nil _).symm
  numbered := h.numbered
  visible d i := by
    cases d with
    | zero => exact (h.visible 0 i).trans (exists_congr fun _ => sees_enter_zero.symm)
    | succ d => exact (h.visible d i).trans (exists_congr fun _ => sees_enter_succ.symm)
  reassigned i v hv := by simpa [written_concat] using h.reassigned i v hv

theorem leave (h : Exact past w) : Exact (past ++ [.leave]) (w.step .leave) where
  ordered := h.ordered.step _
  sites := by
    rw [sites_concat]
    exact h.sites.trans (List.append_nil _).symm
  numbered := h.numbered
  visible d i := by
    have hlevels : (w.step .leave).levels.getD d [] = w.levels.getD (d + 1) [] := by
      change (w.outer.headD [] :: w.outer.tail).getD d [] = w.outer.getD d []
      cases w.outer with
      | nil => cases d <;> rfl
      | cons visible outer => rfl
    rw [hlevels]
    exact (h.visible (d + 1) i).trans (exists_congr fun _ => sees_leave.symm)
  reassigned i v hv := by simpa [written_concat] using h.reassigned i v hv

theorem declare (h : Exact past w) (name : String) (ty : Option TypeDesc) :
    Exact (past ++ [.declare name ty]) (w.step (.declare name ty)) where
  ordered := h.ordered.step _
  sites := by
    rw [sites_concat, ← h.sites]
    exact List.map_append
  numbered := by
    change Numbered (w.scan.declare name ty).keys
    rw [w.scan.keys_declare]
    exact h.numbered.concat name
  visible d i := by
    have hvisible := h.visible d i
    simp only [sees_declare, exists_or, ← hvisible]
    cases d with
    | zero =>
      change i ∈ w.scan.visible ++ [w.scan.locals.length] ↔ i ∈ w.scan.visible ∨ _
      rw [List.mem_append, List.mem_singleton, h.length_locals]
      simp [eq_comm]
    | succ d => simp [levels, step]
  reassigned i v hv := by
    rw [written_concat, or_iff_left (by simp)]
    change (w.scan.locals ++ [_])[i]? = some v at hv
    by_cases hi : i < w.scan.locals.length
    · rw [List.getElem?_append_left hi] at hv
      exact h.reassigned i v hv
    · -- The local is new, so nothing has written it yet.
      rw [List.getElem?_append_right (Nat.le_of_not_lt hi)] at hv
      obtain rfl := List.mem_singleton.mp (List.mem_of_getElem? hv)
      refine iff_of_false Bool.false_ne_true fun hwritten => hi ?_
      rw [h.length_locals]
      exact hwritten.lt

theorem write (h : Exact past w) (name : String) :
    Exact (past ++ [.write name]) (w.step (.write name)) where
  ordered := h.ordered.step _
  sites := by
    rw [sites_concat, ← h.sites]
    exact (w.scan.map_write _ name fun _ => rfl).trans (List.append_nil _).symm
  numbered := by
    have hkeys : (w.scan.write (.identifier 0 name)).keys = w.scan.keys :=
      w.scan.map_write _ name fun _ => rfl
    change Numbered (w.scan.write (.identifier 0 name)).keys
    rw [hkeys]
    exact h.numbered
  visible d i := by
    rw [levels_write]
    exact (h.visible d i).trans (exists_congr fun _ => (sees_write name).symm)
  reassigned i v hv := by
    change (w.scan.write (.identifier 0 name)).locals[i]? = some v at hv
    rw [Scan.getElem?_write, Option.map_eq_some_iff] at hv
    obtain ⟨u, hu, rfl⟩ := hv
    rw [written_concat]
    by_cases hinner : w.scan.innermost? name = some i
    · have hname := (Scan.innermost?_eq_some_iff h.ordered.scan).mp hinner |>.1.2
      rw [hu] at hname
      obtain rfl : u.name = name := eq_of_beq hname
      rw [if_pos hinner]
      exact iff_of_true rfl (.inr ⟨rfl, h.innermost?_iff.mp hinner⟩)
    · rw [if_neg hinner, h.reassigned i u hu, or_iff_left]
      rintro ⟨hname, hinner'⟩
      cases hname
      exact hinner (h.innermost?_iff.mpr hinner')

/-- What is known of the visits so far stays known after one more. -/
theorem step (h : Exact past w) (v : Visit) : Exact (past ++ [v]) (w.step v) := by
  cases v with
  | enter => exact h.enter
  | leave => exact h.leave
  | declare name ty => exact h.declare name ty
  | write name => exact h.write name

theorem run (visits : List Visit) : Exact visits (Walk.run {} visits) := by
  induction visits using List.reverseRecOn with
  | nil => exact start
  | append_singleton visits v ih =>
    rw [run_append]
    exact ih.step v

end Exact

end Walk

end Recast
