import Mathlib.Data.List.Basic
import Recast.Program.Locals
import Recast.Proofs.Locals.Trace

/-! # The scan follows the trace

The scan of a body and its trace tell of the same locals in two ways, the scan by their position in
a list and the trace by name and number. They agree as long as both number the locals of each name
alike. Then each local that the trace has written is marked by the scan.
-/
namespace Recast
open LocalEvent

def LocalVariable.key (v : LocalVariable) : LocalKey := (v.name,v.occurrence)

theorem Routine.key_of_declaredLocal? {f : Routine} {name : String} {occurrence : Nat}
    {v : LocalVariable} (h : f.declaredLocal? name occurrence = some v) :
    v ∈ f.locals ∧ v.key = (name,occurrence) := by
  have hfound := List.find?_some h
  obtain ⟨hname,hnumber⟩ := Bool.and_eq_true_iff.mp hfound
  exact ⟨List.mem_of_find?_eq_some h,Prod.ext (eq_of_beq hname) (eq_of_beq hnumber)⟩

/-- Each number says how many locals of the name come before. -/
def Numbered (keys : List LocalKey) : Prop :=
  ∀ i k, keys[i]? = some k → k.2 = (keys.take i).countP fun k' => k'.1 == k.1

namespace Numbered
variable {keys : List LocalKey}

theorem concat (h : Numbered keys) (name : String) :
    Numbered (keys ++ [(name,keys.countP fun k => k.1 == name)]) := by
  intro i k hk
  by_cases hi : i < keys.length
  · rw [List.getElem?_append_left hi] at hk
    rw [List.take_append_of_le_length (Nat.le_of_lt hi)]
    exact h i k hk
  · rw [List.getElem?_append_right (Nat.le_of_not_lt hi),List.getElem?_singleton] at hk
    split at hk
    · next hlast =>
      cases hk
      rw [show i = keys.length by omega,List.take_left]
    · cases hk

theorem not_lt (h : Numbered keys) {i j : Nat} {k : LocalKey} (hi : keys[i]? = some k)
    (hj : keys[j]? = some k) : ¬ i < j := by
  intro hij
  have hle : (keys.take (i + 1)).countP (fun k' => k'.1 == k.1) ≤
      (keys.take j).countP fun k' => k'.1 == k.1 :=
    (List.take_sublist_take_left hij).countP_le
  rw [List.take_add_one,hi,List.countP_append,← h i k hi,← h j k hj] at hle
  simp only [Option.toList_some,List.countP_singleton,beq_self_eq_true,if_true] at hle
  omega

/-- Name and number tell where a local is. -/
theorem index_unique (h : Numbered keys) {i j : Nat} {k : LocalKey} (hi : keys[i]? = some k)
    (hj : keys[j]? = some k) : i = j := by
  have hij := h.not_lt hi hj
  have hji := h.not_lt hj hi
  omega

/-- No two locals have the same name and number. -/
theorem eq_of_key {locals : List LocalVariable} (h : Numbered (locals.map LocalVariable.key))
    {v w : LocalVariable} (hv : v ∈ locals) (hw : w ∈ locals) (hkey : v.key = w.key) : v = w := by
  obtain ⟨i,hi⟩ := List.getElem?_of_mem hv
  obtain ⟨j,hj⟩ := List.getElem?_of_mem hw
  have hi' : (locals.map LocalVariable.key)[i]? = some w.key := by
    rw [List.getElem?_map,hi,← hkey]
    rfl
  have hj' : (locals.map LocalVariable.key)[j]? = some w.key := by
    rw [List.getElem?_map,hj]
    rfl
  obtain rfl : i = j := h.index_unique hi' hj'
  exact Option.some.inj (hi.symm.trans hj)

end Numbered

namespace Scan

def keys (s : Scan) : List LocalKey := s.locals.map LocalVariable.key

/-- The locals that are visible, the innermost first. -/
def inSight (s : Scan) : List LocalKey := s.visible.reverse.filterMap fun i => s.keys[i]?

/-- Nothing was renumbered, and what was visible still is. -/
structure Grows (s t : Scan) : Prop where
  keys : s.keys <+: t.keys
  visible : s.visible <+: t.visible

theorem Grows.refl (s : Scan) : s.Grows s := ⟨List.prefix_rfl,List.prefix_rfl⟩

theorem Grows.trans {s t u : Scan} (h : s.Grows t) (k : t.Grows u) : s.Grows u :=
  ⟨h.keys.trans k.keys,h.visible.trans k.visible⟩

theorem leave_eq {s t : Scan} (h : s.Grows t) : leave s t = { t with visible := s.visible } := by
  unfold leave
  rw [← List.prefix_iff_eq_take.mp h.visible]

theorem keys_declare (s : Scan) (name : String) (ty : Option TypeDesc) :
    (s.declare name ty).keys = s.keys ++ [(name,s.keys.countP fun k => k.1 == name)] := by
  simp [keys,declare,LocalVariable.key,List.countP_map,Function.comp_def]

theorem grows_declare (s : Scan) (name : String) (ty : Option TypeDesc) :
    s.Grows (s.declare name ty) where
  keys := s.keys_declare name ty ▸ List.prefix_append _ _
  visible := List.prefix_append _ _

/-- Mark the local at a position. -/
def mark (s : Scan) (i : Nat) : Scan :=
  { s with locals := s.locals.modify i fun v => { v with reassigned := true } }

theorem write_identifier {s : Scan} {name : String} {i : Nat} (h : s.innermost? name = some i)
    (id : NodeId) : s.write (.identifier id name) = s.mark i := by
  dsimp only [write]
  rw [h]
  rfl

/-- A write marks at most one local. -/
theorem write_cases (s : Scan) (target : Expr) :
    s.write target = s ∨ ∃ i, s.write target = s.mark i := by
  cases target with
  | identifier id name =>
    cases h : s.innermost? name with
    | some i => exact .inr ⟨i,write_identifier h id⟩
    | none =>
      left
      dsimp only [write]
      rw [h]
  | _ => exact .inl rfl

@[simp] theorem keys_mark (s : Scan) (i : Nat) : (s.mark i).keys = s.keys := by
  apply List.ext_getElem?
  intro j
  unfold keys mark
  rw [List.getElem?_map,List.getElem?_modify,List.getElem?_map]
  cases s.locals[j]? with
  | none => simp
  | some v => by_cases h : i = j <;> simp [h,LocalVariable.key]

@[simp] theorem visible_mark (s : Scan) (i : Nat) : (s.mark i).visible = s.visible := rfl

theorem grows_write (s : Scan) (target : Expr) : s.Grows (s.write target) := by
  rcases s.write_cases target with hw | ⟨i,hw⟩
  · rw [hw]
    exact .refl s
  · rw [hw]
    exact ⟨s.keys_mark i ▸ List.prefix_rfl,List.prefix_rfl⟩

theorem mem_locals_mark {s : Scan} {v : LocalVariable} (h : v ∈ s.locals) (i : Nat) :
    ∃ w ∈ (s.mark i).locals, w.key = v.key ∧ (v.reassigned = true → w.reassigned = true) := by
  obtain ⟨j,hj⟩ := List.getElem?_of_mem h
  have hw : (s.mark i).locals[j]? = some (if i = j then { v with reassigned := true } else v) := by
    unfold mark
    rw [List.getElem?_modify,hj]
    by_cases h : i = j <;> simp [h]
  refine ⟨_,List.mem_of_getElem? hw,?_⟩
  split
  · exact ⟨rfl,fun _ => rfl⟩
  · exact ⟨rfl,id⟩

theorem mem_mark_of_key {s : Scan} {i : Nat} {k : LocalKey} (h : s.keys[i]? = some k) :
    ∃ v ∈ (s.mark i).locals, v.key = k ∧ v.reassigned = true := by
  unfold keys at h
  rw [List.getElem?_map] at h
  obtain ⟨v,hv,rfl⟩ := Option.map_eq_some_iff.mp h
  refine ⟨{ v with reassigned := true },List.mem_of_getElem? (i := i) ?_,rfl,rfl⟩
  unfold mark
  rw [List.getElem?_modify,hv]
  simp

/-- The innermost local with a name is the first one in sight. -/
theorem find?_inSight (s : Scan) (name : String) :
    s.inSight.find? (fun k => k.1 == name) = (s.innermost? name).bind fun i => s.keys[i]? := by
  unfold inSight innermost?
  rw [List.find?_filterMap]
  congr 2
  funext i
  unfold keys
  rw [List.getElem?_map]
  cases s.locals[i]? <;> rfl

end Scan

/-- The names that some events declare. -/
def LocalEvent.names (events : List LocalEvent) : List String := (sites events).map Site.name

theorem LocalEvent.names_append (a b : List LocalEvent) : names (a ++ b) = names a ++ names b := by
  simp [names]

theorem LocalEvent.tally_eq_zero {name : String} {events : List LocalEvent}
    (h : name ∉ names events) : tally name (sites events) = 0 := by
  apply List.countP_eq_zero.mpr
  intro site hsite he
  exact h (List.mem_map.mpr ⟨site,hsite,eq_of_beq he⟩)

theorem Usage.run_append (u : Usage) (a b : List LocalEvent) : u.run (a ++ b) = (u.run a).run b :=
  List.foldl_append

theorem Usage.sites_step (u : Usage) (event : LocalEvent) :
    (u.step event).sites = u.sites ++ LocalEvent.sites [event] := by
  cases event with
  | declare site => rfl
  | leave =>
    dsimp only [step]
    split <;> exact (List.append_nil _).symm
  | write name =>
    dsimp only [step]
    split <;> exact (List.append_nil _).symm
  | _ => exact (List.append_nil _).symm

theorem Usage.sites_run (u : Usage) (events : List LocalEvent) :
    (u.run events).sites = u.sites ++ LocalEvent.sites events := by
  induction events generalizing u with
  | nil => exact (List.append_nil _).symm
  | cons event events ih =>
    change ((u.step event).run events).sites = u.sites ++ LocalEvent.sites ([event] ++ events)
    rw [ih,sites_step,sites_append,List.append_assoc]

theorem Usage.step_leave {u : Usage} {visible : List (String × Option Nat)}
    {outer : List (List (String × Option Nat))} (h : u.outer = visible :: outer) :
    u.step .leave = { u with visible, outer } := by
  dsimp only [step]
  rw [h]

/-- The visible names that stand for locals. -/
def Usage.inSight (u : Usage) : List LocalKey :=
  u.visible.filterMap fun v => v.2.map fun occurrence => (v.1,occurrence)

theorem Usage.find?_inSight {u : Usage} {name : String} {occurrence : Nat}
    (h : u.resolve? name = some occurrence) :
    u.inSight.find? (fun k => k.1 == name) = some (name,occurrence) := by
  obtain ⟨⟨n,o⟩,hfind,rfl⟩ := Option.bind_eq_some_iff.mp h
  obtain ⟨hn,before,after,hvisible,hbefore⟩ := List.find?_eq_some_iff_append.mp hfind
  obtain rfl : n = name := eq_of_beq hn
  -- What hides a name comes before what it hides, so no local of the name is in sight before.
  have hnone : (before.filterMap fun v => v.2.map fun occurrence => (v.1,occurrence)).find?
      (fun k => k.1 == n) = none := by
    apply List.find?_eq_none.mpr
    intro k hk hkn
    obtain ⟨v,hv,hvk⟩ := List.mem_filterMap.mp hk
    obtain ⟨o,-,rfl⟩ := Option.map_eq_some_iff.mp hvk
    have := hbefore v hv
    simp_all
  unfold inSight
  rw [hvisible,List.filterMap_append,List.find?_append,hnone]
  simp

/-- The scan agrees with what is known after a part of the trace, but is ahead of it by one local
for each pending name. -/
structure Agree (pending : List String) (u : Usage) (s : Scan) : Prop where
  tally : ∀ name, (s.keys.countP fun k => k.1 == name) =
    LocalEvent.tally name u.sites + pending.count name
  occurrence : ∀ i k, s.keys[i]? = some k →
    k.2 = (s.keys.take i).countP fun k' => k'.1 == k.1
  inRange : ∀ i ∈ s.visible, i < s.keys.length
  inSight : s.inSight = u.inSight
  written : ∀ k ∈ u.written, ∃ v ∈ s.locals, v.key = k ∧ v.reassigned = true

namespace Agree
variable {pending : List String} {u : Usage} {s t : Scan} {name : String}

theorem start : Agree [] {} {} where
  tally _ := rfl
  occurrence _ _ h := nomatch h
  inRange _ h := nomatch h
  inSight := rfl
  written _ h := nomatch h

/-- What was in sight is seen at the same positions later on. -/
theorem filterMap_keys (h : Agree pending u s) {keys : List LocalKey} (hk : s.keys <+: keys) :
    s.visible.reverse.filterMap (fun i => keys[i]?) = u.inSight := by
  rw [← h.inSight]
  apply List.filterMap_congr
  intro i hi
  have hlt := h.inRange i (List.mem_reverse.mp hi)
  rw [List.prefix_iff_getElem?.mp hk i hlt,List.getElem?_eq_getElem hlt]

/-- A local that the scan declares is pending. -/
theorem declare (h : Agree pending u s) (hn : name ∉ pending) (ty : Option TypeDesc) :
    Agree (name :: pending) (u.step (.reveal name 0)) (s.declare name ty) where
  tally n := by
    rw [s.keys_declare,List.countP_append,h.tally,List.countP_singleton,List.count_cons,
      ← Nat.add_assoc]
    rfl
  occurrence := by
    rw [s.keys_declare]
    exact Numbered.concat h.occurrence name
  inRange i hi := by
    rw [s.keys_declare,List.length_append]
    rcases List.mem_append.mp hi with hi | hi
    · have := h.inRange i hi
      omega
    · rw [List.mem_singleton.mp hi]
      simp [Scan.keys]
  inSight := by
    have hkey : (s.declare name ty).keys[s.locals.length]? =
        some (name,LocalEvent.tally name u.sites) := by
      rw [s.keys_declare,h.tally,List.count_eq_zero_of_not_mem hn]
      simp [Scan.keys]
    have hold := h.filterMap_keys (s.grows_declare name ty).keys
    unfold Scan.inSight
    change (s.visible ++ [s.locals.length]).reverse.filterMap _ = _
    rw [List.reverse_append,List.reverse_singleton,List.singleton_append,List.filterMap_cons,hkey,
      hold]
    rfl
  written k hk := by
    obtain ⟨v,hv,hkv⟩ := h.written k hk
    exact ⟨v,List.mem_append_left _ hv,hkv⟩

/-- A pending local that is declared is pending no more. -/
theorem settle (h : Agree (name :: pending) u s) (valued : Option Bool) :
    Agree pending (u.step (.declare ⟨name,valued⟩)) s where
  tally n := by
    rw [h.tally,List.count_cons]
    change _ = LocalEvent.tally n (u.sites ++ [⟨name,valued⟩]) + _
    unfold LocalEvent.tally
    rw [List.countP_append,List.countP_singleton]
    dsimp only
    omega
  occurrence := h.occurrence
  inRange := h.inRange
  inSight := h.inSight
  written := h.written

theorem mark (h : Agree pending u s) (i : Nat) : Agree pending u (s.mark i) where
  tally := by simpa using h.tally
  occurrence := by simpa using h.occurrence
  inRange := by simpa using h.inRange
  inSight := by
    unfold Scan.inSight
    rw [s.keys_mark]
    exact h.inSight
  written k hk := by
    obtain ⟨v,hv,rfl,hr⟩ := h.written k hk
    obtain ⟨w,hw,hkey,hwr⟩ := Scan.mem_locals_mark hv i
    exact ⟨w,hw,hkey,hwr hr⟩

/-- A mark that the trace knows nothing of does no harm. -/
theorem write (h : Agree pending u s) (target : Expr) : Agree pending u (s.write target) := by
  rcases s.write_cases target with hw | ⟨i,hw⟩
  · rwa [hw]
  · rw [hw]
    exact h.mark i

/-- A write marks the local that the name stands for. -/
theorem write_identifier (h : Agree pending u s) (id : NodeId) (name : String) :
    Agree pending (u.step (.write name)) (s.write (.identifier id name)) := by
  dsimp only [Usage.step]
  cases hr : u.resolve? name with
  | none => exact h.write _
  | some occurrence =>
    have hfind := Usage.find?_inSight hr
    rw [← h.inSight,s.find?_inSight] at hfind
    obtain ⟨i,hi,hkey⟩ := Option.bind_eq_some_iff.mp hfind
    rw [Scan.write_identifier hi]
    refine { h.mark i with written := fun k hk => ?_ }
    rcases List.mem_append.mp hk with hk | hk
    · exact (h.mark i).written k hk
    · obtain rfl := List.mem_singleton.mp hk
      exact Scan.mem_mark_of_key hkey

/-- A name that stands for a parameter of a lambda says nothing of the locals. -/
theorem hide (h : Agree pending u s) (name : String) : Agree pending (u.step (.hide name)) s :=
  { h with }

/-- At the end of a scope what was visible at its start is so again. -/
theorem leave {v : Usage} (h : Agree pending u s) (hv : Agree pending v t) (hg : s.Grows t) :
    Agree pending { v with visible := u.visible, outer := u.outer }
      { t with visible := s.visible } :=
  { hv with
    inRange := fun i hi => Nat.lt_of_lt_of_le (h.inRange i hi) hg.keys.length_le
    inSight := h.filterMap_keys hg.keys }

/-- Where nothing was declared, there is nothing to know. -/
theorem forget (h : Agree [] u s) (hs : u.sites = []) : Agree [] u {} := by
  have hkeys : s.keys = [] := by
    apply List.eq_nil_iff_forall_not_mem.mpr
    intro k hk
    have hzero := h.tally k.1
    rw [hs] at hzero
    exact List.countP_eq_zero.mp hzero k hk (beq_self_eq_true k.1)
  have hlocals : s.locals = [] := List.map_eq_nil_iff.mp hkeys
  refine { start with tally := fun n => ?_, inSight := ?_, written := fun k hk => ?_ }
  · rw [hs]
    rfl
  · rw [← h.inSight]
    unfold Scan.inSight
    rw [hkeys]
    simp
  · obtain ⟨v,hv,-⟩ := h.written k hk
    rw [hlocals] at hv
    nomatch hv

end Agree

/-- Where they agree before, they agree after the events and a step of the scan, if the events
declare no pending name. -/
def Follows (events : List LocalEvent) (scan : Scan → Scan) : Prop :=
  ∀ pending u s, (∀ name ∈ pending, name ∉ names events) → Agree pending u s →
    Agree pending (u.run events) (scan s) ∧ s.Grows (scan s) ∧ (u.run events).outer = u.outer

namespace Follows
variable {a b : List LocalEvent} {f g : Scan → Scan}

theorem refl : Follows [] id := fun _ _ s _ h => ⟨h,.refl s,rfl⟩

theorem append (ha : Follows a f) (hb : Follows b g) : Follows (a ++ b) fun s => g (f s) := by
  intro pending u s hp h
  simp only [names_append,List.mem_append,not_or] at hp
  obtain ⟨h₁,g₁,o₁⟩ := ha pending u s (fun name hn => (hp name hn).1) h
  obtain ⟨h₂,g₂,o₂⟩ := hb pending _ _ (fun name hn => (hp name hn).2) h₁
  rw [Usage.run_append]
  exact ⟨h₂,g₁.trans g₂,o₂.trans o₁⟩

theorem inScope (ha : Follows a f) : Follows (inScope a) fun s => Scan.leave s (f s) := by
  intro pending u s hp h
  have hp' : ∀ name ∈ pending, name ∉ names a := by
    simpa only [names,sites_inScope] using hp
  obtain ⟨h₁,g₁,o₁⟩ := ha pending (u.step .enter) s hp' { h with }
  have hrun : u.run (LocalEvent.inScope a) = ((u.step .enter).run a).step .leave := by
    change (u.step .enter).run (a ++ [.leave]) = _
    rw [Usage.run_append]
    rfl
  rw [hrun,Usage.step_leave o₁]
  dsimp only
  rw [Scan.leave_eq g₁]
  exact ⟨h.leave h₁ g₁,⟨g₁.keys,List.prefix_rfl⟩,rfl⟩

theorem hides (params : List LambdaParam) : Follows (params.map fun p => .hide p.name) id := by
  induction params with
  | nil => exact refl
  | cons p params ih =>
    refine append (a := [.hide p.name]) (f := id) ?_ ih
    exact fun _ _ s _ h => ⟨h.hide p.name,.refl s,rfl⟩

theorem function (params : List LambdaParam) (ha : Follows a f) :
    Follows (function params a) fun s => Scan.leave s (f s) := inScope ((hides params).append ha)

/-- Marks may be set that the trace knows nothing of. -/
theorem mark (target : Expr) : Follows [] (Scan.write target) := by
  intro pending u s _ h
  exact ⟨h.write target,s.grows_write target,rfl⟩

theorem write (id : NodeId) (name : String) :
    Follows [.write name] (Scan.write (.identifier id name)) := by
  intro pending u s _ h
  refine ⟨h.write_identifier id name,s.grows_write _,?_⟩
  change (u.step (.write name)).outer = _
  dsimp only [Usage.step]
  split <;> rfl

theorem giveBack (o : Oracle) (inLambda : Bool) (value : Expr) :
    Follows [] (Scan.giveBack o inLambda value) := by
  intro pending u s _ h
  unfold Scan.giveBack
  split
  · exact ⟨{ h with },⟨List.prefix_rfl,List.prefix_rfl⟩,rfl⟩
  · exact ⟨h,.refl s,rfl⟩

/-- A local with an initial value, in which no other local of the name is declared. -/
theorem initialized {name : String} (ha : Follows a f) (hn : name ∉ names a)
    (ty : Option TypeDesc) :
    Follows (initialized name a) fun s => f (s.declare name ty) := by
  intro pending u s hp h
  have hnames : names (LocalEvent.initialized name a) = names a ++ [name] := by
    simp [names]
  simp only [hnames,List.mem_append,List.mem_singleton,not_or] at hp
  have hpending : name ∉ pending := fun hm => (hp name hm).2 rfl
  have hfresh : ∀ n ∈ name :: pending, n ∉ names a := by
    intro n hm
    rcases List.mem_cons.mp hm with rfl | hm
    · exact hn
    · exact (hp n hm).1
  obtain ⟨h₁,g₁,o₁⟩ := ha _ _ _ hfresh (h.declare hpending ty)
  have hrun : u.run (LocalEvent.initialized name a) =
      ((u.step (.reveal name 0)).run a).step (.declare { name, valued := some true }) := by
    change (u.step (.reveal name (tally name (sites a)))).run (a ++ [_]) = _
    rw [Usage.run_append,tally_eq_zero hn]
    rfl
  rw [hrun]
  exact ⟨h₁.settle _,(s.grows_declare name ty).trans g₁,o₁⟩

theorem introduce (site : Site) (ty : Option TypeDesc) :
    Follows (introduce site) (Scan.declare site.name ty) := by
  intro pending u s hp h
  have hpending : site.name ∉ pending := fun hm => hp _ hm (by simp [names])
  exact ⟨(h.declare hpending ty).settle site.valued,s.grows_declare _ ty,rfl⟩

end Follows

end Recast
