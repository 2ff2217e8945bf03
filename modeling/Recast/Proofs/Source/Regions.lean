import Mathlib.Logic.Relation
import Recast.Proofs.Source.Conditions

/-! # Settling regions

A region is settled by putting the members of its selected branch in its place. Doing this as long
as there is a region, in whatever order, leads to one list of members without regions, and this list
is what settling gives. It fails exactly if one of the regions that it comes across has no symbol.
-/
namespace Recast

/-- Two lists that may fail, one after the other. -/
def joined {ε α : Type} (xs ys : Except ε (List α)) : Except ε (List α) := do
  return (← xs) ++ (← ys)

section
variable {ε α : Type} {xs ys zs : Except ε (List α)} {rs : List α} {e : ε}

theorem joined_assoc : joined (joined xs ys) zs = joined xs (joined ys zs) := by
  cases xs with
  | error e => rfl
  | ok as =>
    cases ys with
    | error e => rfl
    | ok bs =>
      cases zs with
      | error e => rfl
      | ok cs => exact congrArg Except.ok (List.append_assoc as bs cs)

theorem ok_nil_joined : joined (.ok []) xs = xs := by
  cases xs <;> rfl

theorem joined_eq_ok_iff :
    joined xs ys = .ok rs ↔ ∃ as bs, xs = .ok as ∧ ys = .ok bs ∧ rs = as ++ bs := by
  constructor
  · intro h
    cases xs with
    | error e => cases h
    | ok as =>
      cases ys with
      | error e => cases h
      | ok bs =>
        cases h
        exact ⟨as,bs,rfl,rfl,rfl⟩
  · rintro ⟨as,bs,rfl,rfl,rfl⟩
    rfl

theorem error_of_joined (h : joined xs ys = .error e) : xs = .error e ∨ ys = .error e := by
  cases xs with
  | error e' => exact .inl h
  | ok as =>
    cases ys with
    | error e' => exact .inr h
    | ok bs => cases h

end

namespace Member

/-- A namespace or a type without its members. -/
inductive Enclosure where
  | ofNamespace (name : String)
  | ofType (head : TypeHead)

def Enclosure.around : Enclosure → List Member → Member
  | .ofNamespace name, members => .namespaceDecl name members
  | .ofType head, members => .typeDecl head members

/-- A member that has no members of its own. -/
def isLeaf : Member → Bool
  | .namespaceDecl .. | .typeDecl .. | .region .. => false
  | _ => true

/-- The branch of a region that is kept. -/
def selected (d : Defines) (symbol : String) (thenMembers otherwise : List Member) : List Member :=
  if d.holds symbol then thenMembers else otherwise

/-- Induction over lists of members with all that is in them and may be kept. -/
theorem induction_forest {motive : List Member → Prop} (nil : motive [])
    (region : ∀ symbol thens others ms, (∀ d, motive (selected d symbol thens others)) → motive ms →
      motive (.region symbol thens others :: ms))
    (around : ∀ (c : Enclosure) inner ms, motive inner → motive ms → motive (c.around inner :: ms))
    (leaf : ∀ m ms, isLeaf m = true → motive ms → motive (m :: ms)) (ms : List Member) :
    motive ms := by
  have hleaf (m : Member) (hm : isLeaf m = true) (ms : List Member) :
      motive ms → motive (m :: ms) := leaf m ms hm
  refine @Member.rec_1 (fun m => ∀ ms, motive ms → motive (m :: ms)) motive
    (fun name inner hinner ms => around (.ofNamespace name) inner ms hinner)
    (fun head inner hinner ms => around (.ofType head) inner ms hinner)
    (fun _ => hleaf _ rfl) (fun _ => hleaf _ rfl) (fun _ => hleaf _ rfl) (fun _ => hleaf _ rfl)
    (fun _ => hleaf _ rfl) (fun _ => hleaf _ rfl) (fun _ => hleaf _ rfl)
    (fun symbol thens others hthens hothers ms => region symbol thens others ms fun d => ?_)
    (fun _ => hleaf _ rfl) nil (fun m ms hm hms => hm ms hms) ms
  unfold selected
  split
  · exact hthens
  · exact hothers

section Steps
variable {d : Defines} {symbol : String} {thens others inner ms : List Member}

theorem settleAll_cons (d : Defines) (m : Member) (ms : List Member) :
    settleAll d (m :: ms) = joined (settle d m) (settleAll d ms) := rfl

theorem settle_region (h : namesNothing symbol = false) :
    settle d (.region symbol thens others) = settleAll d (selected d symbol thens others) := by
  simp only [settle, h, Bool.false_eq_true, if_false]
  exact (apply_ite (settleAll d) _ _ _).symm

theorem settle_region_of_namesNothing (h : namesNothing symbol = true) :
    settle d (.region symbol thens others) = .error (.emptySymbol symbol) := by
  rw [settle, h]
  rfl

theorem settle_around (c : Enclosure) :
    settle d (c.around inner) = (settleAll d inner).map fun rs => [c.around rs] := by
  cases c <;> rfl

theorem settle_leaf {m : Member} (h : isLeaf m = true) : settle d m = .ok [m] := by
  cases m with
  | namespaceDecl | typeDecl | region => cases h
  | _ => rfl

theorem settleAll_append (d : Defines) (ms ms' : List Member) :
    settleAll d (ms ++ ms') = joined (settleAll d ms) (settleAll d ms') := by
  induction ms with
  | nil => exact ok_nil_joined.symm
  | cons m ms ih => rw [List.cons_append, settleAll_cons, settleAll_cons, ih, joined_assoc]

end Steps

section
variable {d : Defines} {symbol : String} {ms ms' rs : List Member} {m : Member}

/-- If all members can be settled, each can. -/
theorem settle_of_settleAll (h : settleAll d ms = .ok rs) (hm : m ∈ ms) :
    ∃ as, settle d m = .ok as := by
  obtain ⟨pre,post,rfl⟩ := List.append_of_mem hm
  rw [settleAll_append, settleAll_cons] at h
  obtain ⟨_,_,-,h,-⟩ := joined_eq_ok_iff.mp h
  obtain ⟨as,_,h,-⟩ := joined_eq_ok_iff.mp h
  exact ⟨as,h⟩

/-! ## Where settling fails -/

/-- Settling comes across a region with the symbol, through kept branches, namespaces and types. -/
inductive ComesAcross (d : Defines) (symbol : String) : List Member → Prop
  | here {ms thens others : List Member} (h : .region symbol thens others ∈ ms) :
      ComesAcross d symbol ms
  | inBranch {ms thens others : List Member} {outer : String}
      (h : .region outer thens others ∈ ms)
      (hin : ComesAcross d symbol (selected d outer thens others)) : ComesAcross d symbol ms
  | inside {ms inner : List Member} {c : Enclosure} (h : c.around inner ∈ ms)
      (hin : ComesAcross d symbol inner) : ComesAcross d symbol ms

theorem ComesAcross.mono (h : ComesAcross d symbol ms) (hsub : ms ⊆ ms') :
    ComesAcross d symbol ms' := by
  cases h with
  | here h => exact .here (hsub h)
  | inBranch h hin => exact .inBranch (hsub h) hin
  | inside h hin => exact .inside (hsub h) hin

theorem namesNothing_eq_false_of_mem {thens others : List Member} (hok : settleAll d ms = .ok rs)
    (h : .region symbol thens others ∈ ms) : namesNothing symbol = false := by
  obtain ⟨as,has⟩ := settle_of_settleAll hok h
  cases hs : namesNothing symbol with
  | false => rfl
  | true =>
    rw [settle_region_of_namesNothing hs] at has
    cases has

theorem settleAll_of_settle_around {inner as : List Member} {c : Enclosure}
    (h : settle d (c.around inner) = .ok as) :
    ∃ rs, settleAll d inner = .ok rs ∧ as = [c.around rs] := by
  rw [settle_around] at h
  cases hinner : settleAll d inner with
  | error e => simp [hinner, Except.map] at h
  | ok rs => exact ⟨rs,rfl,by simpa [hinner, Except.map, eq_comm] using h⟩

theorem ComesAcross.namesNothing_eq_false (h : ComesAcross d symbol ms)
    (hok : settleAll d ms = .ok rs) : namesNothing symbol = false := by
  induction h generalizing rs with
  | here h => exact namesNothing_eq_false_of_mem hok h
  | inBranch h _ ih =>
    obtain ⟨as,has⟩ := settle_of_settleAll hok h
    exact ih (settle_region (namesNothing_eq_false_of_mem hok h) ▸ has)
  | inside h _ ih =>
    obtain ⟨as,has⟩ := settle_of_settleAll hok h
    obtain ⟨rs,hrs,-⟩ := settleAll_of_settle_around has
    exact ih hrs

/-- An error that names a region without a symbol. -/
def Blames (d : Defines) (e : ReadError) (ms : List Member) : Prop :=
  ∃ symbol, e = .emptySymbol symbol ∧ ComesAcross d symbol ms ∧ namesNothing symbol = true

theorem Blames.imp {e : ReadError} (h : Blames d e ms)
    (hacross : ∀ {symbol}, ComesAcross d symbol ms → ComesAcross d symbol ms') :
    Blames d e ms' := by
  obtain ⟨symbol,he,h,hnothing⟩ := h
  exact ⟨symbol,he,hacross h,hnothing⟩

theorem blames_of_error {e : ReadError} (h : settleAll d ms = .error e) : Blames d e ms := by
  induction ms using induction_forest with
  | nil => cases h
  | region outer thens others ms hbranch hms =>
    rcases error_of_joined (settleAll_cons d _ ms ▸ h) with h | h
    · cases hs : namesNothing outer with
      | true =>
        rw [settle_region_of_namesNothing hs] at h
        exact ⟨outer,(Except.error.inj h).symm,.here List.mem_cons_self,hs⟩
      | false => exact (hbranch d (settle_region hs ▸ h)).imp (.inBranch List.mem_cons_self)
    · exact (hms h).imp (.mono · (List.subset_cons_self _ _))
  | around c inner ms hinner hms =>
    rcases error_of_joined (settleAll_cons d _ ms ▸ h) with h | h
    · rw [settle_around] at h
      cases hin : settleAll d inner with
      | ok rs => simp [hin, Except.map] at h
      | error e' =>
        obtain rfl : e' = e := by simpa [hin, Except.map] using h
        exact (hinner hin).imp (.inside List.mem_cons_self)
    · exact (hms h).imp (.mono · (List.subset_cons_self _ _))
  | leaf m ms hm hms =>
    rcases error_of_joined (settleAll_cons d _ ms ▸ h) with h | h
    · rw [settle_leaf hm] at h
      cases h
    · exact (hms h).imp (.mono · (List.subset_cons_self _ _))

theorem settleAll_fails_iff : (∃ e, settleAll d ms = .error e) ↔
    ∃ symbol, ComesAcross d symbol ms ∧ namesNothing symbol = true := by
  constructor
  · rintro ⟨e,h⟩
    obtain ⟨symbol,-,hacross,hnothing⟩ := blames_of_error h
    exact ⟨symbol,hacross,hnothing⟩
  · rintro ⟨symbol,hacross,hnothing⟩
    cases h : settleAll d ms with
    | error e => exact ⟨e,rfl⟩
    | ok rs => simp [hacross.namesNothing_eq_false h] at hnothing

/-! ## What settling gives -/

/-- In place of a region there are the settled members of its selected branch. All else is kept in
order and as it is, up to what is settled inside of it. -/
inductive SettlesTo (d : Defines) : List Member → List Member → Prop
  | nil : SettlesTo d [] []
  | region {symbol : String} {thens others ms as bs : List Member}
      (hs : namesNothing symbol = false)
      (hbranch : SettlesTo d (selected d symbol thens others) as) (h : SettlesTo d ms bs) :
      SettlesTo d (.region symbol thens others :: ms) (as ++ bs)
  | around {c : Enclosure} {inner ms as bs : List Member} (hinner : SettlesTo d inner as)
      (h : SettlesTo d ms bs) : SettlesTo d (c.around inner :: ms) (c.around as :: bs)
  | leaf {m : Member} {ms bs : List Member} (hm : isLeaf m = true) (h : SettlesTo d ms bs) :
      SettlesTo d (m :: ms) (m :: bs)

theorem settleAll_eq_ok_iff_settlesTo : settleAll d ms = .ok rs ↔ SettlesTo d ms rs := by
  constructor
  · intro h
    induction ms using induction_forest generalizing rs with
    | nil =>
      cases h
      exact .nil
    | region symbol thens others ms hbranch hms =>
      have hs := namesNothing_eq_false_of_mem h List.mem_cons_self
      obtain ⟨as,bs,has,hbs,rfl⟩ := joined_eq_ok_iff.mp (settleAll_cons d _ ms ▸ h)
      exact .region hs (hbranch d (settle_region hs ▸ has)) (hms hbs)
    | around c inner ms hinner hms =>
      obtain ⟨as,bs,has,hbs,rfl⟩ := joined_eq_ok_iff.mp (settleAll_cons d _ ms ▸ h)
      obtain ⟨rs,hrs,rfl⟩ := settleAll_of_settle_around has
      exact .around (hinner hrs) (hms hbs)
    | leaf m ms hm hms =>
      obtain ⟨as,bs,has,hbs,rfl⟩ := joined_eq_ok_iff.mp (settleAll_cons d _ ms ▸ h)
      obtain rfl : [m] = as := Except.ok.inj ((settle_leaf hm).symm.trans has)
      exact .leaf hm (hms hbs)
  · intro h
    induction h with
    | nil => rfl
    | region hs _ _ hbranch hms =>
      rw [settleAll_cons, settle_region hs, hbranch, hms]
      rfl
    | around _ _ hinner hms =>
      rw [settleAll_cons, settle_around, hinner, hms]
      rfl
    | leaf hm _ hms =>
      rw [settleAll_cons, settle_leaf hm, hms]
      rfl

/-- A region at some depth of namespaces and types. -/
inductive ContainsRegion : List Member → Prop
  | here {ms thens others : List Member} {symbol : String}
      (h : .region symbol thens others ∈ ms) : ContainsRegion ms
  | inside {ms inner : List Member} {c : Enclosure} (h : c.around inner ∈ ms)
      (hin : ContainsRegion inner) : ContainsRegion ms

theorem ContainsRegion.mono (h : ContainsRegion ms) (hsub : ms ⊆ ms') : ContainsRegion ms' := by
  cases h with
  | here h => exact .here (hsub h)
  | inside h hin => exact .inside (hsub h) hin

theorem containsRegion_append :
    ContainsRegion (ms ++ ms') ↔ ContainsRegion ms ∨ ContainsRegion ms' := by
  constructor
  · intro h
    cases h with
    | here h => exact (List.mem_append.mp h).imp .here .here
    | inside h hin => exact (List.mem_append.mp h).imp (.inside · hin) (.inside · hin)
  · rintro (h | h)
    · exact h.mono (List.subset_append_left _ _)
    · exact h.mono (List.subset_append_right _ _)

theorem around_inj {c c' : Enclosure} (h : c.around ms = c'.around ms') : ms = ms' := by
  cases c <;> cases c' <;> cases h <;> rfl

theorem not_containsRegion_around {c : Enclosure} (h : ¬ ContainsRegion ms) :
    ¬ ContainsRegion [c.around ms] := by
  intro hc
  cases hc with
  | here hmem => cases c <;> cases List.mem_singleton.mp hmem
  | inside hmem hin => exact h (around_inj (List.mem_singleton.mp hmem) ▸ hin)

theorem not_containsRegion_leaf (h : isLeaf m = true) : ¬ ContainsRegion [m] := by
  intro hc
  cases hc with
  | here hmem =>
    obtain rfl := List.mem_singleton.mp hmem
    cases h
  | @inside _ _ c hmem =>
    obtain rfl := List.mem_singleton.mp hmem
    cases c <;> cases h

theorem SettlesTo.not_containsRegion (h : SettlesTo d ms rs) : ¬ ContainsRegion rs := by
  induction h with
  | nil =>
    intro h
    cases h with
    | here h => cases h
    | inside h => cases h
  | region _ _ _ hbranch hms =>
    rw [containsRegion_append]
    exact not_or.mpr ⟨hbranch,hms⟩
  | around _ _ hinner hms =>
    rw [← List.singleton_append, containsRegion_append]
    exact not_or.mpr ⟨not_containsRegion_around hinner,hms⟩
  | leaf hm _ hms =>
    rw [← List.singleton_append, containsRegion_append]
    exact not_or.mpr ⟨not_containsRegion_leaf hm,hms⟩

/-- Whatever is defined, members without regions stay as they are. -/
theorem settlesTo_self (d : Defines) (h : ¬ ContainsRegion ms) : SettlesTo d ms ms := by
  induction ms using induction_forest with
  | nil => exact .nil
  | region => exact absurd (.here List.mem_cons_self) h
  | around c inner ms hinner hms =>
    refine .around (hinner fun hin => h ?_) (hms fun hrest => h ?_)
    · exact .inside List.mem_cons_self hin
    · exact hrest.mono (List.subset_cons_self _ _)
  | leaf m ms hm hms =>
    exact .leaf hm (hms fun hrest => h (hrest.mono (List.subset_cons_self _ _)))

/-! ## Regions one by one -/

/-- One region is replaced by the members of its selected branch; all else stays where it is. -/
inductive Unfolds (d : Defines) : List Member → List Member → Prop
  | here {symbol : String} {thens others pre post : List Member}
      (hs : namesNothing symbol = false) :
      Unfolds d (pre ++ .region symbol thens others :: post)
        (pre ++ selected d symbol thens others ++ post)
  | inside {c : Enclosure} {inner inner' pre post : List Member} (h : Unfolds d inner inner') :
      Unfolds d (pre ++ c.around inner :: post) (pre ++ c.around inner' :: post)

theorem Unfolds.settleAll_eq (h : Unfolds d ms ms') : settleAll d ms = settleAll d ms' := by
  induction h with
  | here hs =>
    rw [settleAll_append, settleAll_cons, settle_region hs, settleAll_append, settleAll_append,
      joined_assoc]
  | inside _ ih =>
    rw [settleAll_append, settleAll_cons, settle_around, ih, settleAll_append, settleAll_cons,
      settle_around]

theorem Unfolds.append_left (h : Unfolds d ms ms') (front : List Member) :
    Unfolds d (front ++ ms) (front ++ ms') := by
  cases h with
  | here hs =>
    simp only [← List.append_assoc]
    exact .here hs
  | inside h =>
    simp only [← List.append_assoc]
    exact .inside h

theorem Unfolds.append_right (h : Unfolds d ms ms') (back : List Member) :
    Unfolds d (ms ++ back) (ms' ++ back) := by
  cases h with
  | here hs =>
    simp only [List.append_assoc, List.cons_append]
    rw [← List.append_assoc]
    exact .here hs
  | inside h =>
    simp only [List.append_assoc, List.cons_append]
    exact .inside h

open Relation (ReflTransGen)

theorem unfolds_append {as bs : List Member} (h : ReflTransGen (Unfolds d) ms as)
    (h' : ReflTransGen (Unfolds d) ms' bs) : ReflTransGen (Unfolds d) (ms ++ ms') (as ++ bs) :=
  (h.lift (· ++ ms') fun _ _ h => h.append_right ms').trans
    (h'.lift (as ++ ·) fun _ _ h => h.append_left as)

theorem unfolds_around (c : Enclosure) (h : ReflTransGen (Unfolds d) ms rs) :
    ReflTransGen (Unfolds d) [c.around ms] [c.around rs] :=
  h.lift (fun ms => [c.around ms]) fun inner inner' h => @Unfolds.inside d c inner inner' [] [] h

theorem SettlesTo.unfolds (h : SettlesTo d ms rs) : ReflTransGen (Unfolds d) ms rs := by
  induction h with
  | nil => exact .refl
  | @region symbol thens others ms _ _ hs _ _ hbranch hms =>
    have hstep := @Unfolds.here d symbol thens others [] ms hs
    rw [List.nil_append, List.nil_append] at hstep
    exact .head hstep (unfolds_append hbranch hms)
  | around _ _ hinner hms => exact unfolds_append (unfolds_around _ hinner) hms
  | @leaf m _ _ _ _ hms => exact unfolds_append (.refl (a := [m])) hms

theorem settleAll_eq_ok_iff_unfolds : settleAll d ms = .ok rs ↔
    ReflTransGen (Unfolds d) ms rs ∧ ¬ ContainsRegion rs := by
  constructor
  · intro h
    have hsettles := settleAll_eq_ok_iff_settlesTo.mp h
    exact ⟨hsettles.unfolds,hsettles.not_containsRegion⟩
  · rintro ⟨hunfolds,hfree⟩
    induction hunfolds using ReflTransGen.head_induction_on with
    | refl => exact settleAll_eq_ok_iff_settlesTo.mpr (settlesTo_self d hfree)
    | head h _ ih => exact h.settleAll_eq.trans ih

/-! ## Branches that are not selected -/

/-- Members that differ in branches that are not selected, and in nothing else. -/
inductive SelectsAlike (d : Defines) : List Member → List Member → Prop
  | nil : SelectsAlike d [] []
  | region {symbol : String} {thens others thens' others' ms ms' : List Member}
      (hbranch : SelectsAlike d (selected d symbol thens others) (selected d symbol thens' others'))
      (h : SelectsAlike d ms ms') :
      SelectsAlike d (.region symbol thens others :: ms) (.region symbol thens' others' :: ms')
  | around {c : Enclosure} {inner inner' ms ms' : List Member}
      (hinner : SelectsAlike d inner inner') (h : SelectsAlike d ms ms') :
      SelectsAlike d (c.around inner :: ms) (c.around inner' :: ms')
  | leaf {m : Member} {ms ms' : List Member} (hm : isLeaf m = true) (h : SelectsAlike d ms ms') :
      SelectsAlike d (m :: ms) (m :: ms')

theorem SelectsAlike.settleAll_eq (h : SelectsAlike d ms ms') :
    settleAll d ms = settleAll d ms' := by
  induction h with
  | nil => rfl
  | @region symbol _ _ _ _ _ _ _ _ hbranch hms =>
    rw [settleAll_cons, settleAll_cons, hms]
    cases hs : namesNothing symbol with
    | true => rw [settle_region_of_namesNothing hs, settle_region_of_namesNothing hs]
    | false => rw [settle_region hs, settle_region hs, hbranch]
  | around _ _ hinner hms =>
    rw [settleAll_cons, settleAll_cons, settle_around, settle_around, hinner, hms]
  | leaf _ _ hms => rw [settleAll_cons, settleAll_cons, hms]

/-- What it is to settle the regions of some members. It fails exactly if it comes across a region
without a symbol. Else it gives the members with each region replaced in place by its selected
branch until there is none left, and settling them again changes nothing, whatever is defined. The
first branch is selected exactly if the condition is met. -/
structure SettlesRegions (d : Defines) (ms : List Member) : Prop where
  symbolless : ∀ symbol, namesNothing symbol = true ↔ Symbolless symbol
  selects : ∀ symbol, d.holds symbol = true ↔ d.Meets symbol
  fails_iff : (∃ e, settleAll d ms = .error e) ↔
    ∃ symbol, ComesAcross d symbol ms ∧ namesNothing symbol = true
  inPlace : ∀ rs, settleAll d ms = .ok rs ↔ SettlesTo d ms rs
  regionFree : ∀ rs, settleAll d ms = .ok rs ↔
    ReflTransGen (Unfolds d) ms rs ∧ ¬ ContainsRegion rs
  unselected : ∀ ms', SelectsAlike d ms ms' → settleAll d ms' = settleAll d ms
  again : ∀ rs, settleAll d ms = .ok rs → ∀ d', settleAll d' rs = .ok rs

theorem settleAll_settles_regions (d : Defines) (ms : List Member) : SettlesRegions d ms where
  symbolless _ := namesNothing_iff
  selects _ := Defines.holds_iff
  fails_iff := settleAll_fails_iff
  inPlace _ := settleAll_eq_ok_iff_settlesTo
  regionFree _ := settleAll_eq_ok_iff_unfolds
  unselected _ h := h.settleAll_eq.symm
  again _ h d' := by
    have hfree := (settleAll_eq_ok_iff_unfolds.mp h).2
    exact settleAll_eq_ok_iff_settlesTo.mpr (settlesTo_self d' hfree)

/-- A region without a symbol does no harm where it is not selected. -/
example : settleAll {} [.namespaceDecl "N" [
    .region "!DEBUG" [.other "a", .region "DEBUG" [] [.other "b"]] [.region " !" [] []],
    .other "c"]] = .ok [.namespaceDecl "N" [.other "a", .other "b", .other "c"]] := by
  rfl

end

end Member

end Recast
