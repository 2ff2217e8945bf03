import Mathlib.Data.List.TakeWhile
import Recast.Source.Region

/-! # The conditions of regions

White space around a symbol does not count. A condition holds if it is a symbol that is defined or
has a mark in front of one that is not, and it names nothing if there are only marks in it.
-/
namespace Recast

namespace Text
variable {p : Char → Bool} {front cs : List Char} {s t : String}

/-- A text is what another one has between the white space at its two ends. -/
structure Trims (s t : String) : Prop where
  between : ∃ front back, s.toList = front ++ t.toList ++ back ∧
    ∀ c ∈ front ++ back, isBlank c = true
  first : ∀ c ∈ t.toList.head?, isBlank c = false
  last : ∀ c ∈ t.toList.getLast?, isBlank c = false

theorem dropWhile_append_of_head? (hfront : ∀ c ∈ front, p c = true)
    (hcs : ∀ c ∈ cs.head?, p c = false) : (front ++ cs).dropWhile p = cs := by
  rw [List.dropWhile_append_of_pos hfront]
  cases cs with
  | nil => rfl
  | cons c cs => exact List.dropWhile_cons_of_neg (by simp [hcs c rfl])

theorem eq_false_of_head?_dropWhile {c : Char} (h : c ∈ (cs.dropWhile p).head?) : p c = false := by
  have hnot := List.head?_dropWhile_not p cs
  rw [Option.mem_def.mp h] at hnot
  exact hnot

theorem dropEndWhile_append (p : Char → Bool) (cs : List Char) :
    cs = dropEndWhile p cs ++ (cs.reverse.takeWhile p).reverse := by
  rw [dropEndWhile, ← List.reverse_append, List.takeWhile_append_dropWhile, List.reverse_reverse]

theorem trims_trim (s : String) : Trims s (trim s) := by
  let kept := s.toList.dropWhile isBlank
  have hkept : kept = dropEndWhile isBlank kept ++ (kept.reverse.takeWhile isBlank).reverse :=
    dropEndWhile_append isBlank kept
  refine ⟨⟨s.toList.takeWhile isBlank,(kept.reverse.takeWhile isBlank).reverse,?_,?_⟩,?_,?_⟩
  · rw [trim, String.toList_ofList, List.append_assoc, ← hkept, List.takeWhile_append_dropWhile]
  · intro c hc
    rcases List.mem_append.mp hc with hc | hc
    · exact List.mem_takeWhile_imp hc
    · exact List.mem_takeWhile_imp (List.mem_reverse.mp hc)
  · intro c hc
    rw [trim, String.toList_ofList] at hc
    have hfirst : c ∈ kept.head? := by
      rw [hkept, List.head?_append, Option.mem_def.mp hc]
      rfl
    exact eq_false_of_head?_dropWhile hfirst
  · intro c hc
    rw [trim, String.toList_ofList, dropEndWhile, List.getLast?_reverse] at hc
    exact eq_false_of_head?_dropWhile hc

theorem Trims.trim_eq (h : Trims s t) : trim s = t := by
  obtain ⟨⟨front,back,hs,hblank⟩,hfirst,hlast⟩ := h
  have hfront : ∀ c ∈ front, isBlank c = true := fun c hc => hblank c (List.mem_append_left _ hc)
  have hback : ∀ c ∈ back, isBlank c = true := fun c hc => hblank c (List.mem_append_right _ hc)
  have hend : dropEndWhile isBlank (t.toList ++ back) = t.toList := by
    rw [dropEndWhile, List.reverse_append, dropWhile_append_of_head?, List.reverse_reverse]
    · exact fun c hc => hback c (List.mem_reverse.mp hc)
    · rwa [List.head?_reverse]
  rw [trim, hs, List.append_assoc]
  cases ht : t.toList with
  | nil =>
    rw [List.nil_append, List.dropWhile_append_of_pos hfront, List.dropWhile_eq_nil_iff.mpr hback]
    exact String.toList_inj.mp (by simp [ht, dropEndWhile])
  | cons c cs =>
    rw [← ht, dropWhile_append_of_head? hfront, hend, String.ofList_toList]
    intro a ha
    refine hfirst a ?_
    simpa [ht] using ha

theorem trim_eq_iff : trim s = t ↔ Trims s t :=
  ⟨fun h => h ▸ trims_trim s,Trims.trim_eq⟩

end Text

namespace Defines
variable {d : Defines} {symbol condition : String}

/-- A condition is a symbol that is defined, or a mark in front of one that is not. -/
inductive Meets (d : Defines) (condition : String) : Prop
  | defined {symbol : String} (h : Text.Trims condition symbol)
      (hplain : symbol.toList.head? ≠ some '!') (hd : symbol ∈ d.toList)
  | undefined {negated symbol : String} (h : Text.Trims condition ("!" ++ negated))
      (hnegated : Text.Trims negated symbol) (hd : symbol ∉ d.toList)

theorem isDefined_iff : d.isDefined symbol = true ↔ Text.trim symbol ∈ d.toList := by
  simp [isDefined, SortedSet.contains, SortedMap.get?, toList, SortedSet.toList]

theorem holds_iff : d.holds condition = true ↔ d.Meets condition := by
  constructor
  · intro h
    unfold holds at h
    split at h
    · next negated hcondition =>
      have htrim : Text.trim condition = "!" ++ String.ofList negated :=
        String.toList_inj.mp (by simp [hcondition])
      refine .undefined (Text.trim_eq_iff.mp htrim) (Text.trims_trim _) ?_
      simpa [← isDefined_iff] using h
    · next hplain =>
      refine .defined (Text.trims_trim condition) ?_ (isDefined_iff.mp h)
      intro hhead
      obtain ⟨negated,hcondition⟩ := List.head?_eq_some_iff.mp hhead
      exact hplain negated hcondition
  · rintro (⟨h,hplain,hd⟩ | @⟨negated,_,h,hnegated,hd⟩)
    · have htrim := h.trim_eq
      unfold holds
      split
      · next negated hcondition => simp [← htrim, hcondition] at hplain
      · exact isDefined_iff.mpr (htrim ▸ hd)
    · have hcondition : (Text.trim condition).toList = '!' :: negated.toList := by
        rw [h.trim_eq, String.toList_append]
        rfl
      simpa [holds, hcondition, ← Bool.not_eq_true, isDefined_iff, hnegated.trim_eq] using hd

end Defines

namespace Member
variable {symbol : String}

/-- A symbol is made of marks, with white space around them. -/
def Symbolless (symbol : String) : Prop :=
  ∃ front marks back, symbol.toList = front ++ List.replicate marks '!' ++ back ∧
    ∀ c ∈ front ++ back, Text.isBlank c = true

theorem namesNothing_iff : namesNothing symbol = true ↔ Symbolless symbol := by
  rw [namesNothing, List.isEmpty_iff, List.dropWhile_eq_nil_iff]
  constructor
  · intro h
    obtain ⟨front,back,hsymbol,hblank⟩ := (Text.trims_trim symbol).between
    refine ⟨front,(Text.trim symbol).toList.length,back,?_,hblank⟩
    rw [hsymbol, List.eq_replicate_of_mem fun c hc => beq_iff_eq.mp (h c hc),
      List.length_replicate]
  · rintro ⟨front,marks,back,hsymbol,hblank⟩
    have hmark (c : Char) (hc : c ∈ List.replicate marks '!') : c = '!' :=
      List.eq_of_mem_replicate hc
    have htrims : Text.Trims symbol (String.ofList (List.replicate marks '!')) := by
      refine ⟨⟨front,back,by simpa using hsymbol,hblank⟩,?_,?_⟩
      · intro c hc
        rw [String.toList_ofList] at hc
        rw [hmark c (List.mem_of_head? hc)]
        rfl
      · intro c hc
        rw [String.toList_ofList] at hc
        rw [hmark c (List.mem_of_getLast? hc)]
        rfl
    rw [htrims.trim_eq, String.toList_ofList]
    exact fun c hc => beq_iff_eq.mpr (hmark c hc)

end Member

end Recast
