import Recast.Proofs.Type.Assembly
import Recast.Proofs.Type.Classification

/-! # Where a type may be null

A type that may be null has a mark behind its text. The mark stands right behind the type unless
the type is a callback: behind a callback it reads as the mark of the result. So from two places in
a type the same text comes out exactly if one of them is the result of the other, or the result of
its result, and so on.
-/
namespace Recast

theorem modify_append {α : Type} (f : α → α) (xs ys : List α) (k : Nat) :
    (xs ++ ys).modify k f =
      xs.modify k f ++ if xs.length ≤ k then ys.modify (k - xs.length) f else ys := by
  induction xs generalizing k with
  | nil => simp
  | cons x xs ih =>
    cases k with
    | zero => simp
    | succ k => simp [ih]

theorem exists_split_of_getElem? {α : Type} {xs : List α} {k : Nat} {x : α}
    (h : xs[k]? = some x) : ∃ before after, xs = before ++ x :: after ∧ before.length = k := by
  obtain ⟨hk, rfl⟩ := List.getElem?_eq_some_iff.mp h
  refine ⟨xs.take k, xs.drop (k + 1), ?_, ?_⟩
  · simp
  · rw [List.length_take]
    omega

namespace TypeDesc

/-- Change an argument. The parameters of a callback are counted first, its result comes last. -/
def updateArg (d : TypeDesc) (k : Nat) (f : TypeDesc → TypeDesc) : TypeDesc :=
  if d.kind = .callback then
    { d with
      args := d.args.modify k f
      genericArgs := if d.args.length ≤ k then d.genericArgs.modify (k - d.args.length) f
        else d.genericArgs }
  else { d with genericArgs := d.genericArgs.modify k f }

/-- Make the node at the end of a way through the arguments nullable. -/
def nullableAt : List Nat → TypeDesc → TypeDesc
  | [], d => { d with nullable := true }
  | k :: way, d => d.updateArg k (nullableAt way)

/-- The way leads from a callback to its result, as often as it goes on. -/
def IsResult : List Nat → TypeDesc → Prop
  | [], _ => True
  | k :: way, d =>
    d.kind = .callback ∧ k = d.args.length ∧ ∃ e ∈ d.genericArgs.head?, IsResult way e

variable (d : TypeDesc) (k : Nat) (f : TypeDesc → TypeDesc)

@[simp] theorem kind_updateArg : (d.updateArg k f).kind = d.kind := by
  unfold updateArg
  split <;> rfl

@[simp] theorem name_updateArg : (d.updateArg k f).name = d.name := by
  unfold updateArg
  split <;> rfl

@[simp] theorem nullable_updateArg : (d.updateArg k f).nullable = d.nullable := by
  unfold updateArg
  split <;> rfl

@[simp] theorem length_args_updateArg : (d.updateArg k f).args.length = d.args.length := by
  unfold updateArg
  split <;> simp

@[simp] theorem length_genericArgs_updateArg :
    (d.updateArg k f).genericArgs.length = d.genericArgs.length := by
  unfold updateArg
  split
  · dsimp only
    split <;> simp
  · simp

end TypeDesc

namespace TypeTables
variable (t : TypeTables)

/-- The node at the end of a way through the arguments that are spelled. -/
def visited? (t : TypeTables) : List Nat → TypeDesc → Option TypeDesc
  | [], d => some d
  | k :: way, d => (t.spelledArgs d)[k]?.bind (visited? t way)

/-- The text shows which of the two nodes may be null. -/
def TellsApart (d : TypeDesc) (p q : List Nat) : Prop :=
  (t.spell (d.nullableAt p)).text ≠ (t.spell (d.nullableAt q)).text

instance (d : TypeDesc) (p q : List Nat) : Decidable (t.TellsApart d p q) :=
  inferInstanceAs (Decidable (_ ≠ _))

variable {t} {d : TypeDesc} {k : Nat} {f : TypeDesc → TypeDesc}

theorem looksUp_updateArg : t.looksUp (d.updateArg k f) = t.looksUp d := by
  have hempty : (d.updateArg k f).genericArgs.isEmpty = d.genericArgs.isEmpty := by
    rw [Bool.eq_iff_iff, List.isEmpty_iff_length_eq_zero, List.isEmpty_iff_length_eq_zero,
      TypeDesc.length_genericArgs_updateArg]
  simp [looksUp, isPrimitive, TypeDesc.goesByName, hempty]

theorem spelledArgs_updateArg :
    t.spelledArgs (d.updateArg k f) = (t.spelledArgs d).modify k f := by
  have hlooks := t.looksUp_updateArg (d := d) (k := k) (f := f)
  obtain ⟨kind, name, args, generics, nullable⟩ := d
  cases kind with
  | array | list | dictionary => exact List.take_modify ..
  | tuple => rfl
  | callback =>
    change args.modify k f ++ (if args.length ≤ k then generics.modify (k - args.length) f
      else generics).take 1 = (args ++ generics.take 1).modify k f
    rw [modify_append]
    split
    · rw [List.take_modify]
    · rfl
  | _ =>
    change (if t.looksUp _ then generics.modify k f else []) =
      (if t.looksUp _ then generics else []).modify k f
    rw [hlooks]
    split
    · rfl
    · exact (List.modify_nil ..).symm

end TypeTables

namespace TypeScript

/-! ## Marks within a text -/

/-- The mark of a type that may be null. -/
def mark : List Char := " | null".toList

/-- A mark was put somewhere into the old text, perhaps with parentheses around it. -/
structure Marked (old new : List Char) : Prop where
  blank : new.contains ' ' = true
  longer : old.length + 7 ≤ new.length
  commas : new.count ',' = old.count ','
  arrows : new.count '=' = old.count '='

namespace Marked
variable {old new : List Char}

theorem between (h : Marked old new) (left right : List Char) :
    Marked (left ++ old ++ right) (left ++ new ++ right) where
  blank := by
    have hblank := h.blank
    simp only [List.contains_iff_mem, List.mem_append] at hblank ⊢
    exact .inl (.inr hblank)
  longer := by
    have hlonger := h.longer
    simp only [List.length_append]
    omega
  commas := by simp only [List.count_append, h.commas]
  arrows := by simp only [List.count_append, h.arrows]

theorem alone : Marked [] mark := ⟨by decide, by decide, by decide, by decide⟩

theorem behind (text : List Char) : Marked text (text ++ mark) := by
  simpa only [List.append_nil] using alone.between text []

theorem array (h : Marked old new) : Marked (arrayChars old) (arrayChars new) := by
  have hinside := h.between "(".toList ")[]".toList
  have hlonger := h.longer
  have hnew : arrayChars new = "(".toList ++ new ++ ")[]".toList := if_pos h.blank
  rw [hnew]
  unfold arrayChars
  split
  · exact hinside
  · refine ⟨hinside.blank, ?_, ?_, ?_⟩
    · simp only [List.length_append]
      simp
      omega
    · simp [h.commas]
    · simp [h.arrows]

/-- A mark in one of the texts of a node is one in the text of the node. -/
theorem chars (h : Marked old new) (a : Assembly) {before after : List (List Char)}
    (harity : a.arity = before.length + after.length + 1) :
    Marked (a.chars (before ++ old :: after)) (a.chars (before ++ new :: after)) := by
  cases a with
  | array =>
    change 1 = _ at harity
    obtain rfl : before = [] := List.eq_nil_of_length_eq_zero (by omega)
    obtain rfl : after = [] := List.eq_nil_of_length_eq_zero (by omega)
    simpa [Assembly.chars] using h.array
  | series leads close =>
    have hlt : before.length < leads.length := by
      change leads.length = _ at harity
      omega
    simp only [Assembly.chars, weave_at hlt]
    exact h.between ..

end Marked

/-! ## Texts that follow one another -/

/-- A lead that tells two arguments apart: it starts with a comma or an arrow. -/
def Separates (lead : List Char) : Prop := ',' ∈ lead.take 5 ∨ '=' ∈ lead.take 5

/-- A text with a mark in it is longer, so what follows the old text would have to stand in the new
one. -/
theorem Marked.append_ne {old new gap : List Char} (h : Marked old new) (hgap : Separates gap)
    (rest rest' : List Char) : new ++ (gap ++ rest) ≠ old ++ (gap ++ rest') := by
  intro heq
  have hlonger := h.longer
  have hbegins : old <+: new := by
    have hold : old <+: new ++ (gap ++ rest) := by
      rw [heq]
      exact List.prefix_append ..
    exact List.prefix_of_prefix_length_le hold (List.prefix_append ..) (by omega)
  -- Behind the old text the new one would have to go on with the gap, and so have a comma or an
  -- arrow more.
  obtain ⟨added, rfl⟩ := hbegins
  rw [List.length_append] at hlonger
  rw [List.append_assoc, List.append_right_inj] at heq
  have hmem {c : Char} (hc : c ∈ gap.take 5) : c ∈ added := by
    have htake : (added ++ (gap ++ rest)).take 5 = added.take 5 :=
      List.take_append_of_le_length (by omega)
    have hgap' : gap.take 5 <+: (gap ++ rest').take 5 := by
      rw [List.take_append]
      exact List.prefix_append ..
    rw [← heq, htake] at hgap'
    exact List.mem_of_mem_take (hgap'.subset hc)
  rcases hgap with hc | hc
  · have hcount := h.commas
    have hpos := List.count_pos_iff.mpr (hmem hc)
    rw [List.count_append] at hcount
    omega
  · have hcount := h.arrows
    have hpos := List.count_pos_iff.mpr (hmem hc)
    rw [List.count_append] at hcount
    omega

namespace Assembly

/-- All leads but the first tell arguments apart. -/
def Separated : Assembly → Prop
  | .array => True
  | .series leads _ => ∀ lead ∈ leads.tail, Separates lead

theorem separates_comma (label : List Char) : Separates (", ".toList ++ label) := by
  left
  simp

theorem separates_tail_leads (opening : List Char) (labels : List (List Char)) :
    ∀ lead ∈ (leads opening labels).tail, Separates lead := by
  cases labels with
  | nil => exact List.forall_mem_nil _
  | cons label labels => exact List.forall_mem_map.mpr fun label _ => separates_comma label

theorem separated_bracketed (opening : String) (count : Nat) (closing : String) :
    (bracketed opening count closing).Separated := separates_tail_leads _ _

theorem separated_sequence (count : Nat) : (sequence count).Separated := by
  unfold sequence
  split
  · exact List.forall_mem_nil _
  · exact trivial

theorem separated_dictionary (count : Nat) : (dictionary count).Separated := by
  rcases count with _ | _ | count
  · exact List.forall_mem_nil _
  · exact List.forall_mem_nil _
  · exact separated_bracketed _ _ _

theorem separated_callback (params : Nat) (returns : Bool) :
    (callback params returns).Separated := by
  unfold callback
  split
  · cases hlabels : labels params with
    | nil => exact List.forall_mem_nil _
    | cons label labels =>
      have hfirst := separates_tail_leads "(".toList (label :: labels)
      have harrow : Separates ") => ".toList := by
        right
        decide
      exact List.forall_mem_append.mpr ⟨hfirst, List.forall_mem_singleton.mpr harrow⟩
  · exact separates_tail_leads _ _

/-- A text behind which a mark would not look like one of its own. -/
def Closed (a : Assembly) : Prop := ∀ texts, (a.chars texts).getLast? ≠ some 'l'

theorem closed_series {close : List Char} (hne : close ≠ []) (hlast : close.getLast? ≠ some 'l')
    (leads : List (List Char)) : (series leads close).Closed := by
  intro texts
  obtain ⟨c, hc⟩ := Option.isSome_iff_exists.mp (List.getLast?_isSome.mpr hne)
  rw [hc] at hlast
  simpa [chars, weave, hc] using hlast

theorem closed_array : array.Closed := by
  intro texts
  simp only [chars, arrayChars]
  split
  · rw [List.getLast?_append]
    simp
  · rw [List.getLast?_append]
    simp

/-- What stands between brackets is closed if the bracket behind it is. -/
theorem closed_brackets {closing : List Char} (hne : closing ≠ [])
    (hlast : closing.getLast? ≠ some 'l') (opening : List Char) (labels : List (List Char)) :
    (series (leads opening labels) (close opening closing labels)).Closed := by
  obtain ⟨c, hc⟩ := Option.isSome_iff_exists.mp (List.getLast?_isSome.mpr hne)
  apply closed_series
  · unfold close
    split <;> simp [hne]
  · unfold close
    split
    · rwa [List.getLast?_append, hc, Option.some_or, ← hc]
    · exact hlast

theorem closed_bracketed (closing : String) (hne : closing.toList ≠ [])
    (hlast : closing.toList.getLast? ≠ some 'l') (opening : String) (count : Nat) :
    (bracketed opening count closing).Closed := closed_brackets hne hlast _ _

theorem closed_sequence (count : Nat) : (sequence count).Closed := by
  unfold sequence
  split
  · exact closed_series (by decide) (by decide) _
  · exact closed_array

theorem closed_dictionary (count : Nat) : (dictionary count).Closed := by
  rcases count with _ | _ | count
  · exact closed_series (by decide) (by decide) _
  · exact closed_series (by decide) (by decide) _
  · exact closed_bracketed ">" (by decide) (by decide) _ _

theorem closed_callback (params : Nat) : (callback params false).Closed :=
  closed_brackets (by decide) (by decide) _ _

end Assembly

section
variable {t : TypeTables}

theorem separated_assembly (d : TypeDesc) : (assembly t d).Separated := by
  have hplain (text : List Char) : (Assembly.series [] text).Separated := List.forall_mem_nil _
  cases h : d.goesByName with
  | true =>
    rw [assembly_of_goesByName h]
    split
    · exact hplain _
    · split
      · exact hplain _
      · exact Assembly.separated_bracketed _ _ _
  | false =>
    unfold assembly
    rcases TypeTables.kind_of_goesByName h with hkind | hkind | hkind | hkind | hkind <;> rw [hkind]
    · exact Assembly.separated_sequence _
    · exact Assembly.separated_sequence _
    · exact Assembly.separated_dictionary _
    · exact Assembly.separated_bracketed _ _ _
    · exact Assembly.separated_callback _ _

/-- Only the text of a callback ends with that of its last argument. -/
theorem closed_assembly {d : TypeDesc} (h : t.spelledArgs d ≠ []) :
    (d.kind = .callback ∧ d.genericArgs ≠ []) ∨ (assembly t d).Closed := by
  cases hname : d.goesByName with
  | true =>
    right
    rw [TypeTables.spelledArgs_of_goesByName hname] at h
    rw [assembly_of_goesByName hname]
    split
    · next hnone => simp [List.eq_nil_of_length_eq_zero hnone] at h
    · split
      · next hempty => simp [TypeTables.looksUp, hempty] at h
      · exact Assembly.closed_bracketed ">" (by decide) (by decide) _ _
  | false =>
    unfold assembly
    rcases TypeTables.kind_of_goesByName hname with hkind | hkind | hkind | hkind | hkind <;>
      rw [hkind]
    · exact .inr (Assembly.closed_sequence _)
    · exact .inr (Assembly.closed_sequence _)
    · exact .inr (Assembly.closed_dictionary _)
    · exact .inr (Assembly.closed_bracketed "]" (by decide) (by decide) _ _)
    · by_cases hnone : d.genericArgs = []
      · right
        simp only [hnone, List.length_nil, bne_self_eq_false]
        exact Assembly.closed_callback _
      · exact .inl ⟨rfl, hnone⟩

/-! ## One argument changed -/

theorem assembly_updateArg (d : TypeDesc) (k : Nat) (f : TypeDesc → TypeDesc) :
    assembly t (d.updateArg k f) = assembly t d := by
  simp [assembly]

variable {d e : TypeDesc} {before after : List TypeDesc}

theorem arity_of_split (h : t.spelledArgs d = before ++ e :: after) : (assembly t d).arity =
    (before.map (chars t)).length + (after.map (chars t)).length + 1 := by
  have harity := arity_assembly (t := t) d
  rw [h] at harity
  simp only [List.length_append, List.length_cons, List.length_map] at harity ⊢
  omega

theorem bareChars_of_split (ht : t.forms = forms) (h : t.spelledArgs d = before ++ e :: after) :
    bareChars t d =
      (assembly t d).chars (before.map (chars t) ++ chars t e :: after.map (chars t)) := by
  rw [bareChars_eq ht, h]
  simp

theorem bareChars_updateArg (ht : t.forms = forms) (h : t.spelledArgs d = before ++ e :: after)
    (f : TypeDesc → TypeDesc) : bareChars t (d.updateArg before.length f) =
      (assembly t d).chars (before.map (chars t) ++ chars t (f e) :: after.map (chars t)) := by
  have hargs : t.spelledArgs (d.updateArg before.length f) = before ++ f e :: after := by
    rw [TypeTables.spelledArgs_updateArg, h, modify_append]
    simp [List.modify_eq_self]
  rw [bareChars_of_split ht hargs, assembly_updateArg]

/-- The text of the descriptor, with a mark that it has kept. -/
theorem chars_updateArg (ht : t.forms = forms) (d : TypeDesc) (k : Nat)
    (f : TypeDesc → TypeDesc) : chars t (d.updateArg k f) =
      bareChars t (d.updateArg k f) ++ if d.nullable then mark else [] := by
  rw [chars_eq ht, TypeDesc.nullable_updateArg]
  rfl

theorem chars_nullable (ht : t.forms = forms) (d : TypeDesc) :
    chars t { d with nullable := true } = bareChars t d ++ mark := chars_eq ht _

theorem chars_of_not_nullable (ht : t.forms = forms) (h : d.nullable = false) :
    chars t d = bareChars t d := by
  rw [chars_eq ht, h]
  simp

/-- Making a node nullable puts a mark into the text. -/
theorem marked_nullableAt (ht : t.forms = forms) {way : List Nat} {x : TypeDesc}
    (hx : t.visited? way d = some x) (hnull : x.nullable = false) :
    Marked (chars t d) (chars t (d.nullableAt way)) := by
  induction way generalizing d with
  | nil =>
    cases hx
    rw [TypeDesc.nullableAt, chars_nullable ht, chars_of_not_nullable ht hnull]
    exact .behind _
  | cons k way ih =>
    obtain ⟨e, he, hway⟩ := Option.bind_eq_some_iff.mp hx
    obtain ⟨before, after, hargs, rfl⟩ := exists_split_of_getElem? he
    have hmarked := (ih hway).chars (assembly t d) (arity_of_split hargs)
    rw [TypeDesc.nullableAt, chars_updateArg ht, bareChars_updateArg ht hargs, chars_eq ht,
      bareChars_of_split ht hargs]
    exact hmarked.between [] _

/-- Where another argument follows, the text of an argument ends before a lead. -/
theorem Assembly.exists_gap {a : Assembly} (ha : a.Separated) {before : List (List Char)} {n : Nat}
    (hn : 0 < n) (harity : a.arity = before.length + n + 1) :
    ∃ left gap, Separates gap ∧ ∀ after : List (List Char), after.length = n →
      ∃ rest, ∀ text, a.chars (before ++ text :: after) = left ++ text ++ (gap ++ rest) := by
  cases a with
  | array =>
    change 1 = _ at harity
    omega
  | series leads close =>
    change leads.length = _ at harity
    have hlater : 0 < (leads.drop (before.length + 1)).length := by
      rw [List.length_drop]
      omega
    obtain ⟨gap, later, hdrop⟩ := List.exists_cons_of_length_pos hlater
    have hgap : gap ∈ leads.tail := by
      have hmem : gap ∈ leads.drop (before.length + 1) := by simp [hdrop]
      rw [Nat.add_comm, ← List.drop_drop, List.drop_one] at hmem
      exact List.mem_of_mem_drop hmem
    refine ⟨upTo leads before, gap, ha gap hgap, fun after hafter => ?_⟩
    obtain ⟨first, others, rfl⟩ := List.exists_cons_of_length_pos (hafter ▸ hn)
    refine ⟨first ++ weave later others close, fun text => ?_⟩
    rw [chars, weave_at (by omega), hdrop, weave_cons, List.append_assoc gap]

theorem exists_gap_of_split (hargs : t.spelledArgs d = before ++ e :: after)
    (hafter : 0 < after.length) :
    ∃ left gap, Separates gap ∧ ∀ after' : List TypeDesc, after'.length = after.length →
      ∃ rest, ∀ text, (assembly t d).chars (before.map (chars t) ++ text :: after'.map (chars t)) =
        left ++ text ++ (gap ++ rest) := by
  obtain ⟨left, gap, hgap, hparts⟩ :=
    Assembly.exists_gap (separated_assembly d) (by simpa using hafter) (arity_of_split hargs)
  refine ⟨left, gap, hgap, fun after' hlength => hparts _ ?_⟩
  rw [List.length_map, List.length_map, hlength]

/-- Marks in different arguments of a node give different texts. -/
theorem bareChars_ne_of_lt (ht : t.forms = forms) {k j : Nat} (hkj : k < j) {p q : List Nat}
    {x y : TypeDesc} (hx : t.visited? (k :: p) d = some x) (hnull : x.nullable = false)
    (hy : t.visited? (j :: q) d = some y) :
    bareChars t (d.nullableAt (k :: p)) ≠ bareChars t (d.nullableAt (j :: q)) := by
  obtain ⟨e, he, hp⟩ := Option.bind_eq_some_iff.mp hx
  obtain ⟨e', he', -⟩ := Option.bind_eq_some_iff.mp hy
  obtain ⟨before, after, hargs, rfl⟩ := exists_split_of_getElem? he
  have hlength : j < (before ++ e :: after).length := by
    rw [← hargs]
    exact (List.getElem?_eq_some_iff.mp he').1
  rw [List.length_append, List.length_cons] at hlength
  obtain ⟨m, hm⟩ : ∃ m, j = before.length + (m + 1) := ⟨j - before.length - 1, by omega⟩
  have hargs' : t.spelledArgs (d.nullableAt (j :: q)) =
      before ++ e :: after.modify m (TypeDesc.nullableAt q) := by
    rw [TypeDesc.nullableAt, TypeTables.spelledArgs_updateArg, hargs, modify_append,
      List.modify_eq_self (by omega), if_pos (by omega)]
    simp [hm]
  obtain ⟨left, gap, hgap, hparts⟩ := exists_gap_of_split hargs (by omega)
  obtain ⟨rest, hrest⟩ := hparts after rfl
  obtain ⟨rest', hrest'⟩ := hparts (after.modify m (TypeDesc.nullableAt q)) (by simp)
  have hother : bareChars t (d.nullableAt (j :: q)) = left ++ chars t e ++ (gap ++ rest') := by
    rw [bareChars_of_split ht hargs', TypeDesc.nullableAt, assembly_updateArg]
    exact hrest' _
  rw [hother, TypeDesc.nullableAt, bareChars_updateArg ht hargs, hrest, List.append_assoc,
    List.append_assoc, Ne, List.append_right_inj]
  exact (marked_nullableAt ht hp hnull).append_ne hgap _ _

/-- The text of a callback ends with that of its result. -/
theorem Assembly.exists_result (params : List (List Char)) :
    ∃ left, ∀ text, (callback params.length true).chars (params ++ [text]) = left ++ text := by
  have hlength := length_leads "(".toList (labels params.length)
  rw [length_labels] at hlength
  refine ⟨weave (leads "(".toList (labels params.length)) params [] ++
    close "(".toList ") => ".toList (labels params.length), fun text => ?_⟩
  simp only [callback, if_true, chars]
  rw [weave_append hlength]
  simp

theorem spelledArgs_callback (hkind : d.kind = .callback) (hresult : e ∈ d.genericArgs.head?) :
    t.spelledArgs d = d.args ++ [e] := by
  simp only [TypeTables.spelledArgs, hkind, List.take_one, Option.mem_def.mp hresult]
  rfl

theorem exists_bareChars_callback (ht : t.forms = forms) (hkind : d.kind = .callback)
    (hresult : e ∈ d.genericArgs.head?) :
    ∃ left, bareChars t d = left ++ chars t e ∧
      ∀ f, bareChars t (d.updateArg d.args.length f) = left ++ chars t (f e) := by
  have hargs := spelledArgs_callback (t := t) hkind hresult
  have hassembly : assembly t d = .callback (d.args.map (chars t)).length true := by
    have hsome : (d.genericArgs.length != 0) = true := by
      have hne : d.genericArgs ≠ [] := List.ne_nil_of_mem (List.mem_of_mem_head? hresult)
      simp [hne]
    simp [assembly, hkind, hsome]
  obtain ⟨left, hleft⟩ := Assembly.exists_result (d.args.map (chars t))
  refine ⟨left, ?_, fun f => ?_⟩
  · rw [bareChars_of_split ht hargs, hassembly]
    exact hleft _
  · rw [bareChars_updateArg ht hargs, hassembly]
    exact hleft _

/-- A mark in a parameter of a callback is not one behind the callback. -/
theorem bareChars_param_ne (ht : t.forms = forms) (hargs : t.spelledArgs d = before ++ e :: after)
    (hafter : 0 < after.length) {way : List Nat} {x : TypeDesc} (hx : t.visited? way e = some x)
    (hnull : x.nullable = false) :
    bareChars t (d.nullableAt (before.length :: way)) ≠ bareChars t d ++ mark := by
  obtain ⟨left, gap, hgap, hparts⟩ := exists_gap_of_split hargs hafter
  obtain ⟨rest, hrest⟩ := hparts after rfl
  rw [TypeDesc.nullableAt, bareChars_updateArg ht hargs, bareChars_of_split ht hargs, hrest, hrest]
  simp only [List.append_assoc, Ne, List.append_right_inj]
  exact (marked_nullableAt ht hx hnull).append_ne hgap _ _

/-- A mark within a closed text is not one behind it. -/
theorem bareChars_ne_of_closed (ht : t.forms = forms) (h : (assembly t d).Closed) (k : Nat)
    (way : List Nat) : bareChars t (d.nullableAt (k :: way)) ≠ bareChars t d ++ mark := by
  intro heq
  have hlast := h ((t.spelledArgs (d.nullableAt (k :: way))).map (chars t))
  rw [TypeDesc.nullableAt, ← assembly_updateArg d k, ← bareChars_eq ht] at hlast
  rw [TypeDesc.nullableAt] at heq
  rw [heq, List.getLast?_append] at hlast
  exact hlast rfl

/-- Behind the text of a type a mark reads as one of its results. -/
theorem chars_nullableAt_iff (ht : t.forms = forms) {way : List Nat} {x : TypeDesc}
    (hx : t.visited? way d = some x) (hnull : x.nullable = false) :
    chars t (d.nullableAt way) = chars t d ++ mark ↔ d.IsResult way := by
  induction way generalizing d with
  | nil =>
    cases hx
    rw [TypeDesc.nullableAt, chars_nullable ht, chars_of_not_nullable ht hnull]
    exact iff_of_true rfl trivial
  | cons k way ih =>
    obtain ⟨e, he, hway⟩ := Option.bind_eq_some_iff.mp hx
    obtain ⟨before, after, hargs, rfl⟩ := exists_split_of_getElem? he
    have hbare : chars t (d.nullableAt (before.length :: way)) = chars t d ++ mark ↔
        bareChars t (d.nullableAt (before.length :: way)) = bareChars t d ++ mark := by
      rw [TypeDesc.nullableAt, chars_updateArg ht, chars_eq ht]
      split
      · exact List.append_left_inj _
      · simp
    rw [hbare]
    -- Only a callback with a result ends with the text of an argument.
    by_cases hcallback : d.kind = .callback ∧ d.genericArgs ≠ []
    · obtain ⟨hkind, hne⟩ := hcallback
      obtain ⟨r, hr⟩ := Option.isSome_iff_exists.mp (List.isSome_head?.mpr hne)
      have hsplit := spelledArgs_callback (t := t) hkind hr
      rw [hargs] at hsplit
      rcases List.eq_nil_or_concat after with rfl | ⟨later, last, rfl⟩
      · obtain ⟨rfl, hlast⟩ := List.append_inj' hsplit rfl
        cases hlast
        obtain ⟨left, hold, hnew⟩ := exists_bareChars_callback ht hkind hr
        have hhead : d.IsResult (d.args.length :: way) ↔ e.IsResult way := by
          simp [TypeDesc.IsResult, hkind, Option.mem_def.mp hr]
        rw [hhead, ← ih hway, TypeDesc.nullableAt, hnew, hold, List.append_assoc,
          List.append_right_inj]
      · refine iff_of_false (bareChars_param_ne ht hargs (by simp) hway hnull) ?_
        rintro ⟨-, hlength, -⟩
        have htotal := congrArg List.length hsplit
        simp at htotal
        omega
    · have hclosed : (assembly t d).Closed := by
        refine (closed_assembly ?_).resolve_left hcallback
        simp [hargs]
      refine iff_of_false (bareChars_ne_of_closed ht hclosed _ way) ?_
      rintro ⟨hkind, -, e, he, -⟩
      exact hcallback ⟨hkind, List.ne_nil_of_mem (List.mem_of_mem_head? he)⟩

theorem chars_nullable_eq_iff (ht : t.forms = forms) (hnull : d.nullable = false) {way : List Nat}
    {x : TypeDesc} (hx : t.visited? way d = some x) (hxnull : x.nullable = false) :
    chars t (d.nullableAt []) = chars t (d.nullableAt way) ↔ d.IsResult way := by
  rw [TypeDesc.nullableAt, chars_nullable ht, ← chars_of_not_nullable ht hnull, eq_comm]
  exact chars_nullableAt_iff ht hx hxnull

/-- Within one argument the rest of the text does not matter. -/
theorem bareChars_eq_iff_of_same_arg (ht : t.forms = forms) {k : Nat} {p q : List Nat}
    {x y : TypeDesc} (he : (t.spelledArgs d)[k]? = some e)
    (hx : t.visited? p e = some x) (hxnull : x.nullable = false)
    (hy : t.visited? q e = some y) (hynull : y.nullable = false) :
    bareChars t (d.nullableAt (k :: p)) = bareChars t (d.nullableAt (k :: q)) ↔
      chars t (e.nullableAt p) = chars t (e.nullableAt q) := by
  obtain ⟨before, after, hargs, rfl⟩ := exists_split_of_getElem? he
  obtain ⟨left, right, hframe⟩ := (assembly t d).exists_frame (arity_of_split hargs) true
  have hp := hframe _ (marked_nullableAt ht hx hxnull).blank
  have hq := hframe _ (marked_nullableAt ht hy hynull).blank
  simp only [TypeDesc.nullableAt, bareChars_updateArg ht hargs]
  rw [hp, hq, List.append_left_inj, List.append_right_inj]

/-- Two places in a type that become nullable give the same text if one is the result of the other,
or the result of its result, and so on. -/
theorem chars_nullableAt_eq_iff (ht : t.forms = forms) {p q : List Nat} {x y : TypeDesc}
    (hx : t.visited? p d = some x) (hxnull : x.nullable = false)
    (hy : t.visited? q d = some y) (hynull : y.nullable = false) :
    chars t (d.nullableAt p) = chars t (d.nullableAt q) ↔
      (∃ way, q = p ++ way ∧ x.IsResult way) ∨ ∃ way, p = q ++ way ∧ y.IsResult way := by
  induction p generalizing q d with
  | nil =>
    cases hx
    rw [chars_nullable_eq_iff ht hxnull hy hynull]
    constructor
    · exact fun h => .inl ⟨q, rfl, h⟩
    · rintro (⟨way, rfl, h⟩ | ⟨way, hnil, -⟩)
      · exact h
      · obtain ⟨rfl, -⟩ := List.append_eq_nil_iff.mp hnil.symm
        trivial
  | cons k p ih =>
    cases q with
    | nil =>
      cases hy
      rw [eq_comm, chars_nullable_eq_iff ht hynull hx hxnull]
      simp
    | cons j q =>
      have hbare : chars t (d.nullableAt (k :: p)) = chars t (d.nullableAt (j :: q)) ↔
          bareChars t (d.nullableAt (k :: p)) = bareChars t (d.nullableAt (j :: q)) := by
        simp only [TypeDesc.nullableAt]
        rw [chars_updateArg ht, chars_updateArg ht, List.append_left_inj]
      rw [hbare]
      obtain rfl | hkj := eq_or_ne k j
      · obtain ⟨e, he, hp⟩ := Option.bind_eq_some_iff.mp hx
        obtain ⟨e', he', hq⟩ := Option.bind_eq_some_iff.mp hy
        cases he.symm.trans he'
        rw [bareChars_eq_iff_of_same_arg ht he hp hxnull hq hynull, ih hp hq]
        simp
      · have hne : bareChars t (d.nullableAt (k :: p)) ≠ bareChars t (d.nullableAt (j :: q)) := by
          rcases Nat.lt_or_gt_of_ne hkj with hlt | hlt
          · exact bareChars_ne_of_lt ht hlt hx hxnull hy
          · exact (bareChars_ne_of_lt ht hlt hy hynull hx).symm
        refine iff_of_false hne ?_
        rintro (⟨way, hcons, -⟩ | ⟨way, hcons, -⟩)
        · exact hkj (List.cons.inj hcons).1.symm
        · exact hkj (List.cons.inj hcons).1

/-- The text of a type shows which of two nodes may be null, unless one of them is the result of the
other, or the result of its result, and so on. -/
theorem tellsApart_iff (ht : t.forms = forms) {p q : List Nat} {x y : TypeDesc}
    (hx : t.visited? p d = some x) (hxnull : x.nullable = false)
    (hy : t.visited? q d = some y) (hynull : y.nullable = false) :
    t.TellsApart d p q ↔
      ¬((∃ way, q = p ++ way ∧ x.IsResult way) ∨ ∃ way, p = q ++ way ∧ y.IsResult way) := by
  rw [← chars_nullableAt_eq_iff ht hx hxnull hy hynull, chars, chars, String.toList_inj]
  rfl

end

/-- A callback from an array of numbers to a table of words. -/
def wordCounts : TypeDesc :=
  .ofType (.function [.array (.predefined "int") 1]
    (some (.named "Dictionary" [.predefined "string", .predefined "bool"])))

/-- The array may be null, or each of its numbers may. -/
theorem wordCounts_tellsApart :
    (Target.typescript.tables.visited? [0] wordCounts).map TypeDesc.nullable = some false ∧
    (Target.typescript.tables.visited? [0, 0] wordCounts).map TypeDesc.nullable = some false ∧
    Target.typescript.tables.TellsApart wordCounts [0] [0, 0] := by
  refine ⟨by decide, by decide, (tellsApart_iff rfl rfl rfl rfl rfl).mpr ?_⟩
  rintro (⟨way, hway, hresult⟩ | ⟨way, hway, -⟩)
  · obtain rfl : way = [0] := (List.cons.inj hway).2.symm
    exact absurd hresult.1 (by decide)
  · cases hway

/-- A callback that gives a number. -/
def nextNumber : TypeDesc := .ofType (.function [] (some (.predefined "int")))

/-- The mark of the callback reads as that of its number. -/
theorem nextNumber_not_tellsApart :
    (Target.typescript.tables.visited? [] nextNumber).map TypeDesc.nullable = some false ∧
    (Target.typescript.tables.visited? [0] nextNumber).map TypeDesc.nullable = some false ∧
    ¬Target.typescript.tables.TellsApart nextNumber [] [0] :=
  ⟨by decide, by decide, by decide⟩

end TypeScript

end Recast
