import Recast.Proofs.Type.Tracking

/-! # How the text of a type is put together

The text of a node holds the texts of the arguments that are spelled with it, one behind the other,
each behind a lead of its own, and a close at the end. Only arrays look at the text of their
argument: one with a blank in it is put in parentheses.
-/
namespace Recast.TypeScript

/-- The texts of some arguments, each behind its lead, and the close behind all of them. -/
def weave (leads texts : List (List Char)) (close : List Char) : List Char :=
  (List.zipWith (· ++ ·) leads texts).flatten ++ close

@[simp] theorem weave_nil (close : List Char) : weave [] [] close = close := rfl

@[simp] theorem weave_cons (lead text : List Char) (leads texts : List (List Char))
    (close : List Char) :
    weave (lead :: leads) (text :: texts) close = lead ++ text ++ weave leads texts close := by
  simp [weave]

theorem weave_close (leads texts : List (List Char)) (close : List Char) :
    weave leads texts close = weave leads texts [] ++ close := by
  simp [weave]

/-- One of the texts, with what stands before and behind it. -/
theorem weave_append {leads texts : List (List Char)} (h : leads.length = texts.length)
    (lead text : List Char) (leads' texts' : List (List Char)) (close : List Char) :
    weave (leads ++ lead :: leads') (texts ++ text :: texts') close =
      weave leads texts [] ++ lead ++ text ++ weave leads' texts' close := by
  simp [weave, List.zipWith_append h]

/-- What stands before the text at a place, if the texts before it are given. -/
def upTo (leads before : List (List Char)) : List Char :=
  weave (leads.take before.length) before [] ++ (leads[before.length]?).getD []

theorem weave_at {leads before : List (List Char)} (h : before.length < leads.length)
    (text : List Char) (after : List (List Char)) (close : List Char) :
    weave leads (before ++ text :: after) close =
      upTo leads before ++ text ++ weave (leads.drop (before.length + 1)) after close := by
  have hsplit : leads = leads.take before.length ++ leads[before.length] ::
      leads.drop (before.length + 1) := by simp
  have hlength : (leads.take before.length).length = before.length := by
    rw [List.length_take]
    omega
  rw [upTo, List.getElem?_eq_getElem h, Option.getD_some]
  conv_lhs => rw [hsplit]
  exact weave_append hlength ..

/-! ## Arguments between brackets -/

/-- The leads of labelled arguments between brackets. -/
def leads (opening : List Char) : List (List Char) → List (List Char)
  | [] => []
  | label :: labels => (opening ++ label) :: labels.map (", ".toList ++ ·)

/-- What closes labelled arguments between brackets. -/
def close (opening closing : List Char) (labels : List (List Char)) : List Char :=
  if labels.isEmpty then opening ++ closing else closing

theorem length_leads (opening : List Char) (labels : List (List Char)) :
    (leads opening labels).length = labels.length := by
  cases labels <;> simp [leads]

theorem weave_commas (first closing : List Char) {labels texts : List (List Char)}
    (h : labels.length = texts.length) :
    first ++ weave (labels.map (", ".toList ++ ·)) texts closing =
      ", ".toList.intercalate (first :: List.zipWith (· ++ ·) labels texts) ++ closing := by
  induction labels generalizing first texts with
  | nil =>
    obtain rfl := List.eq_nil_of_length_eq_zero h.symm
    simp [weave]
  | cons label labels ih =>
    obtain ⟨text, texts, rfl⟩ := List.exists_cons_of_length_eq_add_one h.symm
    have hrest := ih (label ++ text) (Nat.succ.inj h)
    rw [List.map_cons, weave_cons, List.zipWith_cons_cons, List.intercalate_cons_cons]
    simp only [List.append_assoc] at hrest ⊢
    rw [hrest]

/-- Arguments between brackets have commas between them. -/
theorem weave_leads (opening closing : List Char) {labels texts : List (List Char)}
    (h : labels.length = texts.length) :
    weave (leads opening labels) texts (close opening closing labels) =
      opening ++ ", ".toList.intercalate (List.zipWith (· ++ ·) labels texts) ++ closing := by
  cases labels with
  | nil =>
    obtain rfl := List.eq_nil_of_length_eq_zero h.symm
    simp [leads, close]
  | cons label labels =>
    obtain ⟨text, texts, rfl⟩ := List.exists_cons_of_length_eq_add_one h.symm
    have hrest := weave_commas (label ++ text) closing (Nat.succ.inj h)
    rw [leads, weave_cons, List.zipWith_cons_cons]
    simp only [close, List.isEmpty_cons, Bool.false_eq_true, if_false, List.append_assoc] at hrest ⊢
    rw [hrest]

theorem zipWith_replicate_nil (texts : List (List Char)) :
    List.zipWith (· ++ ·) (List.replicate texts.length []) texts = texts := by
  induction texts with
  | nil => rfl
  | cons text texts ih => simp [List.replicate_succ, ih]

/-! ## The forms -/

/-- The text of an array. -/
def arrayChars (element : List Char) : List Char :=
  if element.contains ' ' then "(".toList ++ element ++ ")[]".toList else element ++ "[]".toList

theorem toList_array (element : String) : (array element).toList = arrayChars element.toList := by
  unfold array arrayChars
  split <;> simp

theorem toList_commas (items : List String) :
    (commas items).toList = ", ".toList.intercalate (items.map String.toList) :=
  String.toList_intercalate

/-- The name of a parameter of a callback. -/
def label (i : Nat) : List Char := ("a" ++ toString i ++ ": ").toList

def labels (n : Nat) : List (List Char) := (List.range n).map label

theorem length_labels (n : Nat) : (labels n).length = n := by simp [labels]

theorem map_named (params : List String) :
    (params.zipIdx.map fun p => "a" ++ toString p.2 ++ ": " ++ p.1).map String.toList =
      List.zipWith (· ++ ·) (labels params.length) (params.map String.toList) := by
  apply List.ext_getElem
  · simp [labels]
  · intro i _ _
    simp [labels, label]

/-- How the text of a node is made from the texts of the arguments that are spelled with it. -/
inductive Assembly where
  | array
  | series (leads : List (List Char)) (close : List Char)

namespace Assembly

def chars : Assembly → List (List Char) → List Char
  | .array, texts => arrayChars texts.flatten
  | .series leads close, texts => weave leads texts close

/-- Arguments between brackets, without labels. -/
def bracketed (opening : String) (count : Nat) (closing : String) : Assembly :=
  .series (leads opening.toList (List.replicate count []))
    (close opening.toList closing.toList (List.replicate count []))

theorem chars_bracketed (opening closing : String) (texts : List String) :
    (bracketed opening texts.length closing).chars (texts.map String.toList) =
      (opening ++ commas texts ++ closing).toList := by
  have hlength : (List.replicate texts.length ([] : List Char)).length =
      (texts.map String.toList).length := by simp
  have hzip := zipWith_replicate_nil (texts.map String.toList)
  rw [List.length_map] at hzip
  simp only [bracketed, chars]
  rw [weave_leads _ _ hlength, hzip, String.toList_append, String.toList_append, toList_commas]

/-- An array or list; its argument may be missing. -/
def sequence (count : Nat) : Assembly :=
  if count = 0 then .series [] "any[]".toList else .array

/-- A dictionary, of which both arguments may be missing. -/
def dictionary : Nat → Assembly
  | 0 => .series [] "Map<any, any>".toList
  | 1 => .series ["Map<".toList] ", any>".toList
  | _ => .bracketed "Map<" 2 ">"

/-- A callback with some number of parameters. -/
def callback (params : Nat) (returns : Bool) : Assembly :=
  if returns then
    .series (leads "(".toList (labels params) ++ [close "(".toList ") => ".toList (labels params)])
      []
  else
    .series (leads "(".toList (labels params))
      (close "(".toList ") => void".toList (labels params))

theorem chars_callback (params : List String) (returns : Option String) :
    (callback params.length returns.isSome).chars
        ((params ++ returns.toList).map String.toList) =
      (TypeScript.callback params returns).toList := by
  have hlength : (labels params.length).length = (params.map String.toList).length := by
    simp [length_labels]
  have hparams (closing : String) : weave (leads "(".toList (labels params.length))
      (params.map String.toList) (close "(".toList closing.toList (labels params.length)) =
        ("(" ++ commas (params.zipIdx.map fun p => "a" ++ toString p.2 ++ ": " ++ p.1) ++
          closing).toList := by
    rw [weave_leads _ _ hlength, String.toList_append, String.toList_append, toList_commas,
      map_named]
  cases returns with
  | none =>
    have hvoid := hparams ") => void"
    simp only [callback, Option.isSome_none, Bool.false_eq_true, if_false, chars,
      Option.toList_none, List.append_nil]
    rw [hvoid]
    simp [TypeScript.callback]
  | some ty =>
    have harrow := hparams ") => "
    have hleads : (leads "(".toList (labels params.length)).length =
        (params.map String.toList).length := by
      rw [length_leads, hlength]
    simp only [callback, Option.isSome_some, if_true, chars, Option.toList_some, List.map_append,
      List.map_cons, List.map_nil]
    rw [weave_append hleads, ← weave_close, harrow]
    simp [TypeScript.callback]

/-- How many texts are put together. -/
def arity : Assembly → Nat
  | .array => 1
  | .series leads _ => leads.length

theorem arity_bracketed (opening : String) (count : Nat) (closing : String) :
    (bracketed opening count closing).arity = count := by
  simp [bracketed, arity, length_leads]

theorem arity_sequence (count : Nat) : (sequence count).arity = min 1 count := by
  unfold sequence
  split
  · next h => simp [h, arity]
  · simp only [arity]
    omega

theorem arity_dictionary (count : Nat) : (dictionary count).arity = min 2 count := by
  rcases count with _ | _ | count
  · rfl
  · rfl
  · have harity := arity_bracketed "Map<" 2 ">"
    change (bracketed "Map<" 2 ">").arity = _
    omega

theorem arity_callback (params : Nat) (returns : Bool) :
    (callback params returns).arity = params + returns.toNat := by
  cases returns <;> simp [callback, arity, length_leads, length_labels]

/-- A text at some place among others. What stands around it depends at most on whether it has a
blank. -/
theorem exists_frame (a : Assembly) {before after : List (List Char)}
    (h : a.arity = before.length + after.length + 1) (spaced : Bool) :
    ∃ left right, ∀ text : List Char, text.contains ' ' = spaced →
      a.chars (before ++ text :: after) = left ++ text ++ right := by
  cases a with
  | array =>
    change 1 = _ at h
    obtain rfl : before = [] := List.eq_nil_of_length_eq_zero (by omega)
    obtain rfl : after = [] := List.eq_nil_of_length_eq_zero (by omega)
    refine ⟨if spaced then "(".toList else [], if spaced then ")[]".toList else "[]".toList, ?_⟩
    intro text htext
    cases spaced <;> simp_all [chars, arrayChars]
  | series leads close =>
    have hlt : before.length < leads.length := by
      change leads.length = _ at h
      omega
    exact ⟨_, _, fun text _ => weave_at hlt text after close⟩

end Assembly

/-! ## The text of a node -/

section
variable (t : TypeTables)

/-- The text of a type. -/
def chars (d : TypeDesc) : List Char := (t.spell d).text.toList

/-- The text of a type as if it could not be null. -/
def bareChars (d : TypeDesc) : List Char :=
  (t.spellNode d.kind d.name (d.args.map t.spell) (d.genericArgs.map t.spell)).text.toList

/-- How the text of a node is made. The kind, the name and the numbers of arguments decide it. -/
def assembly (d : TypeDesc) : Assembly :=
  match d.kind with
  | .array | .list => .sequence d.genericArgs.length
  | .dictionary => .dictionary d.genericArgs.length
  | .tuple => .bracketed "[" d.genericArgs.length "]"
  | .callback => .callback d.args.length (d.genericArgs.length != 0)
  | _ =>
    if d.genericArgs.length = 0 then .series [] (t.spellName d.name []).text.toList
    else if d.name = "" then .series [] "any".toList
    else
      let target := ((t.known.get? d.name d.genericArgs.length).map KnownClass.target).getD d.name
      .bracketed (target ++ "<") d.genericArgs.length ">"

variable {t}

theorem chars_eq (ht : t.forms = forms) (d : TypeDesc) :
    chars t d = bareChars t d ++ if d.nullable then " | null".toList else [] := by
  unfold chars bareChars
  rw [TypeTables.spell_eq, ht]
  dsimp only
  split
  · exact String.toList_append
  · exact (List.append_nil _).symm

theorem assembly_of_goesByName {d : TypeDesc} (h : d.goesByName = true) : assembly t d =
    if d.genericArgs.length = 0 then .series [] (t.spellName d.name []).text.toList
    else if d.name = "" then .series [] "any".toList
    else .bracketed (((t.known.get? d.name d.genericArgs.length).map KnownClass.target).getD d.name
      ++ "<") d.genericArgs.length ">" := by
  obtain ⟨kind, name, args, generics, nullable⟩ := d
  cases kind with
  | array | list | dictionary | tuple | callback => cases h
  | _ => rfl

theorem map_texts (ds : List TypeDesc) :
    ds.map (chars t) = (TypeTables.texts (ds.map t.spell)).map String.toList := by
  simp [TypeTables.texts, chars]

theorem chars_spellName (ht : t.forms = forms) {d : TypeDesc} (h : d.goesByName = true) :
    (t.spellName d.name (d.genericArgs.map t.spell)).text.toList =
      (assembly t d).chars ((t.spelledArgs d).map (chars t)) := by
  rw [assembly_of_goesByName h, TypeTables.spelledArgs_of_goesByName h]
  by_cases hnone : d.genericArgs = []
  · simp [hnone, Assembly.chars]
  · have hlooks : t.looksUp d = (d.name != "") := by
      simp [TypeTables.looksUp, TypeTables.isPrimitive, h, hnone]
    rw [hlooks, if_neg (mt List.eq_nil_of_length_eq_zero hnone)]
    unfold TypeTables.spellName
    by_cases hname : d.name = ""
    · simp [hname, hnone, ht, forms, Assembly.chars]
    · have hlength : d.genericArgs.length = (TypeTables.texts (d.genericArgs.map t.spell)).length := by
        simp [TypeTables.texts]
      rw [if_neg hname, if_pos (bne_iff_ne.mpr hname), map_texts, hlength,
        Assembly.chars_bracketed]
      simp [hname, hnone, ht, forms, angled, TypeTables.texts]

theorem chars_sequence (ht : t.forms = forms) (generics : List TypeDesc) :
    (array (t.argument (generics.map t.spell) 0).text).toList =
      (Assembly.sequence generics.length).chars ((generics.take 1).map (chars t)) := by
  rw [toList_array]
  cases generics with
  | nil => simp [TypeTables.argument, ht, forms, Assembly.sequence, Assembly.chars, arrayChars]
  | cons d ds => simp [TypeTables.argument, Assembly.sequence, Assembly.chars, chars]

theorem chars_dictionary (ht : t.forms = forms) (generics : List TypeDesc) :
    (forms.dictionary (t.argument (generics.map t.spell) 0).text
        (t.argument (generics.map t.spell) 1).text).toList =
      (Assembly.dictionary generics.length).chars ((generics.take 2).map (chars t)) := by
  rcases generics with _ | ⟨key, _ | ⟨value, rest⟩⟩
  · simp [TypeTables.argument, ht, forms, Assembly.dictionary, Assembly.chars]
  · simp [TypeTables.argument, ht, forms, Assembly.dictionary, Assembly.chars, chars]
  · simp [TypeTables.argument, forms, Assembly.dictionary, Assembly.chars, chars,
      Assembly.bracketed, leads, close, List.replicate_succ]

theorem chars_tuple (generics : List TypeDesc) :
    (forms.tuple (TypeTables.texts (generics.map t.spell))).toList =
      (Assembly.bracketed "[" generics.length "]").chars (generics.map (chars t)) := by
  have hlength : generics.length = (TypeTables.texts (generics.map t.spell)).length := by
    simp [TypeTables.texts]
  rw [map_texts, hlength, Assembly.chars_bracketed]
  rfl

theorem chars_function (args generics : List TypeDesc) :
    (forms.callback (TypeTables.texts (args.map t.spell))
        ((generics.map t.spell).head?.map Spelling.text)).toList =
      (Assembly.callback args.length (generics.length != 0)).chars
        ((args ++ generics.take 1).map (chars t)) := by
  have hcallback := Assembly.chars_callback (TypeTables.texts (args.map t.spell))
    ((generics.map t.spell).head?.map Spelling.text)
  have hlength : (TypeTables.texts (args.map t.spell)).length = args.length := by
    simp [TypeTables.texts]
  rw [hlength, List.map_append, ← map_texts] at hcallback
  refine hcallback.symm.trans ?_
  cases generics <;> simp [chars]

/-- The text of a node is assembled from those of the arguments that are spelled with it. -/
theorem bareChars_eq (ht : t.forms = forms) (d : TypeDesc) :
    bareChars t d = (assembly t d).chars ((t.spelledArgs d).map (chars t)) := by
  obtain ⟨kind, name, args, generics, nullable⟩ := d
  cases kind with
  | array | list =>
    simp only [bareChars, TypeTables.spellNode, ht]
    exact chars_sequence ht generics
  | dictionary =>
    simp only [bareChars, TypeTables.spellNode, ht]
    exact chars_dictionary ht generics
  | tuple =>
    simp only [bareChars, TypeTables.spellNode, ht]
    exact chars_tuple generics
  | callback =>
    simp only [bareChars, TypeTables.spellNode, ht]
    exact chars_function args generics
  | _ => exact chars_spellName ht rfl

/-- There is a place for each argument that is spelled. -/
theorem arity_assembly (d : TypeDesc) : (assembly t d).arity = (t.spelledArgs d).length := by
  cases h : d.goesByName with
  | true =>
    rw [assembly_of_goesByName h, TypeTables.spelledArgs_of_goesByName h]
    by_cases hnone : d.genericArgs = []
    · simp [hnone, Assembly.arity]
    · have hlooks : t.looksUp d = (d.name != "") := by
        simp [TypeTables.looksUp, TypeTables.isPrimitive, h, hnone]
      by_cases hname : d.name = ""
      · simp [hlooks, hname, hnone, Assembly.arity]
      · simp [hlooks, hname, hnone, Assembly.arity_bracketed]
  | false =>
    unfold assembly TypeTables.spelledArgs
    rcases TypeTables.kind_of_goesByName h with hkind | hkind | hkind | hkind | hkind <;> rw [hkind]
    · exact (Assembly.arity_sequence _).trans List.length_take.symm
    · exact (Assembly.arity_sequence _).trans List.length_take.symm
    · exact (Assembly.arity_dictionary _).trans List.length_take.symm
    · exact Assembly.arity_bracketed ..
    · rw [Assembly.arity_callback]
      cases d.genericArgs <;> simp

end

end Recast.TypeScript
