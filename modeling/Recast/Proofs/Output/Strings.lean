import Recast.Proofs.Lowering.OutLocals
import Recast.Proofs.Lowering.ShownWithin
import Recast.Proofs.Output.Imports

/-! # Strings on a page

A body is moved in on its page, and a line that holds line breaks is moved in as several. This
does not tell the breaks of a block from those of a string: the lines of a text in a string, but
for the first one, are moved in as well. Nothing else happens to the text.
-/
namespace Recast

namespace Text
variable {pad cs xs ys part : List Char} {parts : List (List Char)}

/-- What is put in front of a line; an empty line stays empty. -/
def padding (pad cs : List Char) : List Char := if cs.head?.any (· != '\n') then pad else []

def relaidChars (pad : List Char) : List Char → List Char
  | [] => []
  | c :: cs => c :: ((if c == '\n' then padding pad cs else []) ++ relaidChars pad cs)

/-- A text with `pad` in front of each of its lines but the first. -/
def relaid (pad text : String) : String := String.ofList (relaidChars pad.toList text.toList)

/-- After a line break there are only line breaks. -/
def BreaksLast (text : String) : Prop := text.toList.IsChain fun a b => a = '\n' → b = '\n'

instance (text : String) : Decidable (BreaksLast text) :=
  inferInstanceAs (Decidable (List.IsChain _ _))

theorem padding_append (hne : xs ≠ []) : padding pad (xs ++ ys) = padding pad xs := by
  cases xs with
  | nil => exact absurd rfl hne
  | cons x xs => rfl

/-- Between two pieces there may be a padding, in front of the second. -/
theorem exists_relaidChars_append (pad xs ys : List Char) : ∃ gap,
    relaidChars pad (xs ++ ys) = relaidChars pad xs ++ gap ++ relaidChars pad ys := by
  induction xs with
  | nil => exact ⟨[], rfl⟩
  | cons x xs ih =>
    cases xs with
    | nil => exact ⟨if x == '\n' then padding pad ys else [], by simp [relaidChars, padding]⟩
    | cons y xs =>
      -- Away from the seam the next character decides, and it is `y` on both sides.
      obtain ⟨gap, hgap⟩ := ih
      refine ⟨gap, ?_⟩
      rw [List.cons_append, relaidChars, hgap, padding_append (List.cons_ne_nil y xs)]
      rw [relaidChars.eq_def pad (x :: y :: xs)]
      simp only [List.cons_append, List.append_assoc]

theorem relaidChars_infix (h : xs <:+: ys) (pad : List Char) :
    relaidChars pad xs <:+: relaidChars pad ys := by
  obtain ⟨before, after, rfl⟩ := h
  obtain ⟨gap, hgap⟩ := exists_relaidChars_append pad (before ++ xs) after
  obtain ⟨lead, hlead⟩ := exists_relaidChars_append pad before xs
  rw [hgap, hlead]
  exact ⟨relaidChars pad before ++ lead, gap ++ relaidChars pad after, by simp⟩

theorem contains_relaid {s t : String} (h : contains s t = true) (pad : String) :
    contains (relaid pad s) (relaid pad t) = true := by
  rw [contains_iff] at h ⊢
  simpa [relaid] using relaidChars_infix h pad.toList

theorem length_le_relaidChars (pad cs : List Char) : cs.length ≤ (relaidChars pad cs).length := by
  induction cs with
  | nil => exact Nat.le_refl 0
  | cons c cs ih =>
    rw [relaidChars, List.length_cons, List.length_cons, List.length_append]
    omega

theorem relaidChars_eq_self_iff (hpad : pad ≠ []) :
    relaidChars pad cs = cs ↔ cs.IsChain fun a b => a = '\n' → b = '\n' := by
  induction cs with
  | nil => simp [relaidChars]
  | cons c cs ih =>
    rw [relaidChars, List.cons_inj_right, List.isChain_cons, ← ih]
    by_cases hc : c = '\n'
    · cases cs with
      | nil => simp [relaidChars, padding]
      | cons d ds =>
        by_cases hd : d = '\n'
        · simp [padding, hd]
        · -- The padding makes the rest longer, and nothing makes it shorter again.
          have hlonger : pad ++ relaidChars pad (d :: ds) ≠ d :: ds := by
            intro heq
            have hlength := congrArg List.length heq
            have hrest := length_le_relaidChars pad (d :: ds)
            have hpos := List.length_pos_iff.mpr hpad
            rw [List.length_append] at hlength
            omega
          simp [padding, hc, hd, hlonger]
    · simp [hc]

/-- A line of a page. -/
def laid (pad part : List Char) : List Char := (if part.isEmpty then [] else pad ++ part) ++ ['\n']

theorem splitChars_cons_ne {c : Char} (hc : c ≠ '\n') (h : splitChars '\n' cs = part :: parts) :
    splitChars '\n' (c :: cs) = (c :: part) :: parts := by
  rw [splitChars, if_neg (by simpa using hc), h]

theorem exists_splitChars (sep : Char) (cs : List Char) :
    ∃ part parts, splitChars sep cs = part :: parts := by
  cases cs with
  | nil => exact ⟨[], [], rfl⟩
  | cons c cs =>
    rw [splitChars]
    split
    · exact ⟨[], _, rfl⟩
    · split
      · exact ⟨_, _, rfl⟩
      · exact ⟨[c], [], rfl⟩

theorem laid_of_splitChars (h : splitChars '\n' cs = part :: parts) :
    laid pad part = padding pad cs ++ part ++ ['\n'] := by
  cases cs with
  | nil =>
    cases h
    rfl
  | cons c cs =>
    obtain ⟨first, rest, hrest⟩ := exists_splitChars '\n' cs
    by_cases hc : c = '\n'
    · subst hc
      cases h
      rfl
    · rw [splitChars_cons_ne hc hrest] at h
      cases h
      simp [laid, padding, hc]

/-- The lines of a text, each but the first moved in. -/
theorem flatMap_laid_of_splitChars (h : splitChars '\n' cs = part :: parts) :
    part ++ '\n' :: parts.flatMap (laid pad) = relaidChars pad cs ++ ['\n'] := by
  induction cs generalizing part parts with
  | nil =>
    cases h
    rfl
  | cons c cs ih =>
    obtain ⟨first, rest, hrest⟩ := exists_splitChars '\n' cs
    have ih := ih hrest
    by_cases hc : c = '\n'
    · subst hc
      cases h
      rw [hrest, List.flatMap_cons, laid_of_splitChars hrest, List.append_assoc, List.append_assoc]
      rw [List.singleton_append, ih]
      simp [relaidChars]
    · rw [splitChars_cons_ne hc hrest] at h
      cases h
      rw [List.cons_append, ih]
      simp [relaidChars, hc]

end Text

namespace TypeScript
open Text
variable {l : Lowering} {id : ClassId} {c : Class} {f : Routine} {index : Nat} {s : Sheet}
  {b : LoweredBody} {page : Page} {lines more : List String} {line text : String}

theorem endLines_append (lines more : List String) :
    endLines (lines ++ more) = endLines lines ++ endLines more := by
  simp [endLines, String.join_append]

theorem contains_endLines (h : lines <:+: more) :
    contains (endLines more) (endLines lines) = true := by
  obtain ⟨before, after, rfl⟩ := h
  rw [endLines_append, endLines_append]
  exact contains_append_right (contains_append_left (contains_self _) _) _

theorem toList_endLines (lines : List String) :
    (endLines lines).toList = lines.flatMap fun line => line.toList ++ ['\n'] := by
  induction lines with
  | nil => rfl
  | cons line lines ih =>
    rw [endLines_cons, String.toList_append, ih, String.toList_append]
    rfl

theorem Sheet.lines_concat (sheets : List Sheet) :
    (Sheet.concat sheets).lines = sheets.flatMap Sheet.lines := by
  suffices hfold : ∀ start : Sheet,
      (sheets.foldl (· ++ ·) start).lines = start.lines ++ sheets.flatMap Sheet.lines
    from hfold {}
  induction sheets with
  | nil => simp
  | cons sheet sheets ih =>
    intro start
    rw [List.foldl_cons, ih, Sheet.lines_append, List.append_assoc, List.flatMap_cons]

theorem Sheet.lines_body (level : Nat) (b : LoweredBody) : (Sheet.body level b).lines =
    b.lines.flatMap fun text =>
      (split '\n' text).flatMap fun part => (Sheet.line level part).lines := by
  rw [Sheet.body, Sheet.lines_append, Sheet.lines_concat, List.flatMap_map, List.flatMap_assoc]
  exact List.append_nil _

theorem toList_endLines_line (level : Nat) (part : List Char) :
    (endLines (Sheet.line level (String.ofList part)).lines).toList =
      laid (times level "  ").toList part := by
  rw [toList_endLines]
  cases part with
  | nil => rfl
  | cons c cs => simp [Sheet.line, laid]

theorem toList_endLines_split (level : Nat) (parts : List (List Char)) :
    (endLines ((parts.map String.ofList).flatMap
        fun part => (Sheet.line level part).lines)).toList =
      parts.flatMap (laid (times level "  ").toList) := by
  induction parts with
  | nil => rfl
  | cons part parts ih =>
    rw [List.map_cons, List.flatMap_cons, endLines_append, String.toList_append, ih]
    rw [toList_endLines_line, List.flatMap_cons]

/-- A line of a body stands on the page as it is laid out there. -/
theorem contains_body (h : text ∈ b.lines) (level : Nat) :
    contains (endLines (Sheet.body level b).lines) (relaid (times level "  ") text) = true := by
  have hinfix : (split '\n' text).flatMap (fun part => (Sheet.line level part).lines) <:+:
      (Sheet.body level b).lines := by
    rw [Sheet.lines_body]
    exact List.infix_of_mem_flatten (List.mem_map_of_mem h)
  refine contains_trans (contains_endLines hinfix) (contains_iff.mpr ?_)
  obtain ⟨part, parts, hparts⟩ := exists_splitChars '\n' text.toList
  rw [split, toList_endLines_split, hparts, List.flatMap_cons, laid_of_splitChars hparts]
  refine ⟨padding (times level "  ").toList text.toList, ['\n'], ?_⟩
  rw [List.append_assoc, relaid, String.toList_ofList, ← flatMap_laid_of_splitChars hparts]
  simp

/-- The lines of a sheet stand in another one, in one piece. -/
def Sheet.Includes (s part : Sheet) : Prop := part.lines <:+: s.lines

namespace Sheet.Includes
variable {a b part : Sheet}

theorem self (s : Sheet) : s.Includes s := List.infix_refl _

theorem left (h : a.Includes part) (b : Sheet) : (a ++ b).Includes part :=
  List.IsInfix.trans h (List.prefix_append _ _).isInfix

theorem right (h : b.Includes part) (a : Sheet) : (a ++ b).Includes part :=
  List.IsInfix.trans h (List.suffix_append _ _).isInfix

end Sheet.Includes

theorem includes_constructorSheet (className : String) (f : Routine) (b : LoweredBody) :
    (constructorSheet l className f b).Includes (.body 2 b) := by
  have hbody := Sheet.Includes.self (.body 2 b)
  unfold constructorSheet
  dsimp only
  split
  · exact (hbody.right _).left _
  · split
    · exact ((hbody.right _).left _).left _
    · exact (hbody.right _).left _

section sheets
variable (hbody : f.isConstructor = true ∨ f.body.isSome = true)
include hbody

theorem includes_routineSheet {className : String}
    (h : routineSheet l id className index f = .ok s) :
    ∃ b, l.routine id index = .ok b ∧ s.Includes (.body 2 b) := by
  unfold routineSheet at h
  dsimp only at h
  split at h
  next =>
    obtain ⟨b, hb, hs⟩ := exists_of_bind_eq_ok h
    cases hs
    exact ⟨b, hb, (includes_constructorSheet className f b).right _⟩
  next hconstructor =>
    split at h
    next hnone =>
      rw [Option.isNone_iff_eq_none] at hnone
      simp [hconstructor, hnone] at hbody
    next =>
      obtain ⟨b, hb, hs⟩ := exists_of_bind_eq_ok h
      cases hs
      exact ⟨b, hb, ((Sheet.Includes.self _).right _).left _⟩

theorem includes_routineSheets {k : Nat} {fs : List Routine}
    (h : routineSheets l id c k fs = .ok s) (hf : fs[index]? = some f) :
    ∃ b, l.routine id (k + index) = .ok b ∧ s.Includes (.body 2 b) := by
  induction fs generalizing k s index with
  | nil => cases hf
  | cons g fs ih =>
    obtain ⟨first, hfirst, h⟩ := exists_of_bind_eq_ok h
    obtain ⟨rest, hrest, hs⟩ := exists_of_bind_eq_ok h
    cases hs
    cases index with
    | zero =>
      cases hf
      obtain ⟨b, hb, hin⟩ := includes_routineSheet hbody hfirst
      exact ⟨b, hb, (hin.right _).left _⟩
    | succ index =>
      obtain ⟨b, hb, hin⟩ := ih hrest hf
      rw [Nat.add_right_comm] at hb
      exact ⟨b, hb, hin.right _⟩

/-- A page of a class has the bodies of its routines. -/
theorem exists_body_of_page (h : TypeScript.page l id c = .ok page)
    (hclass : c.declaration ∉ [.enumDecl, .delegate, .interface])
    (hf : c.routines[index]? = some f) :
    ∃ b, l.routine id index = .ok b ∧
      contains page.contents (endLines (Sheet.body 2 b).lines) = true := by
  unfold TypeScript.page at h
  dsimp only at h
  split at h
  next heq => simp [heq] at hclass
  next heq => simp [heq] at hclass
  next heq => simp [heq] at hclass
  next =>
    obtain ⟨s, hsheet, h⟩ := exists_of_bind_eq_ok h
    cases h
    obtain ⟨members, -, hsheet⟩ := exists_of_bind_eq_ok hsheet
    obtain ⟨routines, hroutines, hs⟩ := exists_of_bind_eq_ok hsheet
    cases hs
    obtain ⟨b, hb, hin⟩ := includes_routineSheets hbody hroutines hf
    rw [Nat.zero_add] at hb
    exact ⟨b, hb, contains_append_left (contains_endLines ((hin.right _).left _)) _⟩

end sheets

/-- One text is the other with a backslash in front of each backquote and each start of a hole. -/
inductive Escaped : List Char → List Char → Prop
  | nil : Escaped [] []
  | quote {cs ds : List Char} (h : Escaped cs ds) : Escaped ('\x60' :: cs) ('\\' :: '\x60' :: ds)
  | hole {cs ds : List Char} (h : Escaped cs ds) :
    Escaped ('$' :: '\x7b' :: cs) ('\\' :: '$' :: '\x7b' :: ds)
  | plain {c : Char} {cs ds : List Char} (hquote : c ≠ '\x60')
    (hhole : c = '$' → cs.head? ≠ some '\x7b') (h : Escaped cs ds) : Escaped (c :: cs) (c :: ds)

theorem escaped_escapeTemplate (cs : List Char) : Escaped cs (escapeTemplate cs) := by
  fun_induction escapeTemplate cs with
  | case1 => exact .nil
  | case2 cs ih => exact .hole ih
  | case3 c cs hhole hc ih =>
    rw [eq_of_beq hc]
    exact .quote ih
  | case4 c cs hhole hc ih =>
    refine .plain (by simpa using hc) (fun hdollar hhead => ?_) ih
    obtain ⟨rest, hrest⟩ := List.head?_eq_some_iff.mp hhead
    exact hhole rest hdollar hrest

theorem Escaped.unique {cs ds es : List Char} (h : Escaped cs ds) (h' : Escaped cs es) :
    ds = es := by
  induction h generalizing es with
  | nil =>
    cases h'
    rfl
  | quote _ ih =>
    cases h' with
    | quote h => rw [ih h]
    | plain hquote => exact absurd rfl hquote
  | hole _ ih =>
    cases h' with
    | hole h => rw [ih h]
    | plain _ hhole => exact absurd rfl (hhole rfl)
  | plain hquote hhole _ ih =>
    cases h' with
    | quote => exact absurd rfl hquote
    | hole => exact absurd rfl (hhole rfl)
    | plain _ _ h => rw [ih h]

/-- Escaping neither adds nor removes line breaks. -/
theorem Escaped.isChain_iff {cs ds : List Char} (h : Escaped cs ds) :
    (ds.IsChain fun a b => a = '\n' → b = '\n') ↔ cs.IsChain fun a b => a = '\n' → b = '\n' := by
  induction h with
  | nil => exact Iff.rfl
  | quote _ ih | hole _ ih => simp [List.isChain_cons, ih]
  | @plain c cs ds hquote hhole h ih =>
    have hhead : (∀ d ∈ ds.head?, d = '\n') ↔ ∀ d ∈ cs.head?, d = '\n' := by
      cases h <;> simp
    rw [List.isChain_cons, List.isChain_cons, ih]
    by_cases hc : c = '\n'
    · simp only [hc, true_implies, hhead]
    · simp [hc]

theorem text_mem_of_interpolation {env : Surroundings} {parts : List InterpolationPart}
    {a t : LowerState} {r : List Fragment × Hoists} (h : env.interpolation parts a = (.ok r, t))
    (htext : .text text ∈ parts) : .text text ∈ r.1 := by
  induction parts generalizing a r t with
  | nil => cases htext
  | cons part parts ih =>
    rw [Surroundings.interpolation.eq_def] at h
    cases part with
    | text first =>
      obtain ⟨rest, u, hrest, h⟩ := Lower.ok_of_bind h
      obtain ⟨rfl, -⟩ := Lower.ok_of_pure h
      rcases List.mem_cons.mp htext with heq | htext
      · cases heq
        exact .head _
      · exact .tail _ (ih hrest htext)
    | expression e format =>
      obtain ⟨v, u, -, h⟩ := Lower.ok_of_bind h
      obtain ⟨rest, w, hrest, h⟩ := Lower.ok_of_bind h
      obtain ⟨rfl, -⟩ := Lower.ok_of_pure h
      rcases List.mem_cons.mp htext with heq | htext
      · cases heq
      · exact .tail _ (ih hrest htext)

/-- Each text of a string stands in the code of the string. -/
theorem contains_fragment {env : Surroundings} {σ : Scope} {facing : Bool} {node : NodeId}
    {parts : List InterpolationPart} {v : Lowered} (hd : env.dialect = dialect)
    (h : env.LowersTo σ facing (.interpolatedString node parts) v)
    (htext : .text text ∈ parts) : contains v.code (fragment (.text text)) = true := by
  obtain ⟨owner, a, t, hrun, -⟩ := h
  rw [Surroundings.expr.eq_def] at hrun
  obtain ⟨u, hu, -⟩ := Lower.ok_of_isolated hrun
  obtain ⟨r, w, hr, hpure⟩ := Lower.ok_of_bind hu
  obtain ⟨rfl, -⟩ := Lower.ok_of_pure hpure
  have hmem := List.mem_map_of_mem (f := fragment) (text_mem_of_interpolation hr htext)
  rw [hd]
  exact covers_one.mp (covers_join _).right.left _ hmem

/-- A routine of the class writes a string with the text, however deep in its expressions. -/
def WritesText (l : Lowering) (c : Class) (text : String) : Prop :=
  c.declaration ∉ [.enumDecl, .delegate, .interface] ∧
  ∃ f ∈ c.routines, (f.isConstructor = true ∨ f.body.isSome = true) ∧
    ∃ root ∈ Part.routine (l.surroundings c f) false f, ∃ q,
      Part.Within (l.surroundings c f) true root q ∧ 0 < q.copies ∧
        ∃ node parts, q.expr = .interpolatedString node parts ∧ .text text ∈ parts

/-- What is promised about a text in a string: it stands in the contents, escaped and otherwise
unchanged. -/
def KeepsText (contents text : String) : Prop :=
  ∃ written : String, Escaped text.toList written.toList ∧ contains contents written = true

theorem surroundings_showsOperands (hd : l.dialect = dialect) (c : Class) (f : Routine) :
    (l.surroundings c f).dialect.ShowsOperands := by
  change l.dialect.ShowsOperands
  exact hd ▸ dialect_showsOperands

theorem routine_eq_finish (hc : l.program.class? id = some c) (hf : c.routines[index]? = some f) :
    l.routine id index =
      Lowering.finish (l.contextIn c f.name [.ofClass (.program id), .ofRoutine id index])
        ((l.surroundings c f).routineBody id f) := by
  have hat : l.program.routineAt? id index = some f := by
    rw [Program.routineAt?, hc]
    exact hf
  rw [Lowering.routine, Lowering.routineContext, hc, hat]
  rfl

/-- The lines of a routine of the class show its expressions. -/
theorem shown_routine (hd : l.dialect = dialect) (hc : l.program.class? id = some c)
    (hf : c.routines[index]? = some f) (hb : l.routine id index = .ok b) :
    Part.AllShown (l.surroundings c f) ⟨[.ofClass (.program id), .ofRoutine id index]⟩ b.lines
      (Part.routine (l.surroundings c f) false f) := by
  have H := surroundings_showsOperands hd c f
  rw [routine_eq_finish hc hf] at hb
  unfold Lowering.finish at hb
  split at hb
  next s hs =>
    cases hb
    obtain ⟨-, lines, hlines, hshown⟩ :=
      Surroundings.shows_routineBody H id f _ () s hs ⟨fun _ _ => rfl, rfl, rfl⟩
    rwa [show s.lines = lines from hlines]
  next => cases hb

/-- A text in a string stands on the page as it is laid out there. -/
theorem contains_laidOut (hd : l.dialect = dialect) (hc : l.program.class? id = some c)
    (hpage : TypeScript.page l id c = .ok page) (htext : WritesText l c text) :
    contains page.contents (relaid (times 2 "  ") (fragment (.text text))) = true := by
  obtain ⟨hclass, f, hf, hbody, root, hroot, q, hq, hcopies, node, parts, hexpr, hmem⟩ := htext
  obtain ⟨index, hindex⟩ := List.getElem?_of_mem hf
  obtain ⟨b, hb, hcontents⟩ := exists_body_of_page hbody hpage hclass hindex
  have hshown := (shown_routine hd hc hindex hb root hroot).of_within
    (surroundings_showsOperands hd c f) hq
  obtain ⟨v, hv, hcode, -⟩ := hshown (.inl hcopies)
  rw [hexpr] at hv hcode
  obtain ⟨line, hline, hcode⟩ := (hcode hcopies).resolve_left Bool.false_ne_true v.code (.head _)
  have hfragment := contains_trans hcode (contains_fragment hd hv hmem)
  exact contains_trans (contains_trans hcontents (contains_body hline 2))
    (contains_relaid hfragment _)

/-- Each text of a string that a class writes stands on the page of the class, escaped and with
each of its lines but the first moved in like the body, unless the line is empty. This changes
nothing exactly if all lines but the first are empty; then the text stands there as promised. -/
theorem page_lays_out_text (l : Lowering) (id : ClassId) (c : Class) (page : Page) (text : String)
    (hd : l.dialect = dialect) (hc : l.program.class? id = some c)
    (hpage : TypeScript.page l id c = .ok page) (htext : WritesText l c text) :
    (∃ written : String, Escaped text.toList written.toList ∧
      contains page.contents (relaid (times 2 "  ") written) = true ∧
      (relaid (times 2 "  ") written = written ↔ BreaksLast text)) ∧
    (BreaksLast text → KeepsText page.contents text) := by
  have hescaped : Escaped text.toList (fragment (.text text)).toList := by
    rw [fragment, String.toList_ofList]
    exact escaped_escapeTemplate text.toList
  have hlaid := contains_laidOut hd hc hpage htext
  have hpad : (times 2 "  ").toList ≠ [] := by decide
  have hkept : relaid (times 2 "  ") (fragment (.text text)) = fragment (.text text) ↔
      BreaksLast text := by
    rw [BreaksLast, ← hescaped.isChain_iff, ← relaidChars_eq_self_iff hpad, relaid,
      ← String.toList_inj, String.toList_ofList]
  refine ⟨⟨_, hescaped, hlaid, hkept⟩, fun hbreaks => ⟨_, hescaped, ?_⟩⟩
  rwa [hkept.mpr hbreaks] at hlaid

/-- A routine that returns a string, which holds a lambda with another string in its block. -/
def recital : Routine where
  name := "Recite"
  returnType := some (.object "string")
  body := some (.expression (.interpolatedString 0 [.text "roses\nviolets",
    .expression (.parenthesizedLambda 1 [] (.block [
      .ret 2 (some (.interpolatedString 3 [.text "\x60sugar\n"]))])) none]))

def poem : Class where
  name := "Poem"
  routines := [recital]

def poems : Lowering where
  program := { classes := [poem] }
  dialect := dialect
  known := {}

theorem poem_writesText : WritesText poems poem "roses\nviolets" := by
  refine ⟨by decide, recital, .head _, .inr rfl, _, .head _, _, .here _, ?_, 0, _, rfl, .head _⟩
  exact Nat.one_pos

theorem poem_writesText_inside : WritesText poems poem "\x60sugar\n" := by
  refine ⟨by decide, recital, .head _, .inr rfl, _, .head _, _,
    .inside (.head _) (.inside (.head _) (.here _)), ?_, 3, _, rfl, .head _⟩
  exact Nat.one_pos

theorem exists_poem_page : ∃ page, TypeScript.page poems 0 poem = .ok page ∧
    contains page.contents "roses\nviolets" = false := by
  have hpage : (TypeScript.page poems 0 poem).toOption.map
      (fun page => contains page.contents "roses\nviolets") = some false := by
    decide +kernel
  cases h : TypeScript.page poems 0 poem with
  | error e =>
    rw [h] at hpage
    cases hpage
  | ok page =>
    rw [h] at hpage
    exact ⟨page, rfl, Option.some.inj hpage⟩

theorem poem_page_lays_out_text : ∃ page, TypeScript.page poems 0 poem = .ok page ∧
    (∃ written : String, Escaped "roses\nviolets".toList written.toList ∧
      contains page.contents (relaid (times 2 "  ") written) = true) ∧
    KeepsText page.contents "\x60sugar\n" := by
  obtain ⟨page, hpage, -⟩ := exists_poem_page
  obtain ⟨⟨written, hwritten, hlaid, -⟩, -⟩ :=
    page_lays_out_text poems 0 poem page _ rfl rfl hpage poem_writesText
  have hinside := page_lays_out_text poems 0 poem page _ rfl rfl hpage poem_writesText_inside
  exact ⟨page, hpage, ⟨written, hwritten, hlaid⟩, hinside.2 (by decide)⟩

/-- A text of two lines is torn apart. -/
theorem poem_not_keepsText : ∃ page, TypeScript.page poems 0 poem = .ok page ∧
    WritesText poems poem "roses\nviolets" ∧ ¬ KeepsText page.contents "roses\nviolets" := by
  obtain ⟨page, hpage, habsent⟩ := exists_poem_page
  refine ⟨page, hpage, poem_writesText, ?_⟩
  rintro ⟨written, hwritten, hcontains⟩
  have heq : written = "roses\nviolets" :=
    String.toList_inj.mp (hwritten.unique (escaped_escapeTemplate _))
  rw [heq, habsent] at hcontains
  cases hcontains

end TypeScript

end Recast
