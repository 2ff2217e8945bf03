import Recast.Proofs.Lines.Blocks

/-! # The clauses of a written `try`

The lines of a body are searched for `try` blocks: behind each line that opens one, the lines of its
level that start with a closing brace are its clauses, up to the first of them that opens nothing.
What is found are the `try` statements of the source and the releases of resources, with every
clause they have. TypeScript takes one `catch` at most, so it accepts the lines exactly if no `try`
statement has more.
-/
namespace Recast

namespace TypeScript
open Text

/-- The level of a line that opens a `try`. -/
def tryLevel? (line : String) : Option Nat :=
  let depth := (line.toList.takeWhile (· == ' ')).length / 2
  if line = indent depth tryLine then some depth else none

/-- A line at a level that closes what came before, without its indentation. -/
def closer? (depth : Nat) (line : String) : Option String :=
  if startsWith line (indent depth "\x7d") then some (String.ofList (line.toList.drop (2 * depth)))
  else none

/-- The clauses of a block, from what follows the line that opens it. -/
def clausesAt (depth : Nat) (lines : List String) : List String :=
  (lines.filterMap (closer? depth)).takeWhile (endsWith · "\x7b")

/-- The clauses of each `try` in the lines, the outer ones first. -/
def tryClauses : List String → List (List String)
  | [] => []
  | line :: rest =>
    match tryLevel? line with
    | some depth => clausesAt depth rest :: tryClauses rest
    | none => tryClauses rest

def isCatch (text : String) : Bool := startsWith text "\x7d catch (" && endsWith text ") \x7b"

/-- A `catch`, a `finally`, or the two in this order. -/
def acceptedClauses : List String → Bool
  | [clause] => isCatch clause || clause == finallyLine
  | [first, last] => isCatch first && last == finallyLine
  | _ => false

/-- Each `try` in the lines has clauses that TypeScript takes. -/
def AcceptedTries (lines : List String) : Prop :=
  ∀ clauses ∈ tryClauses lines, acceptedClauses clauses = true

instance : DecidablePred AcceptedTries := fun lines =>
  inferInstanceAs (Decidable (∀ clauses ∈ tryClauses lines, acceptedClauses clauses = true))

/-! ## Indented lines -/

theorem toList_indent (depth : Nat) (text : String) :
    (indent depth text).toList = List.replicate (2 * depth) ' ' ++ text.toList := by
  rw [indent, String.toList_append]
  congr 1
  induction depth with
  | zero => rfl
  | succ depth ih =>
    rw [times, String.toList_append, ih, Nat.mul_succ, Nat.add_comm]
    exact List.replicate_append_replicate (n := 2)

theorem indent_succ (depth : Nat) (text : String) :
    indent (depth + 1) text = indent depth (indent 1 text) := by
  apply String.toList_injective
  rw [toList_indent, toList_indent, toList_indent, ← List.append_assoc,
    List.replicate_append_replicate, Nat.mul_succ]

theorem indent_injective {depth : Nat} {text text' : String}
    (h : indent depth text = indent depth text') : text = text' := by
  apply String.toList_injective
  have hlists := congrArg String.toList h
  rw [toList_indent, toList_indent] at hlists
  exact List.append_cancel_left hlists

theorem leading_indent {text : String} (hflush : text.toList.head? ≠ some ' ') (depth : Nat) :
    (indent depth text).toList.takeWhile (· == ' ') = List.replicate (2 * depth) ' ' := by
  rw [toList_indent, List.takeWhile_append_of_pos (by simp)]
  cases htext : text.toList with
  | nil => simp
  | cons c cs =>
    rw [htext] at hflush
    have hc : (c == ' ') = false := by simpa using hflush
    rw [List.takeWhile_cons, hc]
    simp

theorem tryLevel?_indent {text : String} (hflush : text.toList.head? ≠ some ' ') (depth : Nat) :
    tryLevel? (indent depth text) = if text = tryLine then some depth else none := by
  have hdepth : (2 * depth) / 2 = depth := Nat.mul_div_cancel_left depth Nat.two_pos
  rw [tryLevel?, leading_indent hflush, List.length_replicate, hdepth]
  by_cases htext : text = tryLine
  · rw [if_pos htext, if_pos (by rw [htext])]
  · rw [if_neg htext, if_neg fun h => htext (indent_injective h)]

theorem closer?_indent {text : String} (h : startsWith text "\x7d" = true) (depth : Nat) :
    closer? depth (indent depth text) = some text := by
  rw [startsWith, List.isPrefixOf_iff_prefix] at h
  have hstarts : startsWith (indent depth text) (indent depth "\x7d") = true := by
    rw [startsWith, List.isPrefixOf_iff_prefix, toList_indent, toList_indent]
    exact (List.prefix_append_right_inj _).mpr h
  rw [closer?, if_pos hstarts, toList_indent, List.drop_append_of_le_length (by simp)]
  simp

theorem closer?_deeper (depth : Nat) (text : String) :
    closer? depth (indent (depth + 1) text) = none := by
  rw [closer?, if_neg]
  rw [indent_succ, startsWith, List.isPrefixOf_iff_prefix, toList_indent, toList_indent,
    List.prefix_append_right_inj, toList_indent]
  simp

/-! ## The clauses of a block -/

mutual

theorem exists_indent_item {line : String} (depth : Nat) (item : Item)
    (h : line ∈ item.lines depth) : ∃ text, line = indent depth text := by
  match item with
  | .simple _ =>
    rw [Item.lines, List.mem_singleton] at h
    exact ⟨_, h⟩
  | .block opening body clauses closing =>
    rw [Item.lines, List.mem_cons, List.mem_append, List.mem_append, List.mem_singleton] at h
    rcases h with h | h | h | h
    · exact ⟨_, h⟩
    · obtain ⟨text, rfl⟩ := exists_indent_items (depth + 1) body h
      exact ⟨_, indent_succ depth text⟩
    · exact exists_indent_clauses depth clauses h
    · exact ⟨_, h⟩
  | .switch subject sections =>
    rw [Item.lines, List.mem_cons, List.mem_append, List.mem_singleton] at h
    rcases h with h | h | h
    · exact ⟨_, h⟩
    · obtain ⟨text, rfl⟩ := exists_indent_sections (depth + 1) sections h
      exact ⟨_, indent_succ depth text⟩
    · exact ⟨_, h⟩

theorem exists_indent_items {line : String} (depth : Nat) (items : List Item)
    (h : line ∈ Item.linesOf depth items) : ∃ text, line = indent depth text := by
  match items with
  | [] => cases h
  | item :: items =>
    rw [Item.linesOf, List.mem_append] at h
    rcases h with h | h
    · exact exists_indent_item depth item h
    · exact exists_indent_items depth items h

theorem exists_indent_clauses {line : String} (depth : Nat) (clauses : List Clause)
    (h : line ∈ Clause.linesOf depth clauses) : ∃ text, line = indent depth text := by
  match clauses with
  | [] => cases h
  | ⟨middle, body⟩ :: clauses =>
    rw [Clause.linesOf, List.mem_cons, List.mem_append] at h
    rcases h with h | h | h
    · exact ⟨_, h⟩
    · obtain ⟨text, rfl⟩ := exists_indent_items (depth + 1) body h
      exact ⟨_, indent_succ depth text⟩
    · exact exists_indent_clauses depth clauses h

theorem exists_indent_sections {line : String} (depth : Nat) (sections : List Section)
    (h : line ∈ Section.linesOf depth sections) : ∃ text, line = indent depth text := by
  match sections with
  | [] => cases h
  | ⟨labels, body⟩ :: sections =>
    rw [Section.linesOf, List.mem_append, List.mem_append, List.mem_map] at h
    rcases h with ⟨label, -, rfl⟩ | h | h
    · exact ⟨_, rfl⟩
    · obtain ⟨text, rfl⟩ := exists_indent_items (depth + 1) body h
      exact ⟨_, indent_succ depth text⟩
    · exact exists_indent_sections depth sections h

end

/-- What stands deeper is passed over. -/
theorem filterMap_closer?_deeper (depth : Nat) (items : List Item) (rest : List String) :
    (Item.linesOf (depth + 1) items ++ rest).filterMap (closer? depth) =
      rest.filterMap (closer? depth) := by
  have hnone : (Item.linesOf (depth + 1) items).filterMap (closer? depth) = [] := by
    refine List.filterMap_eq_nil_iff.mpr fun line hline => ?_
    obtain ⟨text, rfl⟩ := exists_indent_items (depth + 1) items hline
    exact closer?_deeper depth text
  rw [List.filterMap_append, hnone, List.nil_append]

theorem startsWith_closing (closing : ClosingLine) : startsWith closing.text "\x7d" = true := by
  cases closing with
  | brace => rfl
  | footer condition => exact startsWith_append (startsWith_append rfl _) _

/-- A line that stands alone opens nothing. -/
theorem opens_nothing {text : String} (h : endsWith text ";" = true) :
    endsWith text "\x7b" = false := by
  rw [endsWith, List.isSuffixOf_iff_suffix] at h
  obtain ⟨before, hbefore⟩ := h
  rw [← Bool.not_eq_true, endsWith, List.isSuffixOf_iff_suffix, ← hbefore]
  rintro ⟨before', hbefore'⟩
  have hlast := congrArg List.getLast? hbefore'
  rw [List.getLast?_append, List.getLast?_append] at hlast
  have hchars : '\x7b' = ';' := Option.some.inj hlast
  exact absurd hchars (by decide)

theorem closing_opens_nothing (closing : ClosingLine) : endsWith closing.text "\x7b" = false := by
  cases closing with
  | brace => rfl
  | footer condition => exact opens_nothing (endsWith_append rfl _)

theorem clausesAt_block (depth : Nat) (body : List Item) (clauses : List Clause)
    (closing : ClosingLine) (rest : List String) :
    clausesAt depth (Item.linesOf (depth + 1) body ++ (Clause.linesOf depth clauses ++
      indent depth closing.text :: rest)) = clauses.map fun clause => clause.middle.text := by
  rw [clausesAt, filterMap_closer?_deeper]
  induction clauses with
  | nil =>
    rw [Clause.linesOf, List.nil_append,
      List.filterMap_cons_some (closer?_indent (startsWith_closing closing) depth),
      List.takeWhile_cons_of_neg (by simp [closing_opens_nothing])]
    rfl
  | cons clause clauses ih =>
    obtain ⟨middle, body⟩ := clause
    rw [Clause.linesOf, List.cons_append, List.append_assoc,
      List.filterMap_cons_some (closer?_indent middle.starts depth), filterMap_closer?_deeper,
      List.takeWhile_cons_of_pos (by simpa using middle.ends), ih, List.map_cons]

/-! ## The search -/

theorem tryClauses_cons_none {line : String} (h : tryLevel? line = none) (rest : List String) :
    tryClauses (line :: rest) = tryClauses rest := by
  rw [tryClauses, h]

theorem tryClauses_indent {text : String} (hflush : text.toList.head? ≠ some ' ')
    (depth : Nat) (rest : List String) :
    tryClauses (indent depth text :: rest) =
      (if text = tryLine then [clausesAt depth rest] else []) ++ tryClauses rest := by
  rw [tryClauses, tryLevel?_indent hflush]
  by_cases h : text = tryLine
  · rw [if_pos h, if_pos h]
    rfl
  · rw [if_neg h, if_neg h]
    rfl

theorem tryLevel?_simple (line : SimpleLine) (depth : Nat) :
    tryLevel? (indent depth line.text) = none := by
  rw [tryLevel?, if_neg]
  intro h
  have hends := opens_nothing (endsWith_append line.ends (times depth "  "))
  have htry : endsWith (indent depth line.text) "\x7b" = true := h ▸ endsWith_append rfl _
  exact Bool.false_ne_true (hends.symm.trans htry)

/-- A line that starts like none that opens a `try`. -/
theorem tryClauses_of_head {text : String} {c : Char} (h : text.toList.head? = some c)
    (hc : c ≠ ' ' ∧ c ≠ 't') (depth : Nat) (rest : List String) :
    tryClauses (indent depth text :: rest) = tryClauses rest := by
  obtain ⟨hflush, hne⟩ := flush_of_head h hc
  rw [tryClauses_indent hflush, if_neg hne, List.nil_append]

theorem tryClauses_closer {text : String} (h : startsWith text "\x7d" = true) (depth : Nat)
    (rest : List String) : tryClauses (indent depth text :: rest) = tryClauses rest := by
  rw [startsWith, List.isPrefixOf_iff_prefix] at h
  obtain ⟨after, hafter⟩ := h
  have hhead : text.toList.head? = some '\x7d' := by
    rw [← hafter]
    rfl
  exact tryClauses_of_head hhead (by decide) depth rest

theorem tryClauses_labels (labels : List LabelLine) (depth : Nat) (rest : List String) :
    tryClauses (labels.map (fun label => indent depth label.text) ++ rest) = tryClauses rest := by
  induction labels with
  | nil => rfl
  | cons label labels ih =>
    rw [List.map_cons, List.cons_append]
    cases label with
    | case value =>
      have hhead : (LabelLine.case value).text.toList.head? = some 'c' :=
        head?_append (head?_append rfl value) ":"
      rw [tryClauses_of_head hhead (by decide), ih]
    | default =>
      have hhead : LabelLine.default.text.toList.head? = some 'd' := rfl
      rw [tryClauses_of_head hhead (by decide), ih]

mutual

theorem tryClauses_item (depth : Nat) (item : Item) (rest : List String) :
    tryClauses (item.lines depth ++ rest) = item.tries ++ tryClauses rest := by
  -- The rest keeps the induction going: behind a block there are the lines of its clauses.
  match item with
  | .simple line =>
    rw [Item.lines, List.singleton_append, tryClauses_cons_none (tryLevel?_simple line depth)]
    rfl
  | .block opening body clauses closing =>
    have hclauses : tryClauses (Clause.linesOf depth clauses ++ indent depth closing.text :: rest) =
        Clause.triesOf clauses ++ tryClauses rest := by
      rw [tryClauses_clauses, tryClauses_closer (startsWith_closing closing)]
    rw [Item.lines, List.cons_append, List.append_assoc, List.append_assoc, List.singleton_append,
      tryClauses_indent opening.flush, clausesAt_block, tryClauses_items, hclauses, Item.tries,
      List.append_assoc, List.append_assoc]
  | .switch subject sections =>
    have hhead : (switchLine subject).toList.head? = some 's' :=
      head?_append (head?_append rfl subject) _
    rw [Item.lines, List.cons_append, List.append_assoc, List.singleton_append,
      tryClauses_of_head hhead (by decide), tryClauses_sections, tryClauses_closer rfl, Item.tries]

theorem tryClauses_items (depth : Nat) (items : List Item) (rest : List String) :
    tryClauses (Item.linesOf depth items ++ rest) = Item.triesOf items ++ tryClauses rest := by
  match items with
  | [] => rfl
  | item :: items =>
    rw [Item.linesOf, List.append_assoc, tryClauses_item, tryClauses_items, Item.triesOf,
      List.append_assoc]

theorem tryClauses_clauses (depth : Nat) (clauses : List Clause) (rest : List String) :
    tryClauses (Clause.linesOf depth clauses ++ rest) =
      Clause.triesOf clauses ++ tryClauses rest := by
  match clauses with
  | [] => rfl
  | ⟨middle, body⟩ :: clauses =>
    rw [Clause.linesOf, List.cons_append, List.append_assoc, tryClauses_closer middle.starts,
      tryClauses_items, tryClauses_clauses, Clause.triesOf, List.append_assoc]

theorem tryClauses_sections (depth : Nat) (sections : List Section) (rest : List String) :
    tryClauses (Section.linesOf depth sections ++ rest) =
      Section.triesOf sections ++ tryClauses rest := by
  match sections with
  | [] => rfl
  | ⟨labels, body⟩ :: sections =>
    rw [Section.linesOf, List.append_assoc, List.append_assoc, tryClauses_labels, tryClauses_items,
      tryClauses_sections, Section.triesOf, List.append_assoc]

end

theorem tryClauses_linesOf (depth : Nat) (items : List Item) :
    tryClauses (Item.linesOf depth items) = Item.triesOf items := by
  have h := tryClauses_items depth items []
  rwa [List.append_nil, tryClauses, List.append_nil] at h

theorem isCatch_catchLine (name : Option String) : isCatch (catchLine name) = true := by
  rw [isCatch, Bool.and_eq_true]
  exact ⟨startsWith_append (startsWith_append rfl _) _, endsWith_append rfl _⟩

theorem catchLine_ne_finallyLine (name : Option String) : catchLine name ≠ finallyLine := by
  intro h
  have hcatch := isCatch_catchLine name
  rw [h] at hcatch
  exact absurd hcatch (by decide)

end TypeScript

/-- At most one clause catches, and there is a clause. -/
def TryForm.Accepted (f : TryForm) : Prop :=
  f.catches.length ≤ 1 ∧ (f.catches ≠ [] ∨ f.hasFinally = true)

instance : DecidablePred TryForm.Accepted := fun f =>
  inferInstanceAs (Decidable (f.catches.length ≤ 1 ∧ (f.catches ≠ [] ∨ f.hasFinally = true)))

open TypeScript in
theorem TryForm.acceptedClauses_heads (f : TryForm) :
    acceptedClauses f.heads = true ↔ f.Accepted := by
  obtain ⟨catches, hasFinally⟩ := f
  match catches, hasFinally with
  | [], true => simp [heads, acceptedClauses, Accepted]
  | [], false => simp [heads, acceptedClauses, Accepted]
  | [name], true => simp [heads, acceptedClauses, Accepted, isCatch_catchLine]
  | [name], false => simp [heads, acceptedClauses, Accepted, isCatch_catchLine]
  | [first, second], false =>
    simp [heads, acceptedClauses, Accepted, catchLine_ne_finallyLine]
  | [first, second], true => simp [heads, acceptedClauses, Accepted]
  | first :: second :: third :: names, hasFinally => simp [heads, acceptedClauses, Accepted]

/-- The lines have the `try` blocks of the statements, and TypeScript accepts them if each of the
statements' forms is acceptable. -/
structure WritesTries (ss : List Stmt) (lines : List String) : Prop where
  clauses : TypeScript.tryClauses lines = (TryForm.ofStmts ss).map TryForm.heads
  accepted : TypeScript.AcceptedTries lines ↔ ∀ f ∈ TryForm.ofStmts ss, f.Accepted

open TypeScript in
theorem writesTries_of_items {ss : List Stmt} {depth : Nat} {lines : List String}
    (h : Shape.items (TryForm.ofStmts ss) depth lines) : WritesTries ss lines := by
  obtain ⟨items, rfl, htries⟩ := h
  have hclauses := (tryClauses_linesOf depth items).trans htries
  refine ⟨hclauses, ?_⟩
  rw [AcceptedTries, hclauses, List.forall_mem_map]
  exact forall₂_congr fun f _ => f.acceptedClauses_heads

namespace Surroundings
open Lower TypeScript
variable {env : Surroundings}

theorem blockText_eq (hd : env.dialect = TypeScript.dialect) (lines : List String)
    (s : LowerState) :
    env.blockText lines s = (.ok (if lines = [] then "\x7b\x7d" else
      "\x7b\n" ++ String.intercalate "\n" lines ++ "\n" ++ indent s.depth "\x7d"), s) := by
  cases lines with
  | nil =>
    rw [blockText, hd]
    rfl
  | cons line lines =>
    rw [indent, ← String.append_assoc, if_neg (List.cons_ne_nil line lines)]
    simp only [blockText, indentation, hd]
    rfl

/-- TypeScript accepts the `try` blocks of a body, and those of the body of a lambda, exactly if
each `try` of the source has a clause and no more than one that catches. -/
theorem acceptedTries_iff (hd : env.dialect = TypeScript.dialect) (ss : List Stmt)
    (s t : LowerState) :
    (env.stmts ss s = (.ok (), t) → ∃ lines, t.lines = s.lines ++ lines ∧ WritesTries ss lines) ∧
    ∀ text, env.lambdaBody (.block ss) s = (.ok text, t) →
      ∃ lines, text = (if lines = [] then "\x7b\x7d" else
        "\x7b\n" ++ String.intercalate "\n" lines ++ "\n" ++ indent s.depth "\x7d") ∧
        WritesTries ss lines := by
  have hlays := lays_stmts (hd ▸ dialect_braced) ss
  refine ⟨fun hrun => ?_, fun text hrun => ?_⟩
  · obtain ⟨-, -, lines, hlines, hitems⟩ := hlays s () t hrun
    exact ⟨lines, hlines, writesTries_of_items hitems⟩
  · rw [lambdaBody] at hrun
    obtain ⟨lines, u, hcollected, htext⟩ := ok_of_bind hrun
    obtain ⟨v, hv, rfl, rfl⟩ := ok_of_collected hcollected
    obtain ⟨hdepth, -, lines, hlines, hitems⟩ := hlays.indented _ () v hv
    rw [List.nil_append] at hlines
    rw [blockText_eq hd] at htext
    cases htext
    rw [hdepth, hlines]
    exact ⟨lines, rfl, writesTries_of_items hitems⟩

theorem takesOrLeaves_acceptedTries :
    WritesTries [takesOrLeaves] takesOrLeavesLines ∧ AcceptedTries takesOrLeavesLines := by
  have hlines : (emptyProgram.stmts [takesOrLeaves] { depth := 1 }).2.lines =
      takesOrLeavesLines := by decide +kernel
  have hok : (emptyProgram.stmts [takesOrLeaves] { depth := 1 }).1.isOk = true := by
    decide +kernel
  have hforms : ∀ f ∈ TryForm.ofStmts [takesOrLeaves], f.Accepted := by
    decide +kernel
  obtain ⟨lines, hwritten, htries⟩ := (acceptedTries_iff rfl _ _ _).1 (run_of_isOk hok)
  obtain rfl : lines = takesOrLeavesLines := hwritten.symm.trans hlines
  exact ⟨htries, htries.accepted.mpr hforms⟩

/-- `try { } catch (A) { } catch (B) { }` -/
def catchesTwice : Stmt :=
  .tryCatch 0 [] [⟨some (.named "A" []), none, []⟩, ⟨some (.named "B" []), none, []⟩] none

/-- Each clause is written, although TypeScript takes one. -/
theorem catchesTwice_not_acceptedTries :
    (∀ f ∈ TryForm.ofStmts [catchesTwice], f.catches ≠ [] ∨ f.hasFinally = true) ∧
    ∃ t, emptyProgram.stmts [catchesTwice] {} = (.ok (), t) ∧
      t.lines = ["try \x7b", "\x7d catch (e) \x7b", "\x7d catch (e) \x7b", "\x7d"] ∧
      ¬ AcceptedTries t.lines := by
  have hlines : (emptyProgram.stmts [catchesTwice] {}).2.lines =
      ["try \x7b", "\x7d catch (e) \x7b", "\x7d catch (e) \x7b", "\x7d"] := by
    decide +kernel
  have hok : (emptyProgram.stmts [catchesTwice] {}).1.isOk = true := by
    decide +kernel
  refine ⟨by decide +kernel, _, run_of_isOk hok, hlines, ?_⟩
  rw [hlines]
  decide +kernel

end Surroundings

end Recast
