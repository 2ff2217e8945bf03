import Recast.TypeScript.Dialect

/-! # Lines as blocks

Lines that are read as a sequence of items. An item is a line that stands alone or a block: a line
that opens it, the items in it, one level deeper, any number of lines that close one part of it and
open the next, and a line that closes it. The parts of a `switch` stand under labels instead. Every
line starts with the indentation of its level.
-/
namespace Recast

namespace Text

theorem endsWith_append {s tail : String} (h : endsWith s tail = true) (before : String) :
    endsWith (before ++ s) tail = true := by
  rw [endsWith, List.isSuffixOf_iff_suffix] at h ⊢
  rw [String.toList_append]
  exact h.trans (List.suffix_append _ _)

theorem startsWith_append {s head : String} (h : startsWith s head = true) (after : String) :
    startsWith (s ++ after) head = true := by
  rw [startsWith, List.isPrefixOf_iff_prefix] at h ⊢
  rw [String.toList_append]
  exact h.trans (List.prefix_append _ _)

theorem head?_append {s : String} {c : Char} (h : s.toList.head? = some c) (after : String) :
    (s ++ after).toList.head? = some c := by
  rw [String.toList_append, List.head?_append, h, Option.some_or]

end Text

namespace TypeScript

/-- A line at a level. -/
def indent (depth : Nat) (text : String) : String := Text.times depth "  " ++ text

def tryLine : String := "try \x7b"

def finallyLine : String := "\x7d finally \x7b"

def catchLine (name : Option String) : String := "\x7d catch (" ++ name.getD caught ++ ") \x7b"

theorem flush_of_head {text : String} {c : Char} (h : text.toList.head? = some c)
    (hc : c ≠ ' ' ∧ c ≠ 't') : text.toList.head? ≠ some ' ' ∧ text ≠ tryLine := by
  refine ⟨?_, ?_⟩
  · rw [h]
    exact fun h => hc.1 (Option.some.inj h)
  · rintro rfl
    exact hc.2 (Option.some.inj h).symm

structure SimpleLine where
  text : String
  ends : Text.endsWith text ";" = true

structure OpeningLine where
  text : String
  ends : Text.endsWith text "\x7b" = true
  /-- There is no further indentation. -/
  flush : text.toList.head? ≠ some ' '

/-- A line that closes one part of a block and opens the next. -/
structure MiddleLine where
  text : String
  starts : Text.startsWith text "\x7d" = true
  ends : Text.endsWith text "\x7b" = true

inductive ClosingLine where
  | brace
  /-- The end of a loop that tests last. -/
  | footer (condition : String)

def ClosingLine.text : ClosingLine → String
  | .brace => "\x7d"
  | .footer condition => "\x7d while (" ++ condition ++ ");"

inductive LabelLine where
  | case (value : String)
  | default

def LabelLine.text : LabelLine → String
  | .case value => "case " ++ value ++ ":"
  | .default => "default:"

def switchLine (subject : String) : String := "switch (" ++ subject ++ ") \x7b"

mutual

inductive Item where
  | simple (line : SimpleLine)
  | block (opening : OpeningLine) (body : List Item) (clauses : List Clause)
      (closing : ClosingLine)
  | switch (subject : String) (sections : List Section)

structure Clause where
  middle : MiddleLine
  body : List Item

structure Section where
  labels : List LabelLine
  body : List Item

end

mutual

def Item.lines (depth : Nat) : Item → List String
  | .simple line => [indent depth line.text]
  | .block opening body clauses closing =>
    indent depth opening.text :: (Item.linesOf (depth + 1) body ++
      (Clause.linesOf depth clauses ++ [indent depth closing.text]))
  | .switch subject sections =>
    indent depth (switchLine subject) :: (Section.linesOf (depth + 1) sections ++
      [indent depth ClosingLine.brace.text])

def Item.linesOf (depth : Nat) : List Item → List String
  | [] => []
  | item :: items => item.lines depth ++ Item.linesOf depth items

def Clause.linesOf (depth : Nat) : List Clause → List String
  | [] => []
  | ⟨middle, body⟩ :: clauses =>
    indent depth middle.text :: (Item.linesOf (depth + 1) body ++ Clause.linesOf depth clauses)

def Section.linesOf (depth : Nat) : List Section → List String
  | [] => []
  | ⟨labels, body⟩ :: sections =>
    labels.map (fun label => indent depth label.text) ++
      (Item.linesOf (depth + 1) body ++ Section.linesOf depth sections)

end

mutual

/-- The middle lines of each `try` block, the outer ones first. -/
def Item.tries : Item → List (List String)
  | .simple _ => []
  | .block opening body clauses _ =>
    (if opening.text = tryLine then [clauses.map fun clause => clause.middle.text] else []) ++
      (Item.triesOf body ++ Clause.triesOf clauses)
  | .switch _ sections => Section.triesOf sections

def Item.triesOf : List Item → List (List String)
  | [] => []
  | item :: items => item.tries ++ Item.triesOf items

def Clause.triesOf : List Clause → List (List String)
  | [] => []
  | ⟨_, body⟩ :: clauses => Item.triesOf body ++ Clause.triesOf clauses

def Section.triesOf : List Section → List (List String)
  | [] => []
  | ⟨_, body⟩ :: sections => Item.triesOf body ++ Section.triesOf sections

end

theorem Item.linesOf_append (depth : Nat) (items rest : List Item) :
    linesOf depth (items ++ rest) = linesOf depth items ++ linesOf depth rest := by
  induction items with
  | nil => rfl
  | cons item items ih => rw [List.cons_append, linesOf, linesOf, ih, List.append_assoc]

theorem Item.triesOf_append (items rest : List Item) :
    triesOf (items ++ rest) = triesOf items ++ triesOf rest := by
  induction items with
  | nil => rfl
  | cons item items ih => rw [List.cons_append, triesOf, triesOf, ih, List.append_assoc]

theorem Clause.linesOf_append (depth : Nat) (clauses rest : List Clause) :
    linesOf depth (clauses ++ rest) = linesOf depth clauses ++ linesOf depth rest := by
  induction clauses with
  | nil => rfl
  | cons clause clauses ih =>
    obtain ⟨middle, body⟩ := clause
    rw [List.cons_append, linesOf, linesOf, ih, List.cons_append, List.append_assoc]

theorem Clause.triesOf_append (clauses rest : List Clause) :
    triesOf (clauses ++ rest) = triesOf clauses ++ triesOf rest := by
  induction clauses with
  | nil => rfl
  | cons clause clauses ih =>
    obtain ⟨middle, body⟩ := clause
    rw [List.cons_append, triesOf, triesOf, ih, List.append_assoc]

end TypeScript

end Recast
