import Recast.Proofs.Lines.Items
import Recast.Proofs.Lowering.Context

/-! # Shapes of lines

What the lines that a run writes look like, for a run that comes back to its level: a line, items,
further parts of a block, or all that follows the first part of a block up to its end. Runs one
after the other write shapes one after the other. The `try` blocks among the lines are counted with
their clauses.
-/
namespace Recast

/-- The clauses of a `try`: the names of the caught values, and whether there is a last block. -/
structure TryForm where
  catches : List (Option String)
  hasFinally : Bool
  deriving DecidableEq

namespace TryForm

/-- The middle lines of the block. -/
def heads (f : TryForm) : List String :=
  f.catches.map TypeScript.catchLine ++ if f.hasFinally then [TypeScript.finallyLine] else []

/-- A resource is released in the last block of a `try`. -/
def release : TryForm := ⟨[], true⟩

mutual

/-- The `try` blocks that a statement is written with outside of lambdas, the outer ones first. -/
def ofStmt : Stmt → List TryForm
  | .tryCatch _ block catches finallyBlock =>
    ⟨catches.map CatchClause.name, finallyBlock.isSome⟩ :: (ofStmts block ++ (ofCatches catches ++
      (match finallyBlock with
        | some statements => ofStmts statements
        | none => [])))
  | .useResource _ _ _ body => release :: ofStmt body
  | .switch _ _ sections => ofSections sections
  | .block _ statements => ofStmts statements
  | .ifElse _ _ thenBranch otherwise =>
    ofStmt thenBranch ++
      (match otherwise with
        | some s => ofStmt s
        | none => [])
  | .forLoop _ _ _ _ _ body | .whileLoop _ _ body | .doWhile _ body _ | .forEach _ _ _ _ body
  | .lock _ _ body => ofStmt body
  | .expression .. | .ret .. | .locals .. | .breakLoop _ | .continueLoop _ | .throw .. | .empty _
  | .other .. => []

def ofStmts : List Stmt → List TryForm
  | [] => []
  | s :: ss => ofStmt s ++ ofStmts ss

def ofCatches : List CatchClause → List TryForm
  | [] => []
  | ⟨_, _, block⟩ :: rest => ofStmts block ++ ofCatches rest

def ofSections : List SwitchSection → List TryForm
  | [] => []
  | ⟨_, statements⟩ :: rest => ofStmts statements ++ ofSections rest

end

end TryForm

namespace TypeScript

/-- A line that opens a block other than that of a `try`. -/
structure Opens (text : String) : Prop where
  ends : Text.endsWith text "\x7b" = true
  flush : text.toList.head? ≠ some ' '
  ne : text ≠ tryLine

structure Continues (text : String) : Prop where
  starts : Text.startsWith text "\x7d" = true
  ends : Text.endsWith text "\x7b" = true

end TypeScript

/-- What lines at a level look like. -/
abbrev Shape := Nat → List String → Prop

namespace Shape
open TypeScript

def nothing : Shape := fun _ lines => lines = []

def line (text : String) : Shape := fun depth lines => lines = [indent depth text]

def deeper (X : Shape) : Shape := fun depth lines => X (depth + 1) lines

/-- Items with the `try` blocks among them. -/
def items (ts : List TryForm) : Shape := fun depth lines =>
  ∃ items : List Item, lines = Item.linesOf depth items ∧ Item.triesOf items = ts.map TryForm.heads

/-- Further parts of a block, with their middle lines. -/
def clauses (ts : List TryForm) (heads : List String) : Shape := fun depth lines =>
  ∃ clauses : List Clause, lines = Clause.linesOf depth clauses ∧
    (clauses.map fun clause => clause.middle.text) = heads ∧
    Clause.triesOf clauses = ts.map TryForm.heads

/-- What follows the first part of a block, up to its end. -/
def rest (ts : List TryForm) (heads : List String) : Shape := fun depth lines =>
  ∃ (clauses : List Clause) (closing : ClosingLine),
    lines = Clause.linesOf depth clauses ++ [indent depth closing.text] ∧
    (clauses.map fun clause => clause.middle.text) = heads ∧
    Clause.triesOf clauses = ts.map TryForm.heads

/-- Whatever the middle lines are. -/
def any (X : List String → Shape) : Shape := fun depth lines => ∃ heads, X heads depth lines

def sections (ts : List TryForm) : Shape := fun depth lines =>
  ∃ sections : List Section, lines = Section.linesOf depth sections ∧
    Section.triesOf sections = ts.map TryForm.heads

variable {ts us : List TryForm} {depth : Nat} {heads heads' xs ys zs : List String}
  {text : String}

theorem items_nil : items [] depth [] := ⟨[], rfl, rfl⟩

theorem items_append (hx : items ts depth xs) (hy : items us depth ys) :
    items (ts ++ us) depth (xs ++ ys) := by
  obtain ⟨is, rfl, hts⟩ := hx
  obtain ⟨js, rfl, hus⟩ := hy
  exact ⟨is ++ js, (Item.linesOf_append depth is js).symm,
    by rw [Item.triesOf_append, hts, hus, List.map_append]⟩

theorem items_simple (h : Text.endsWith text ";" = true) (hx : line text depth xs) :
    items [] depth xs := ⟨[.simple ⟨text, h⟩], hx, rfl⟩

theorem items_block (h : Opens text) (hx : line text depth xs)
    (hy : deeper (items ts) depth ys) (hz : any (rest us) depth zs) :
    items (ts ++ us) depth (xs ++ (ys ++ zs)) := by
  obtain ⟨is, rfl, hts⟩ := hy
  obtain ⟨heads, cs, closing, rfl, -, hus⟩ := hz
  refine ⟨[.block ⟨text, h.ends, h.flush⟩ is cs closing], ?_, ?_⟩
  · rw [show xs = [indent depth text] from hx]
    simp [Item.linesOf, Item.lines]
  · simp [Item.triesOf, Item.tries, h.ne, hts, hus]

theorem items_try {f : TryForm} (hx : line tryLine depth xs) (hy : deeper (items ts) depth ys)
    (hz : rest us f.heads depth zs) : items (f :: (ts ++ us)) depth (xs ++ (ys ++ zs)) := by
  obtain ⟨is, rfl, hts⟩ := hy
  obtain ⟨cs, closing, rfl, hheads, hus⟩ := hz
  refine ⟨[.block ⟨tryLine, by decide, by decide⟩ is cs closing], ?_, ?_⟩
  · rw [show xs = [indent depth tryLine] from hx]
    simp [Item.linesOf, Item.lines]
  · simp [Item.triesOf, Item.tries, hheads, hts, hus]

theorem items_switch {subject : String} (hx : line (switchLine subject) depth xs)
    (hy : deeper (sections ts) depth ys) (hz : line ClosingLine.brace.text depth zs) :
    items ts depth (xs ++ (ys ++ zs)) := by
  obtain ⟨ss, rfl, hts⟩ := hy
  refine ⟨[.switch subject ss], ?_, ?_⟩
  · rw [show xs = [indent depth (switchLine subject)] from hx, show zs = _ from hz]
    simp [Item.linesOf, Item.lines]
  · simp [Item.triesOf, Item.tries, hts]

theorem clauses_nil : clauses [] [] depth [] := ⟨[], rfl, rfl, rfl⟩

theorem clauses_cons (h : Continues text) (hx : line text depth xs)
    (hy : deeper (items ts) depth ys) (hz : clauses us heads depth zs) :
    clauses (ts ++ us) (text :: heads) depth (xs ++ (ys ++ zs)) := by
  obtain ⟨is, rfl, hts⟩ := hy
  obtain ⟨cs, rfl, rfl, hus⟩ := hz
  refine ⟨⟨⟨text, h.starts, h.ends⟩, is⟩ :: cs, ?_, rfl, ?_⟩
  · rw [show xs = [indent depth text] from hx]
    rfl
  · rw [Clause.triesOf, hts, hus, List.map_append]

theorem clauses_one (h : Continues text) (hx : line text depth xs)
    (hy : deeper (items ts) depth ys) : clauses ts [text] depth (xs ++ ys) := by
  have hclause := clauses_cons h hx hy clauses_nil
  rwa [List.append_nil, List.append_nil] at hclause

theorem rest_nil {closing : ClosingLine} (hx : line closing.text depth xs) :
    rest [] [] depth xs := ⟨[], closing, hx, rfl, rfl⟩

theorem rest_append (hx : clauses ts heads depth xs) (hy : rest us heads' depth ys) :
    rest (ts ++ us) (heads ++ heads') depth (xs ++ ys) := by
  obtain ⟨cs, rfl, rfl, hts⟩ := hx
  obtain ⟨cs', closing, rfl, rfl, hus⟩ := hy
  refine ⟨cs ++ cs', closing, ?_, List.map_append, ?_⟩
  · rw [Clause.linesOf_append, List.append_assoc]
  · rw [Clause.triesOf_append, hts, hus, List.map_append]

theorem any_rest_append (hx : any (clauses ts) depth xs) (hy : rest [] [] depth ys) :
    any (rest ts) depth (xs ++ ys) := by
  obtain ⟨heads, hx⟩ := hx
  have hrest := rest_append hx hy
  rw [List.append_nil, List.append_nil] at hrest
  exact ⟨heads, hrest⟩

/-- The parts of a switch: labels, then items under them. -/
theorem sections_cons {labels : List LabelLine}
    (hx : xs = labels.map fun label => indent depth label.text)
    (hy : deeper (items ts) depth ys) (hz : sections us depth zs) :
    sections (ts ++ us) depth (xs ++ (ys ++ zs)) := by
  obtain ⟨is, rfl, hts⟩ := hy
  obtain ⟨ss, rfl, hus⟩ := hz
  refine ⟨⟨labels, is⟩ :: ss, by rw [hx]; rfl, ?_⟩
  rw [Section.triesOf, hts, hus, List.map_append]

end Shape

namespace Lower
open Shape
variable {α β : Type} {X Y Z : Shape} {P : α → Prop} {Q : β → Prop} {m : Lower α}
  {f : α → Lower β}

/-- If `m` succeeds, it comes back to its level, yields something with the property and has written
lines of the shape. -/
def Lays (X : Shape) (P : α → Prop) (m : Lower α) : Prop := ∀ s a t, m s = (.ok a, t) →
  t.depth = s.depth ∧ P a ∧ ∃ lines, t.lines = s.lines ++ lines ∧ X s.depth lines

namespace Lays

theorem mono (hm : Lays X P m) (h : ∀ {depth xs}, X depth xs → Y depth xs) : Lays Y P m := by
  intro s a t hrun
  obtain ⟨hdepth, ha, lines, hlines, hX⟩ := hm s a t hrun
  exact ⟨hdepth, ha, lines, hlines, h hX⟩

theorem pure {a : α} (h : P a) : Lays nothing P (Pure.pure a : Lower α) := by
  intro s b t hrun
  obtain ⟨rfl, rfl⟩ := ok_of_pure hrun
  exact ⟨rfl, h, [], (List.append_nil _).symm, rfl⟩

/-- No items at all. -/
theorem idle {a : α} (h : P a) : Lays (items []) P (Pure.pure a : Lower α) :=
  (pure h).mono fun hx => hx ▸ items_nil

theorem throw (e : LowerError) : Lays X P (MonadExcept.throw e : Lower α) := by
  intro s a t hrun
  cases hrun

theorem bind (law : ∀ {depth xs ys}, X depth xs → Y depth ys → Z depth (xs ++ ys))
    (hm : Lays X P m) (hf : ∀ a, P a → Lays Y Q (f a)) : Lays Z Q (m >>= f) := by
  intro s b t hrun
  obtain ⟨a, u, h₁, h₂⟩ := ok_of_bind hrun
  obtain ⟨hdepth, ha, xs, hxs, hX⟩ := hm s a u h₁
  obtain ⟨hdepth', hb, ys, hys, hY⟩ := hf a ha u b t h₂
  refine ⟨hdepth'.trans hdepth, hb, xs ++ ys, ?_, law hX (hdepth ▸ hY)⟩
  rw [hys, hxs, List.append_assoc]

/-- The first step writes nothing. -/
theorem after (hm : Lays nothing P m) (hf : ∀ a, P a → Lays Y Q (f a)) : Lays Y Q (m >>= f) :=
  hm.bind (fun hx hy => by rwa [show _ = [] from hx, List.nil_append]) hf

/-- The second step writes nothing. -/
theorem next (hm : Lays X P m) (hf : ∀ a, P a → Lays nothing Q (f a)) : Lays X Q (m >>= f) :=
  hm.bind (fun hx hy => by rwa [show _ = [] from hy, List.append_nil]) hf

theorem seq {ts us : List TryForm} (hm : Lays (items ts) P m)
    (hf : ∀ a, P a → Lays (items us) Q (f a)) : Lays (items (ts ++ us)) Q (m >>= f) :=
  hm.bind items_append hf

theorem three {U V W : Shape} {m n o : Lower Unit}
    (law : ∀ {depth xs ys zs}, U depth xs → V depth ys → W depth zs →
      X depth (xs ++ (ys ++ zs)))
    (hm : Lays U (fun _ => True) m) (hn : Lays V (fun _ => True) n)
    (ho : Lays W (fun _ => True) o) : Lays X (fun _ => True) (do m; n; o) := by
  intro s a t hrun
  obtain ⟨⟨⟩, u, h₁, hrun⟩ := ok_of_bind hrun
  obtain ⟨⟨⟩, v, h₂, h₃⟩ := ok_of_bind hrun
  obtain ⟨hu, -, xs, hxs, hU⟩ := hm s () u h₁
  obtain ⟨hv, -, ys, hys, hV⟩ := hn u () v h₂
  obtain ⟨ht, -, zs, hzs, hW⟩ := ho v a t h₃
  refine ⟨ht.trans (hv.trans hu), trivial, xs ++ (ys ++ zs), ?_, ?_⟩
  · rw [hzs, hys, hxs, List.append_assoc, List.append_assoc]
  · exact law hU (hu ▸ hV) (hu ▸ hv ▸ hW)

theorem indented (hm : Lays X P m) : Lays (deeper X) P (Lower.indented m) := by
  intro s a t hrun
  obtain ⟨u, hu, rfl⟩ := ok_of_indented hrun
  obtain ⟨hdepth, ha, hlines⟩ := hm _ a u hu
  refine ⟨?_, ha, hlines⟩
  change u.depth - 1 = s.depth
  rw [hdepth]
  rfl

theorem silent {env : Surroundings} {A : List Site} (hm : env.Silent A m)
    (h : ∀ s a t, m s = (.ok a, t) → P a) : Lays nothing P m := by
  intro s a t hrun
  refine ⟨hm.depth_eq hrun, h s a t hrun, [], ?_, rfl⟩
  rw [hm.lines_eq hrun, List.append_nil]

theorem quiet {env : Surroundings} {A : List Site} (hm : env.Silent A m) :
    Lays nothing (fun _ => True) m := .silent hm fun _ _ _ _ => trivial

end Lays

end Lower

end Recast
