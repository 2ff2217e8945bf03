import Mathlib.Logic.ExistsUnique
import Recast.Proofs.Lowering.Runs
import Recast.TypeScript.Dialect

/-! # What the code of a creation shows

Creating an object lowers the type, the arguments of the constructor and the initializer, creating
an array lowers the type, the sizes and the initializer, and the dialect chooses a form for them.
The initializer is always written. Arguments are written unless the type is an array, and a size is
written if there is no initializer whose elements give it.
-/
namespace Recast

namespace Text

theorem contains_self (s : String) : contains s s = true := contains_iff.mpr (List.infix_refl _)

theorem contains_append_left {s : String} {needle : String} (h : contains s needle = true)
    (before : String) : contains (before ++ s) needle = true := by
  rw [contains_iff, String.toList_append]
  exact List.infix_append_of_infix_right (contains_iff.mp h)

theorem contains_append_right {s : String} {needle : String} (h : contains s needle = true)
    (after : String) : contains (s ++ after) needle = true := by
  rw [contains_iff, String.toList_append]
  exact List.infix_append_of_infix_left (contains_iff.mp h)

/-- Each of several texts stands in the text that lists them. -/
theorem contains_intercalate {texts : List String} {text : String} (h : text ∈ texts)
    (separator : String) : contains (String.intercalate separator texts) text = true := by
  induction texts with
  | nil => exact absurd h List.not_mem_nil
  | cons first rest ih =>
    cases rest with
    | nil =>
      rw [List.mem_singleton.mp h, String.intercalate_singleton]
      exact contains_self first
    | cons second rest =>
      rw [String.intercalate_cons_cons]
      rcases List.mem_cons.mp h with rfl | h
      · exact contains_append_right (contains_append_right (contains_self text) _) _
      · exact contains_append_left (ih h) _

end Text

/-- A type, operands and an initializer as code. -/
structure CreationParts where
  type : String
  operands : List String
  initializer : Option String

namespace Surroundings
open Lower
variable (env : Surroundings)

/-- Operands lowered one after the other, each to the code that is passed for it. -/
inductive LowersEach : LowerState → List Argument → List String → LowerState → Prop
  | nil (s : LowerState) : LowersEach s [] [] s
  | cons {s t u : LowerState} {a : Argument} {args : List Argument} {code : String}
      {hoists : Hoists} {codes : List String}
      (ha : env.argument a.passing a.expr (env.expr none a.expr) s = (.ok ⟨[code], hoists⟩, t))
      (hs : LowersEach t args codes u) : LowersEach s (a :: args) (code :: codes) u

/-- An initializer, if there is one, lowered to its code. -/
inductive LowersInitializer (owner : Option ClassId) (s : LowerState) :
    Option Expr → Option String → Prop
  | absent : LowersInitializer owner s none none
  | present {e : Expr} {l : Lowered} {t : LowerState} (he : env.expr owner e s = (.ok l, t)) :
    LowersInitializer owner s (some e) (some l.code)

/-- A creation has these parts when it is lowered. -/
inductive Creates (s : LowerState) : Expr → CreationParts → Prop
  | object (id : NodeId) {ty : SourceType} {args : List Argument} {init : Option Expr}
      {p : CreationParts} {t u : LowerState} (hty : env.spell (.ofType ty) s = (.ok p.type, t))
      (hargs : env.LowersEach t args p.operands u)
      (hinit : env.LowersInitializer (ty.simpleName?.bind env.program.find?) u init p.initializer) :
    Creates s (.objectCreation id ty args init) p
  | array (id : NodeId) {element : SourceType} {sizes : List Expr} {init : Option Expr}
      {p : CreationParts} {t u : LowerState}
      (hty : env.spell (.ofType element) s = (.ok p.type, t))
      (hsizes : env.LowersEach t (sizes.map (Argument.mk .value)) p.operands u)
      (hinit : env.LowersInitializer none u init p.initializer) :
    Creates s (.arrayCreation id element sizes init) p

variable {env} {s t : LowerState}

theorem LowersEach.unique {args : List Argument} {codes codes' : List String} {t' : LowerState}
    (h : env.LowersEach s args codes t) (h' : env.LowersEach s args codes' t') :
    codes = codes' ∧ t = t' := by
  induction h generalizing codes' with
  | nil s =>
    cases h'
    exact ⟨rfl, rfl⟩
  | cons ha _ ih =>
    cases h' with
    | cons ha' hs' =>
      cases ha.symm.trans ha'
      obtain ⟨rfl, rfl⟩ := ih hs'
      exact ⟨rfl, rfl⟩

theorem LowersInitializer.unique {owner : Option ClassId} {init : Option Expr}
    {code code' : Option String} (h : env.LowersInitializer owner s init code)
    (h' : env.LowersInitializer owner s init code') : code = code' := by
  cases h with
  | absent =>
    cases h'
    rfl
  | present he =>
    cases h' with
    | present he' =>
      cases he.symm.trans he'
      rfl

/-- A creation has one list of parts only. -/
theorem Creates.unique {e : Expr} {p q : CreationParts} (hp : env.Creates s e p)
    (hq : env.Creates s e q) : p = q := by
  obtain ⟨type, operands, init⟩ := p
  obtain ⟨type', operands', init'⟩ := q
  cases hp with
  | object id hty hargs hinit =>
    cases hq with
    | object _ hty' hargs' hinit' =>
      cases hty.symm.trans hty'
      obtain ⟨rfl, rfl⟩ := hargs.unique hargs'
      obtain rfl := hinit.unique hinit'
      rfl
  | array id hty hsizes hinit =>
    cases hq with
    | array _ hty' hsizes' hinit' =>
      cases hty.symm.trans hty'
      obtain ⟨rfl, rfl⟩ := hsizes.unique hsizes'
      obtain rfl := hinit.unique hinit'
      rfl

/-- An argument is passed as one piece of code. -/
theorem gives_argument (passing : Passing) (e : Expr) (lowered : Lower Lowered) :
    Gives (fun r => ∃ code, r.codes = [code]) (env.argument passing e lowered) := by
  have hboxed (withValue : Bool) :
      Gives (fun r => ∃ code, r.codes = [code]) (lowered >>= fun l => env.boxed l withValue) :=
    .bind fun l => .bind fun temp => .pure ⟨_, rfl⟩
  have hplain : Gives (fun r : LoweredArgs => ∃ code, r.codes = [code])
      (lowered >>= fun l => pure ⟨[l.code], l.hoists⟩) := .bind fun l => .pure ⟨_, rfl⟩
  unfold argument
  split
  · exact .bind fun _ => .bind fun _ => .bind fun _ => .pure ⟨_, rfl⟩
  · exact hboxed false
  · exact hboxed true
  · exact hplain

theorem lowersEach_of_arguments {args : List Argument} {r : LoweredArgs}
    (h : env.arguments args s = (.ok r, t)) : env.LowersEach s args r.codes t := by
  induction args generalizing s r with
  | nil =>
    obtain ⟨rfl, rfl⟩ := ok_of_pure h
    exact .nil s
  | cons a args ih =>
    obtain ⟨passing, e⟩ := a
    rw [arguments] at h
    obtain ⟨first, u, h₁, h₂⟩ := ok_of_bind h
    obtain ⟨rest, h₃, rfl⟩ := ok_of_map h₂
    obtain ⟨code, hcode⟩ := gives_argument _ _ _ s first u h₁
    obtain ⟨codes, hoists⟩ := first
    subst hcode
    exact .cons h₁ (ih h₃)

theorem lowersEach_of_exprs {es : List Expr} {r : LoweredArgs} (h : env.exprs es s = (.ok r, t)) :
    env.LowersEach s (es.map (Argument.mk .value)) r.codes t := by
  induction es generalizing s r with
  | nil =>
    obtain ⟨rfl, rfl⟩ := ok_of_pure h
    exact .nil s
  | cons e es ih =>
    rw [exprs] at h
    obtain ⟨l, u, h₁, h₂⟩ := ok_of_bind h
    obtain ⟨rest, h₃, rfl⟩ := ok_of_map h₂
    exact .cons (bind_of_ok h₁) (ih h₃)

theorem code_objectCreation {owner : Option ClassId} {id : NodeId} {ty : SourceType}
    {args : List Argument} {init : Option Expr} {l : Lowered}
    (h : env.expr owner (.objectCreation id ty args init) s = (.ok l, t)) :
    ∃ p constructor, env.Creates s (.objectCreation id ty args init) p ∧
      l.code = env.dialect.objectCreation p.type constructor p.operands p.initializer := by
  rw [expr.eq_def] at h
  obtain ⟨u, h, -⟩ := ok_of_isolated h
  obtain ⟨type, v, hty, h⟩ := ok_of_bind h
  obtain ⟨rest, w, hargs, h⟩ := ok_of_bind h
  cases init with
  | none =>
    obtain ⟨rfl, -⟩ := ok_of_pure h
    exact ⟨⟨type, rest.codes, none⟩, _, .object id hty (lowersEach_of_arguments hargs) .absent, rfl⟩
  | some init =>
    obtain ⟨value, hinit, rfl⟩ := ok_of_map h
    exact ⟨⟨type, rest.codes, some value.code⟩, _,
      .object id hty (lowersEach_of_arguments hargs) (.present hinit), rfl⟩

theorem code_arrayCreation {owner : Option ClassId} {id : NodeId} {element : SourceType}
    {sizes : List Expr} {init : Option Expr} {l : Lowered}
    (h : env.expr owner (.arrayCreation id element sizes init) s = (.ok l, t)) :
    ∃ p, env.Creates s (.arrayCreation id element sizes init) p ∧
      l.code = env.dialect.arrayCreation p.type p.operands p.initializer := by
  rw [expr.eq_def] at h
  obtain ⟨u, h, -⟩ := ok_of_isolated h
  obtain ⟨type, v, hty, h⟩ := ok_of_bind h
  obtain ⟨rest, w, hsizes, h⟩ := ok_of_bind h
  cases init with
  | none =>
    obtain ⟨rfl, -⟩ := ok_of_pure h
    exact ⟨⟨type, rest.codes, none⟩, .array id hty (lowersEach_of_exprs hsizes) .absent, rfl⟩
  | some init =>
    obtain ⟨value, hinit, rfl⟩ := ok_of_map h
    exact ⟨⟨type, rest.codes, some value.code⟩,
      .array id hty (lowersEach_of_exprs hsizes) (.present hinit), rfl⟩

end Surroundings

def Expr.isObjectCreation : Expr → Bool
  | .objectCreation .. => true
  | _ => false

def Expr.isArrayCreation : Expr → Bool
  | .arrayCreation .. => true
  | _ => false

namespace TypeScript
open Text
variable {ty code : String} {args : List String}

theorem contains_assigned {created : String} (h : contains created code = true) (init : String) :
    contains ("Object.assign(" ++ created ++ ", " ++ init ++ ")") code = true :=
  contains_append_right (contains_append_right (contains_append_right
    (contains_append_left h _) _) _) _

/-- The arguments are in the code of an object whose type is not written as an array. -/
theorem contains_objectCreation (hty : endsWith ty "[]" = false) (h : code ∈ args)
    (constructor init : Option String) :
    contains (objectCreation ty constructor args init) code = true := by
  have hne : args.isEmpty = false := List.isEmpty_eq_false_iff_exists_mem.mpr ⟨code, h⟩
  have hcall (callee : String) : contains (callee ++ "(" ++ commas args ++ ")") code = true :=
    contains_append_right (contains_append_left (contains_intercalate h _) _) _
  unfold objectCreation
  rw [if_neg (by simp [hty])]
  cases constructor with
  | none =>
    cases init with
    | none => exact hcall _
    | some init =>
      dsimp only
      rw [if_neg (by simp [hne])]
      exact contains_assigned (hcall _) init
  | some name =>
    cases init with
    | none => exact hcall _
    | some init =>
      dsimp only
      rw [if_neg (by simp)]
      exact contains_assigned (hcall _) init

/-- The initializer is in the code of an object, whatever form the code takes. -/
theorem contains_objectCreation_initializer (ty : String) (constructor : Option String)
    (args : List String) (init : String) :
    contains (objectCreation ty constructor args (some init)) init = true := by
  have hlast (before after : String) : contains (before ++ init ++ after) init = true :=
    contains_append_right (contains_append_left (contains_self init) _) _
  unfold objectCreation
  split
  · exact contains_self init
  · dsimp only
    split
    · exact hlast _ _
    · exact hlast _ _

/-- What the code of a creation shows of its parts. -/
structure ShowsParts (e : Expr) (p : CreationParts) (code : String) : Prop where
  initializer : ∀ text ∈ p.initializer, contains code text = true
  arguments : e.isObjectCreation = true → endsWith p.type "[]" = false →
    ∀ text ∈ p.operands, contains code text = true
  /-- There is one size, unless an array of several dimensions is made. -/
  size : e.isArrayCreation = true → p.initializer = none →
    ∀ text ∈ p.operands.head?, contains code text = true

theorem showsParts_object (id : NodeId) (written : SourceType) (args : List Argument)
    (init : Option Expr) (p : CreationParts) (constructor : Option String) :
    ShowsParts (.objectCreation id written args init) p
      (objectCreation p.type constructor p.operands p.initializer) where
  initializer text htext := by
    rw [Option.mem_def.mp htext]
    exact contains_objectCreation_initializer ..
  arguments _ hty text htext := contains_objectCreation hty htext constructor p.initializer
  size h := absurd h (by simp [Expr.isArrayCreation])

theorem showsParts_array (id : NodeId) (element : SourceType) (sizes : List Expr)
    (init : Option Expr) (p : CreationParts) :
    ShowsParts (.arrayCreation id element sizes init) p
      (arrayCreation p.type p.operands p.initializer) where
  initializer text htext := by
    rw [Option.mem_def.mp htext]
    exact contains_self text
  arguments h := absurd h (by simp [Expr.isObjectCreation])
  size _ hinit text htext := by
    obtain ⟨rest, hsizes⟩ := List.head?_eq_some_iff.mp (Option.mem_def.mp htext)
    rw [hinit, hsizes]
    exact contains_append_right (contains_append_left (contains_self text) _) _

end TypeScript

namespace Surroundings
variable {env : Surroundings} {s t : LowerState}

/-- The code of every creation shows the codes of all its operands. -/
def KeepsOperands (env : Surroundings) : Prop :=
  ∀ (owner : Option ClassId) (s t : LowerState) (e : Expr) (l : Lowered) (p : CreationParts),
    env.expr owner e s = (.ok l, t) → env.Creates s e p →
      ∀ text ∈ p.operands, Text.contains l.code text = true

theorem exists_showsParts (hd : env.dialect = TypeScript.dialect) {owner : Option ClassId}
    {e : Expr} {l : Lowered} (he : e.isObjectCreation = true ∨ e.isArrayCreation = true)
    (h : env.expr owner e s = (.ok l, t)) :
    ∃ p, env.Creates s e p ∧ TypeScript.ShowsParts e p l.code := by
  cases e with
  | objectCreation id ty args init =>
    obtain ⟨p, constructor, hp, hcode⟩ := code_objectCreation h
    rw [hd] at hcode
    exact ⟨p, hp, hcode ▸ TypeScript.showsParts_object id ty args init p constructor⟩
  | arrayCreation id element sizes init =>
    obtain ⟨p, hp, hcode⟩ := code_arrayCreation h
    rw [hd] at hcode
    exact ⟨p, hp, hcode ▸ TypeScript.showsParts_array id element sizes init p⟩
  | _ => simp [Expr.isObjectCreation, Expr.isArrayCreation] at he

/-- The code of a creation shows its initializer. It shows the arguments of the constructor if the
type is not written as an array, and the size of an array that has no initializer. -/
theorem creation_showsParts (hd : env.dialect = TypeScript.dialect) {owner : Option ClassId}
    {e : Expr} {l : Lowered} (he : e.isObjectCreation = true ∨ e.isArrayCreation = true)
    (h : env.expr owner e s = (.ok l, t)) :
    (∃! p, env.Creates s e p) ∧ ∀ p, env.Creates s e p → TypeScript.ShowsParts e p l.code := by
  obtain ⟨p, hp, hshows⟩ := exists_showsParts hd he h
  refine ⟨⟨p, hp, fun q hq => hq.unique hp⟩, fun q hq => ?_⟩
  rwa [hq.unique hp]

def emptyProgram : Surroundings := ⟨{}, TypeScript.dialect, {}, {}, ""⟩

/-- `new Dog(7)` -/
def createsDog : Expr :=
  .objectCreation 0 (.named "Dog" []) [⟨.value, .literal 0 .numeric "7"⟩] none

theorem createsDog_showsParts :
    (∃! p, emptyProgram.Creates {} createsDog p) ∧ ∀ p, emptyProgram.Creates {} createsDog p →
      TypeScript.ShowsParts createsDog p "new Dog(7)" := by
  have hrun : emptyProgram.expr none createsDog {} =
      (.ok { code := "new Dog(7)", ty := some (.object "Dog") }, {}) := rfl
  exact creation_showsParts rfl (.inl rfl) hrun

/-- `new int[1] { 5 }` -/
def sizedByElements : Expr :=
  .arrayCreation 0 (.predefined "int") [.literal 0 .numeric "1"]
    (some (.initializer 0 .array [.literal 0 .numeric "5"]))

theorem sizedByElements_not_keepsOperands : ¬ emptyProgram.KeepsOperands := by
  intro h
  have hparts : emptyProgram.Creates {} sizedByElements ⟨"int", ["1"], some "[5]"⟩ :=
    .array (t := {}) 0 rfl (.cons rfl (.nil {})) (.present (l := { code := "[5]" }) (t := {}) rfl)
  have hmem : "1" ∈ ["1"] := List.mem_singleton_self _
  exact absurd (h none {} _ sizedByElements _ _ rfl hparts "1" hmem) (by decide)

end Surroundings

end Recast
