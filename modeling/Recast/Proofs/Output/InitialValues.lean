import Mathlib.Data.List.DropRight
import Recast.Program.Discovery
import Recast.Proofs.Lowering.Accesses
import Recast.TypeScript.Page

/-! # Initial values on two ways

A literal that is the initial value of a variable is kept as text, signs and all, and the page reads
that text again to drop the letters at its end that give the type of a number. Lowering the same
literal drops them first and puts the signs in front afterwards. The two agree unless a sign hides
from the page that the number is hexadecimal, or that there is a number at all.
-/
namespace Recast

inductive Expr.SignedLiteral (kind : LiteralKind) (text : String) : Nat → Expr → Prop
  | literal (id : NodeId) : SignedLiteral kind text 0 (.literal id kind text)
  | minus (id : NodeId) {n : Nat} {e : Expr} (he : SignedLiteral kind text n e) :
    SignedLiteral kind text (n + 1) (.prefixUnary id .minus e)

/-- The literal is a number that starts with a digit or a point, a string or a character. -/
def LiteralKind.spells (kind : LiteralKind) (text : String) : Bool :=
  match kind with
  | .numeric => text.toList.head?.any fun c => c.isDigit || c == '.'
  | .string | .char => true
  | _ => false

namespace Text

theorem toList_times_minus (n : Nat) : (times n "-").toList = List.replicate n '-' := by
  induction n with
  | zero => rfl
  | succ n ih =>
    rw [times, String.toList_append, ih, List.replicate_succ]
    rfl

theorem toList_trimEnd (a : Char → Bool) (s : String) :
    (trimEnd a s).toList = s.toList.rdropWhile a := by
  rw [trimEnd, String.toList_ofList]
  rfl

/-- What dropping some characters at the end leaves, dropping more characters leaves as well exactly
if it does not end in one of these. -/
theorem rdropWhile_eq_rdropWhile_iff {a b : Char → Bool} (hab : ∀ c, a c = true → b c = true)
    (cs : List Char) : cs.rdropWhile b = cs.rdropWhile a ↔
      ∀ c ∈ (cs.rdropWhile a).getLast?, b c = false := by
  have htwice : cs.rdropWhile b = (cs.rdropWhile a).rdropWhile b := by
    induction cs using List.reverseRecOn with
    | nil => rfl
    | append_singleton cs c ih =>
      by_cases ha : a c = true
      · simp [ha, hab c ha, ih]
      · simp [ha]
  rw [htwice, List.rdropWhile_eq_self_iff]
  cases cs.rdropWhile a using List.reverseRecOn with
  | nil => simp
  | append_singleton cs c => simp

theorem rdropWhile_cons {a : Char → Bool} {c : Char} (hc : a c = false) (cs : List Char) :
    (c :: cs).rdropWhile a = c :: cs.rdropWhile a := by
  induction cs using List.reverseRecOn with
  | nil => simp [List.rdropWhile_singleton, hc]
  | append_singleton cs d ih =>
    rw [← List.cons_append, List.rdropWhile_concat, List.rdropWhile_concat, ih]
    split <;> rfl

end Text

/-- Lowering puts the signs in front of what is written for the literal. -/
theorem Surroundings.yields_signedLiteral {env : Surroundings}
    (henv : env.dialect = TypeScript.dialect) {kind : LiteralKind} {text : String} {n : Nat}
    {e : Expr} (he : e.SignedLiteral kind text n) (owner : Option ClassId) (s : LowerState) :
    Lower.Yields s (fun l => l.code = Text.times n "-" ++ TypeScript.literal kind text)
      (env.expr owner e) := by
  induction he generalizing owner s with
  | literal id =>
    refine .isolated (.pure ?_)
    change env.dialect.literal kind text = "" ++ TypeScript.literal kind text
    rw [henv, String.empty_append]
    rfl
  | minus id he ih =>
    refine .isolated ((ih none s).bind fun l t _ hl => .pure ?_)
    change env.dialect.prefixUnary .minus l.code = _
    rw [henv, hl, Text.times, String.append_assoc]
    rfl

namespace TypeScript
variable {kind : LiteralKind} {text : String} {n : Nat} {e : Expr}

/-- The letters at the end of a number that may give its type. -/
def typeLetters : List Char := "fFdDmMlLuU".toList

def endsInLetter (text : String) : Bool := text.toList.getLast?.any (typeLetters.contains ·)

def keptText (kind : LiteralKind) (text : String) : String :=
  match kind with
  | .string => "\"" ++ text ++ "\""
  | .char => "'" ++ text ++ "'"
  | _ => text

theorem literalText?_signedLiteral (he : e.SignedLiteral kind text n) :
    e.literalText? = some (Text.times n "-" ++ keptText kind text) := by
  induction he with
  | literal id =>
    rw [Text.times, String.empty_append]
    cases kind <;> rfl
  | minus id he ih => rw [Expr.literalText?, ih, Option.map_some, Text.times, String.append_assoc]

def startsNumber (c : Char) : Bool := ('0' ≤ c && c ≤ '9') || c == '.'

/-- The page looks behind one sign. -/
def afterSign : List Char → List Char
  | '-' :: cs => cs
  | cs => cs

theorem initialValue?_eq (h : text ≠ "default") : initialValue? text =
    some (if (afterSign text.toList).head?.any startsNumber then stripSuffix text else text) := by
  unfold initialValue?
  rw [if_neg (by simpa using h)]
  exact (apply_ite some _ _ _).symm

theorem stripSuffix_negated (text : String) :
    stripSuffix ("-" ++ text) = "-" ++ Text.trimEnd (typeLetters.contains ·) text := by
  have hno : ¬ (Text.startsWith ("-" ++ text) "0x" ||
      Text.startsWith ("-" ++ text) "0X") = true := by
    simp [Text.startsWith]
  rw [stripSuffix, if_neg hno, ← String.toList_inj, Text.toList_trimEnd, String.toList_append,
    String.toList_append, Text.toList_trimEnd]
  exact Text.rdropWhile_cons (by decide) _

/-- Without the letters of its type a number is what dropping all such letters leaves exactly if no
digit at its end is taken for one. -/
theorem trimEnd_eq_stripSuffix_iff (text : String) :
    Text.trimEnd (typeLetters.contains ·) text = stripSuffix text ↔
      endsInLetter (stripSuffix text) = false := by
  have hiff (letters : List Char) (hsub : letters.all (typeLetters.contains ·) = true)
      (hstrip : stripSuffix text = Text.trimEnd (letters.contains ·) text) :
      Text.trimEnd (typeLetters.contains ·) text = stripSuffix text ↔
        endsInLetter (stripSuffix text) = false := by
    rw [hstrip, ← String.toList_inj, Text.toList_trimEnd, Text.toList_trimEnd,
      Text.rdropWhile_eq_rdropWhile_iff (by simpa using hsub), endsInLetter, Text.toList_trimEnd]
    cases (text.toList.rdropWhile (letters.contains ·)).getLast? <;> simp
  by_cases hex : (Text.startsWith text "0x" || Text.startsWith text "0X") = true
  · refine hiff "lLuU".toList (by decide) ?_
    rw [stripSuffix, if_pos hex]
  · refine hiff typeLetters (by decide) ?_
    rw [stripSuffix, if_neg hex]
    rfl

/-- The letters of a type are dropped only if at most one sign stands in front of the number. -/
theorem initialValue?_signed {raw : String} {c : Char} {cs : List Char}
    (hraw : raw.toList = c :: cs) (hsign : c ≠ '-') (hdefault : c ≠ 'd') (n : Nat) :
    initialValue? (Text.times n "-" ++ raw) = some (if n < 2 ∧ startsNumber c = true then
      stripSuffix (Text.times n "-" ++ raw) else Text.times n "-" ++ raw) := by
  have hlist : (Text.times n "-" ++ raw).toList = List.replicate n '-' ++ c :: cs := by
    rw [String.toList_append, Text.toList_times_minus, hraw]
  have hne : Text.times n "-" ++ raw ≠ "default" := by
    intro h
    rw [h] at hlist
    cases n with
    | zero => exact hdefault (List.head_eq_of_cons_eq hlist).symm
    | succ n => exact absurd (List.head_eq_of_cons_eq hlist) (by decide)
  rw [initialValue?_eq hne, hlist]
  congr 1
  cases n with
  | zero =>
    have hafter : afterSign (c :: cs) = c :: cs := by
      unfold afterSign
      split
      · next h => exact absurd (List.head_eq_of_cons_eq h) hsign
      · rfl
    simp [hafter]
  | succ n =>
    cases n with
    | zero => simp [afterSign]
    | succ n =>
      have hmany : ¬ n + 1 + 1 < 2 := by omega
      have hminus : startsNumber '-' = false := by decide
      simp [afterSign, List.replicate_succ, hminus, hmany]

theorem startsNumber_eq (c : Char) : startsNumber c = (c.isDigit || c == '.') := by
  simp [startsNumber, Char.isDigit, Char.le_def]

/-- The page finds out by the first character whether a literal is a number. -/
theorem exists_start_keptText (hk : kind.spells text = true) : ∃ c cs,
    (keptText kind text).toList = c :: cs ∧ c ≠ '-' ∧ c ≠ 'd' ∧
      (startsNumber c = true ↔ kind = .numeric) := by
  cases kind with
  | numeric =>
    cases hlist : text.toList with
    | nil => simp [LiteralKind.spells, hlist] at hk
    | cons c cs =>
      rw [LiteralKind.spells, hlist, List.head?_cons, Option.any_some, ← startsNumber_eq] at hk
      have hother (d : Char) (hd : startsNumber d = false) : c ≠ d := by
        rintro rfl
        exact absurd hk (by simp [hd])
      exact ⟨c, cs, hlist, hother '-' (by decide), hother 'd' (by decide), by simp [hk]⟩
  | string =>
    exact ⟨'"', text.toList ++ ['"'], by simp [keptText], by decide, by decide, by decide⟩
  | char =>
    exact ⟨'\'', text.toList ++ ['\''], by simp [keptText], by decide, by decide, by decide⟩
  | boolTrue | boolFalse | null | default => simp [LiteralKind.spells] at hk

def printed (n : Nat) (kind : LiteralKind) (text : String) : String :=
  let kept := Text.times n "-" ++ keptText kind text
  if n < 2 ∧ kind = .numeric then stripSuffix kept else kept

theorem initialValue?_keptText (hk : kind.spells text = true) (n : Nat) :
    initialValue? (Text.times n "-" ++ keptText kind text) = some (printed n kind text) := by
  obtain ⟨c, cs, hlist, hsign, hdefault, hstart⟩ := exists_start_keptText hk
  rw [initialValue?_signed hlist hsign hdefault]
  exact congrArg some (if_congr (and_congr_right fun _ => hstart) rfl rfl)

/-- The page writes the code of the literal exactly if no sign keeps it from seeing that there is a
number, or in which base. -/
theorem printed_eq_code_iff (hk : kind.spells text = true) (n : Nat) :
    printed n kind text = Text.times n "-" ++ literal kind text ↔
      (kind = .numeric →
        (n = 1 → endsInLetter (stripSuffix text) = false) ∧ (2 ≤ n → stripSuffix text = text)) := by
  cases kind with
  | numeric =>
    unfold printed
    dsimp only [keptText, literal]
    cases n with
    | zero => simp [Text.times]
    | succ n =>
      cases n with
      | zero =>
        have hone : Text.times (0 + 1) "-" = "-" := rfl
        rw [if_pos (by simp), hone, stripSuffix_negated, String.append_right_inj,
          trimEnd_eq_stripSuffix_iff]
        exact ⟨fun h _ => ⟨fun _ => h, fun h => by omega⟩, fun h => (h rfl).1 rfl⟩
      | succ n =>
        rw [if_neg (by omega), String.append_right_inj]
        exact ⟨fun h _ => ⟨fun h => by omega, fun _ => h.symm⟩,
          fun h => ((h rfl).2 (by omega)).symm⟩
  | string | char => simp [printed, keptText, literal]
  | boolTrue | boolFalse | null | default => simp [LiteralKind.spells] at hk

def variableHead (l : Lowering) (v : Variable) : String :=
  accessWord v.access ++ when v.isStatic "static " ++ when v.isReadonly "readonly " ++
    v.emittedName ++ ": " ++ ((tables l).spell v.ty).text

def valueLine (l : Lowering) (v : Variable) (value : String) : Sheet :=
  .line 1 (variableHead l v ++ " = " ++ value ++ ";")

theorem Sheet.line_inj {level : Nat} {a b : String} (h : Sheet.line level a = Sheet.line level b) :
    a = b := by
  have hline := congrArg Sheet.lines h
  simp only [Sheet.line, List.cons.injEq, and_true, beq_iff_eq] at hline
  by_cases ha : a = "" <;> by_cases hb : b = "" <;> simp_all

theorem valueLine_inj {l : Lowering} {v : Variable} {a b : String}
    (h : valueLine l v a = valueLine l v b) : a = b := by
  have hline := Sheet.line_inj h
  simpa using hline

theorem plainVariable_withInitial {raw value : String} (hraw : e.literalText? = some raw)
    (hvalue : initialValue? raw = some value) (l : Lowering) (id : ClassId) (index : Nat)
    (v : Variable) :
    plainVariable l id index (v.withInitial (some e)) = .ok (valueLine l v value) := by
  rw [Variable.withInitial, hraw]
  change Except.ok _ = _
  rw [hvalue]
  rfl

/-- Every variable with the initial value is written with the code that lowering the value gives. -/
def WrittenAsLowered (e : Expr) : Prop :=
  ∀ (l : Lowering) (id : ClassId) (index : Nat) (v : Variable) (env : Surroundings)
    (owner : Option ClassId) (s : LowerState), env.dialect = dialect →
    ∃ value t, env.expr owner e s = (.ok value, t) ∧
      plainVariable l id index (v.withInitial (some e)) = .ok (valueLine l v value.code)

theorem WrittenAsLowered.printed_eq (h : WrittenAsLowered e) (he : e.SignedLiteral kind text n)
    (hk : kind.spells text = true) :
    printed n kind text = Text.times n "-" ++ literal kind text := by
  obtain ⟨value, t, hrun, hwritten⟩ := h ⟨{}, dialect, {}⟩ 0 0 { name := "", ty := .object "" }
    ⟨{}, dialect, {}, {}, ""⟩ none {} rfl
  rw [plainVariable_withInitial (literalText?_signedLiteral he) (initialValue?_keptText hk n),
    Except.ok.injEq] at hwritten
  rw [valueLine_inj hwritten]
  exact (Surroundings.yields_signedLiteral rfl he none {}).elim hrun

/-- A number, string or character under any number of signs is written as it is lowered, except for
a negated hexadecimal number that ends in a digit which is also the letter of a type, and a number
under several signs that ends in the letter of its type. -/
theorem writtenAsLowered_iff (he : e.SignedLiteral kind text n) (hk : kind.spells text = true) :
    WrittenAsLowered e ↔ (kind = .numeric →
      (n = 1 → endsInLetter (stripSuffix text) = false) ∧ (2 ≤ n → stripSuffix text = text)) := by
  rw [← printed_eq_code_iff hk n]
  constructor
  · intro h
    exact h.printed_eq he hk
  · intro h l id index v env owner s henv
    obtain ⟨value, t, hrun, hcode⟩ := Surroundings.yields_signedLiteral henv he owner s
    refine ⟨value, t, hrun, ?_⟩
    rw [plainVariable_withInitial (literalText?_signedLiteral he) (initialValue?_keptText hk n), h,
      ← hcode]

/-- A number under one sign. -/
def negated (text : String) : Expr := .prefixUnary 0 .minus (.literal 0 .numeric text)

theorem negated_signedLiteral (text : String) : (negated text).SignedLiteral .numeric text 1 :=
  .minus 0 (.literal 0)

theorem negated_writtenAsLowered : LiteralKind.numeric.spells "0x1AUL" = true ∧
    stripSuffix "0x1AUL" = "0x1A" ∧ WrittenAsLowered (negated "0x1AUL") := by
  have hstrip : stripSuffix "0x1AUL" = "0x1A" := by decide
  refine ⟨by decide, hstrip, (writtenAsLowered_iff (negated_signedLiteral _) (by decide)).mpr ?_⟩
  intro _
  exact ⟨fun _ => by rw [hstrip]; decide, fun h => absurd h (by decide)⟩

/-- The last digits of a negated hexadecimal number are lost, and a number under two signs keeps the
letter of its type. -/
theorem negated_not_writtenAsLowered : ¬ WrittenAsLowered (negated "0xFF") ∧
    ¬ WrittenAsLowered (.prefixUnary 0 .minus (negated "1.5f")) := by
  constructor
  · intro h
    have hcode := h.printed_eq (negated_signedLiteral _) (by decide)
    have hprinted : printed 1 .numeric "0xFF" = "-0x" := by decide
    rw [hprinted] at hcode
    exact absurd hcode (by decide)
  · intro h
    have hcode := h.printed_eq (.minus 0 (negated_signedLiteral "1.5f")) (by decide)
    have hprinted : printed 2 .numeric "1.5f" = "--1.5f" := by decide
    rw [hprinted] at hcode
    exact absurd hcode (by decide)

end TypeScript

end Recast
