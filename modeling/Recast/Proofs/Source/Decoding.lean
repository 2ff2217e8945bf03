import Recast.Source.Member

/-! # Trees are decoded to what they were encoded from

A decoder may go down a number of levels, and the depth of the value that it is given is enough.
The proofs follow the decoders: each part of a record is looked up under the name that it was
written under, and lies less deep than the record.
-/
namespace Recast

open Json (Decoder ofWord)

namespace Json

/-- The values of all members are nested at most so deep. -/
def Within (n : Nat) : List (String × Json) → Prop
  | [] => True
  | (_,j) :: fs => j.depth ≤ n ∧ Within n fs

theorem within_of_le {fields : List (String × Json)} {n : Nat} (h : fieldsDepth fields ≤ n) :
    Within n fields := by
  induction fields with
  | nil => trivial
  | cons f fs ih =>
    have hmax : max f.2.depth (fieldsDepth fs) ≤ n := h
    exact ⟨by omega,ih (by omega)⟩

/-- An object lies one level above its members. -/
theorem descend {fields : List (String × Json)} {n : Nat} (h : (Json.object fields).depth ≤ n) :
    ∃ m, n = m + 1 ∧ Within m fields := by
  have hdepth : fieldsDepth fields + 1 ≤ n := h
  exact ⟨n - 1,by omega,within_of_le (by omega)⟩

theorem itemsDepth_le {items : List Json} {n : Nat} (h : (Json.array items).depth ≤ n) :
    itemsDepth items ≤ n := by
  have hdepth : itemsDepth items + 1 ≤ n := h
  omega

theorem itemsDepth_cons {j : Json} {js : List Json} {n : Nat} (h : itemsDepth (j :: js) ≤ n) :
    j.depth ≤ n ∧ itemsDepth js ≤ n := by
  have hmax : max j.depth (itemsDepth js) ≤ n := h
  omega

theorem some_of_bind {α β : Type} {x : Option α} {a : α} {f : α → Option β} {b : β}
    (hx : x = some a) (hf : f a = some b) : (x >>= f) = some b := by
  rw [hx]
  exact hf

theorem mapM_cons_of_some {α : Type} {item : Decoder α} {j : Json} {js : List Json} {a : α}
    {as : List α} (h : item j = some a) (hs : js.mapM item = some as) :
    (j :: js).mapM item = some (a :: as) := by
  rw [List.mapM_cons, h, hs]
  rfl

/-- A list that is written item by item. -/
theorem mapM_map_of_some {α : Type} {item : Decoder α} {f : α → Json} {n : Nat}
    (h : ∀ a, (f a).depth ≤ n → item (f a) = some a) (as : List α)
    (hdepth : itemsDepth (as.map f) ≤ n) : (as.map f).mapM item = some as := by
  induction as with
  | nil => rfl
  | cons a as ih =>
    obtain ⟨ha,has⟩ := itemsDepth_cons hdepth
    exact mapM_cons_of_some (h a ha) (ih has)

theorem mapM_strings (xs : List String) : (xs.map Json.string).mapM Decoder.string = some xs := by
  induction xs with
  | nil => rfl
  | cons x xs ih => exact mapM_cons_of_some rfl ih

/-- What is there is read as such if `null` is not. -/
theorem optional_of_some {α : Type} {item : Decoder α} {j : Json} {a : α}
    (hnull : item .null = none) (h : item j = some a) :
    Decoder.optional item j = some (some a) := by
  cases j with
  | null =>
    rw [hnull] at h
    cases h
  | _ =>
    show (item _).map some = _
    rw [h]
    rfl

theorem optional_ofOption {α : Type} {item : Decoder α} {f : α → Json} {n : Nat}
    (hnull : item .null = none) (h : ∀ a, (f a).depth ≤ n → item (f a) = some a) (a : Option α)
    (hdepth : (ofOption f a).depth ≤ n) : Decoder.optional item (ofOption f a) = some a := by
  cases a with
  | none => rfl
  | some a => exact optional_of_some hnull (h a hdepth)

theorem optional_ofString? (s : Option String) :
    Decoder.optional Decoder.string (ofString? s) = some s := by
  cases s <;> rfl

theorem uint32_natural (n : UInt32) : Decoder.uint32 (.natural n.toNat) = some n := by
  show (if n.toNat < UInt32.size then some (UInt32.ofNat n.toNat) else none) = some n
  rw [if_pos n.toNat_lt, UInt32.ofNat_toNat]

theorem uint64_natural (n : UInt64) : Decoder.uint64 (.natural n.toNat) = some n := by
  show (if n.toNat < UInt64.size then some (UInt64.ofNat n.toNat) else none) = some n
  rw [if_pos n.toNat_lt, UInt64.ofNat_toNat]

theorem word_ofWord {α : Type} [Worded α] (a : α) : Decoder.word (ofWord a) = some a :=
  Worded.ofWord?_word a

end Json

open Json

theorem NodeId.uint32_toJson (id : NodeId) : Decoder.uint32 id.toJson = some id := uint32_natural id

/-! ## Types -/

namespace SourceType

theorem decode_null (n : Nat) : decode n .null = none := by
  cases n <;> rfl

mutual

theorem decode_toJson : (ty : SourceType) → {n : Nat} → ty.toJson.depth ≤ n →
    decode n ty.toJson = some ty
  | .predefined name, n, h => by
    obtain ⟨m,rfl,-⟩ := descend h
    exact some_of_bind rfl <| some_of_bind rfl <| some_of_bind rfl rfl
  | .named name args, n, h => by
    obtain ⟨m,rfl,-,-,hargs,-⟩ := descend h
    exact some_of_bind rfl <| some_of_bind rfl <| some_of_bind rfl <|
      some_of_bind (decode_toJsons args (itemsDepth_le hargs)) rfl
  | .qualified qualifier name args, n, h => by
    obtain ⟨m,rfl,-,-,-,hargs,-⟩ := descend h
    exact some_of_bind rfl <| some_of_bind rfl <| some_of_bind rfl <| some_of_bind rfl <|
      some_of_bind (decode_toJsons args (itemsDepth_le hargs)) rfl
  | .array element rank, n, h => by
    obtain ⟨m,rfl,-,helement,-⟩ := descend h
    exact some_of_bind rfl <| some_of_bind rfl <| some_of_bind (decode_toJson element helement) <|
      some_of_bind (uint32_natural rank) rfl
  | .nullable inner, n, h => by
    obtain ⟨m,rfl,-,hinner,-⟩ := descend h
    exact some_of_bind rfl <| some_of_bind rfl <| some_of_bind (decode_toJson inner hinner) rfl
  | .tuple elements, n, h => by
    obtain ⟨m,rfl,-,helements,-⟩ := descend h
    exact some_of_bind rfl <| some_of_bind rfl <|
      some_of_bind (decode_toJsons elements (itemsDepth_le helements)) rfl
  | .function params none, n, h => by
    obtain ⟨m,rfl,-,hparams,-⟩ := descend h
    exact some_of_bind rfl <| some_of_bind rfl <|
      some_of_bind (decode_toJsons params (itemsDepth_le hparams)) <| some_of_bind rfl rfl
  | .function params (some returns), n, h => by
    obtain ⟨m,rfl,-,hparams,hreturns,-⟩ := descend h
    exact some_of_bind rfl <| some_of_bind rfl <|
      some_of_bind (decode_toJsons params (itemsDepth_le hparams)) <|
        some_of_bind (optional_of_some (decode_null m) (decode_toJson returns hreturns)) rfl

theorem decode_toJsons : (tys : List SourceType) → {n : Nat} → itemsDepth (toJsons tys) ≤ n →
    (toJsons tys).mapM (decode n) = some tys
  | [], _, _ => rfl
  | ty :: tys, n, h => by
    obtain ⟨hty,htys⟩ := itemsDepth_cons h
    exact mapM_cons_of_some (decode_toJson ty hty) (decode_toJsons tys htys)

end

theorem ofJson?_toJson (ty : SourceType) : ofJson? ty.toJson = some ty :=
  ty.decode_toJson (Nat.le_refl _)

theorem optional_ofType? (ty : Option SourceType) {n : Nat} (h : (Json.ofType? ty).depth ≤ n) :
    Decoder.optional (decode n) (.ofType? ty) = some ty :=
  optional_ofOption (decode_null n) (fun ty => decode_toJson ty) ty h

end SourceType

/-! ## Expressions and statements -/

namespace LambdaParam

theorem decode_toJson (p : LambdaParam) {n : Nat} (h : p.toJson.depth ≤ n) :
    decode n p.toJson = some p := by
  obtain ⟨m,rfl,-,hty,-⟩ := descend h
  exact some_of_bind rfl <| some_of_bind rfl <|
    some_of_bind (SourceType.optional_ofType? p.ty (Nat.le_succ_of_le hty)) rfl

theorem decode_map_toJson (ps : List LambdaParam) {n : Nat}
    (h : itemsDepth (ps.map toJson) ≤ n) : (ps.map toJson).mapM (decode n) = some ps :=
  mapM_map_of_some (fun p => p.decode_toJson) ps h

end LambdaParam

mutual

theorem Expr.decode_toJson : (e : Expr) → {n : Nat} → e.toJson.depth ≤ n →
    Expr.decode n e.toJson = some e
  | .assignment id op target value, n, h => by
    obtain ⟨m,rfl,-,-,-,htarget,hvalue,-⟩ := descend h
    exact some_of_bind rfl <| some_of_bind rfl <| some_of_bind id.uint32_toJson <|
      some_of_bind (word_ofWord op) <| some_of_bind (Expr.decode_toJson target htarget) <|
      some_of_bind (Expr.decode_toJson value hvalue) rfl
  | .identifier id name, n, h => by
    obtain ⟨m,rfl,-⟩ := descend h
    exact some_of_bind rfl <| some_of_bind rfl <| some_of_bind id.uint32_toJson <|
      some_of_bind rfl rfl
  | .objectCreation id ty args init, n, h => by
    obtain ⟨m,rfl,-,-,hty,hargs,hinit,-⟩ := descend h
    exact some_of_bind rfl <| some_of_bind rfl <| some_of_bind id.uint32_toJson <|
      some_of_bind (SourceType.decode_toJson ty hty) <|
      some_of_bind (decode_argumentsToJson args (itemsDepth_le hargs)) <|
      some_of_bind (decode_exprToJson? init hinit) rfl
  | .memberAccess id target name, n, h => by
    obtain ⟨m,rfl,-,-,htarget,hname,-⟩ := descend h
    exact some_of_bind rfl <| some_of_bind rfl <| some_of_bind id.uint32_toJson <|
      some_of_bind (Expr.decode_toJson target htarget) <|
      some_of_bind (Expr.decode_toJson name hname) rfl
  | .invocation id target args, n, h => by
    obtain ⟨m,rfl,-,-,htarget,hargs,-⟩ := descend h
    exact some_of_bind rfl <| some_of_bind rfl <| some_of_bind id.uint32_toJson <|
      some_of_bind (Expr.decode_toJson target htarget) <|
      some_of_bind (decode_argumentsToJson args (itemsDepth_le hargs)) rfl
  | .this id, n, h => by
    obtain ⟨m,rfl,-⟩ := descend h
    exact some_of_bind rfl <| some_of_bind rfl <| some_of_bind id.uint32_toJson rfl
  | .literal id kind text, n, h => by
    obtain ⟨m,rfl,-⟩ := descend h
    exact some_of_bind rfl <| some_of_bind rfl <| some_of_bind id.uint32_toJson <|
      some_of_bind (word_ofWord kind) <| some_of_bind rfl rfl
  | .binary id op left right, n, h => by
    obtain ⟨m,rfl,-,-,-,hleft,hright,-⟩ := descend h
    exact some_of_bind rfl <| some_of_bind rfl <| some_of_bind id.uint32_toJson <|
      some_of_bind (word_ofWord op) <| some_of_bind (Expr.decode_toJson left hleft) <|
      some_of_bind (Expr.decode_toJson right hright) rfl
  | .genericName id name args, n, h => by
    obtain ⟨m,rfl,-,-,-,hargs,-⟩ := descend h
    exact some_of_bind rfl <| some_of_bind rfl <| some_of_bind id.uint32_toJson <|
      some_of_bind rfl <| some_of_bind (SourceType.decode_toJsons args (itemsDepth_le hargs)) rfl
  | .simpleLambda id param body, n, h => by
    obtain ⟨m,rfl,-,-,hparam,hbody,-⟩ := descend h
    exact some_of_bind rfl <| some_of_bind rfl <| some_of_bind id.uint32_toJson <|
      some_of_bind (LambdaParam.decode_toJson param hparam) <|
      some_of_bind (LambdaBody.decode_toJson body hbody) rfl
  | .parenthesizedLambda id params body, n, h => by
    obtain ⟨m,rfl,-,-,hparams,hbody,-⟩ := descend h
    exact some_of_bind rfl <| some_of_bind rfl <| some_of_bind id.uint32_toJson <|
      some_of_bind (LambdaParam.decode_map_toJson params (itemsDepth_le hparams)) <|
      some_of_bind (LambdaBody.decode_toJson body hbody) rfl
  | .conditional id condition whenTrue whenFalse, n, h => by
    obtain ⟨m,rfl,-,-,hcondition,hwhenTrue,hwhenFalse,-⟩ := descend h
    exact some_of_bind rfl <| some_of_bind rfl <| some_of_bind id.uint32_toJson <|
      some_of_bind (Expr.decode_toJson condition hcondition) <|
      some_of_bind (Expr.decode_toJson whenTrue hwhenTrue) <|
      some_of_bind (Expr.decode_toJson whenFalse hwhenFalse) rfl
  | .cast id ty operand, n, h => by
    obtain ⟨m,rfl,-,-,hty,hoperand,-⟩ := descend h
    exact some_of_bind rfl <| some_of_bind rfl <| some_of_bind id.uint32_toJson <|
      some_of_bind (SourceType.decode_toJson ty hty) <|
      some_of_bind (Expr.decode_toJson operand hoperand) rfl
  | .conditionalAccess id target rest, n, h => by
    obtain ⟨m,rfl,-,-,htarget,hrest,-⟩ := descend h
    exact some_of_bind rfl <| some_of_bind rfl <| some_of_bind id.uint32_toJson <|
      some_of_bind (Expr.decode_toJson target htarget) <|
      some_of_bind (Expr.decode_toJson rest hrest) rfl
  | .memberBinding id name, n, h => by
    obtain ⟨m,rfl,-,-,hname,-⟩ := descend h
    exact some_of_bind rfl <| some_of_bind rfl <| some_of_bind id.uint32_toJson <|
      some_of_bind (Expr.decode_toJson name hname) rfl
  | .prefixUnary id op operand, n, h => by
    obtain ⟨m,rfl,-,-,-,hoperand,-⟩ := descend h
    exact some_of_bind rfl <| some_of_bind rfl <| some_of_bind id.uint32_toJson <|
      some_of_bind (word_ofWord op) <| some_of_bind (Expr.decode_toJson operand hoperand) rfl
  | .postfixUnary id op operand, n, h => by
    obtain ⟨m,rfl,-,-,-,hoperand,-⟩ := descend h
    exact some_of_bind rfl <| some_of_bind rfl <| some_of_bind id.uint32_toJson <|
      some_of_bind (word_ofWord op) <| some_of_bind (Expr.decode_toJson operand hoperand) rfl
  | .elementAccess id target args, n, h => by
    obtain ⟨m,rfl,-,-,htarget,hargs,-⟩ := descend h
    exact some_of_bind rfl <| some_of_bind rfl <| some_of_bind id.uint32_toJson <|
      some_of_bind (Expr.decode_toJson target htarget) <|
      some_of_bind (decode_argumentsToJson args (itemsDepth_le hargs)) rfl
  | .interpolatedString id parts, n, h => by
    obtain ⟨m,rfl,-,-,hparts,-⟩ := descend h
    exact some_of_bind rfl <| some_of_bind rfl <| some_of_bind id.uint32_toJson <|
      some_of_bind (decode_partsToJson parts (itemsDepth_le hparts)) rfl
  | .defaultValue id ty, n, h => by
    obtain ⟨m,rfl,-,-,hty,-⟩ := descend h
    exact some_of_bind rfl <| some_of_bind rfl <| some_of_bind id.uint32_toJson <|
      some_of_bind (SourceType.optional_ofType? ty hty) rfl
  | .predefinedType id name, n, h => by
    obtain ⟨m,rfl,-⟩ := descend h
    exact some_of_bind rfl <| some_of_bind rfl <| some_of_bind id.uint32_toJson <|
      some_of_bind rfl rfl
  | .tuple id elements, n, h => by
    obtain ⟨m,rfl,-,-,helements,-⟩ := descend h
    exact some_of_bind rfl <| some_of_bind rfl <| some_of_bind id.uint32_toJson <|
      some_of_bind (decode_argumentsToJson elements (itemsDepth_le helements)) rfl
  | .initializer id shape elements, n, h => by
    obtain ⟨m,rfl,-,-,-,helements,-⟩ := descend h
    exact some_of_bind rfl <| some_of_bind rfl <| some_of_bind id.uint32_toJson <|
      some_of_bind (word_ofWord shape) <|
      some_of_bind (decode_exprsToJson elements (itemsDepth_le helements)) rfl
  | .base id, n, h => by
    obtain ⟨m,rfl,-⟩ := descend h
    exact some_of_bind rfl <| some_of_bind rfl <| some_of_bind id.uint32_toJson rfl
  | .parenthesized id inner, n, h => by
    obtain ⟨m,rfl,-,-,hinner,-⟩ := descend h
    exact some_of_bind rfl <| some_of_bind rfl <| some_of_bind id.uint32_toJson <|
      some_of_bind (Expr.decode_toJson inner hinner) rfl
  | .arrayCreation id element sizes init, n, h => by
    obtain ⟨m,rfl,-,-,helement,hsizes,hinit,-⟩ := descend h
    exact some_of_bind rfl <| some_of_bind rfl <| some_of_bind id.uint32_toJson <|
      some_of_bind (SourceType.decode_toJson element helement) <|
      some_of_bind (decode_exprsToJson sizes (itemsDepth_le hsizes)) <|
      some_of_bind (decode_exprToJson? init hinit) rfl
  | .typeOf id ty, n, h => by
    obtain ⟨m,rfl,-,-,hty,-⟩ := descend h
    exact some_of_bind rfl <| some_of_bind rfl <| some_of_bind id.uint32_toJson <|
      some_of_bind (SourceType.decode_toJson ty hty) rfl
  | .qualifiedName id left right, n, h => by
    obtain ⟨m,rfl,-,-,hleft,hright,-⟩ := descend h
    exact some_of_bind rfl <| some_of_bind rfl <| some_of_bind id.uint32_toJson <|
      some_of_bind (Expr.decode_toJson left hleft) <|
      some_of_bind (Expr.decode_toJson right hright) rfl
  | .await id operand, n, h => by
    obtain ⟨m,rfl,-,-,hoperand,-⟩ := descend h
    exact some_of_bind rfl <| some_of_bind rfl <| some_of_bind id.uint32_toJson <|
      some_of_bind (Expr.decode_toJson operand hoperand) rfl
  | .implicitArrayCreation id init, n, h => by
    obtain ⟨m,rfl,-,-,hinit,-⟩ := descend h
    exact some_of_bind rfl <| some_of_bind rfl <| some_of_bind id.uint32_toJson <|
      some_of_bind (Expr.decode_toJson init hinit) rfl
  | .declaration id ty name, n, h => by
    obtain ⟨m,rfl,-,-,hty,-⟩ := descend h
    exact some_of_bind rfl <| some_of_bind rfl <| some_of_bind id.uint32_toJson <|
      some_of_bind (SourceType.optional_ofType? ty hty) <| some_of_bind rfl rfl
  | .other id construct, n, h => by
    obtain ⟨m,rfl,-⟩ := descend h
    exact some_of_bind rfl <| some_of_bind rfl <| some_of_bind id.uint32_toJson <|
      some_of_bind rfl rfl

theorem decode_exprToJson? : (e : Option Expr) → {n : Nat} → (exprToJson? e).depth ≤ n →
    Decoder.optional (Expr.decode n) (exprToJson? e) = some e
  | none, _, _ => rfl
  | some e, n, h => by
    have hnull : Expr.decode n .null = none := by cases n <;> rfl
    exact optional_of_some hnull (Expr.decode_toJson e h)

theorem decode_exprsToJson : (es : List Expr) → {n : Nat} →
    itemsDepth (exprsToJson es) ≤ n → (exprsToJson es).mapM (Expr.decode n) = some es
  | [], _, _ => rfl
  | e :: es, n, h => by
    obtain ⟨hhead,htail⟩ := itemsDepth_cons h
    exact mapM_cons_of_some (Expr.decode_toJson e hhead) (decode_exprsToJson es htail)

theorem Argument.decode_toJson : (a : Argument) → {n : Nat} → a.toJson.depth ≤ n →
    Argument.decode n a.toJson = some a
  | ⟨passing,expr⟩, n, h => by
    obtain ⟨m,rfl,-,hexpr,-⟩ := descend h
    exact some_of_bind rfl <| some_of_bind (word_ofWord passing) <|
      some_of_bind (Expr.decode_toJson expr hexpr) rfl

theorem decode_argumentsToJson : (as : List Argument) → {n : Nat} →
    itemsDepth (argumentsToJson as) ≤ n → (argumentsToJson as).mapM (Argument.decode n) = some as
  | [], _, _ => rfl
  | a :: as, n, h => by
    obtain ⟨hhead,htail⟩ := itemsDepth_cons h
    exact mapM_cons_of_some (Argument.decode_toJson a hhead) (decode_argumentsToJson as htail)

theorem LambdaBody.decode_toJson : (b : LambdaBody) → {n : Nat} → b.toJson.depth ≤ n →
    LambdaBody.decode n b.toJson = some b
  | .block statements, n, h => by
    obtain ⟨m,rfl,-,hstatements,-⟩ := descend h
    exact some_of_bind rfl <| some_of_bind rfl <|
      some_of_bind (decode_stmtsToJson statements (itemsDepth_le hstatements)) rfl
  | .expression expr, n, h => by
    obtain ⟨m,rfl,-,hexpr,-⟩ := descend h
    exact some_of_bind rfl <| some_of_bind rfl <| some_of_bind (Expr.decode_toJson expr hexpr) rfl

theorem InterpolationPart.decode_toJson : (p : InterpolationPart) → {n : Nat} → p.toJson.depth ≤ n →
    InterpolationPart.decode n p.toJson = some p
  | .text text, n, h => by
    obtain ⟨m,rfl,-⟩ := descend h
    exact some_of_bind rfl <| some_of_bind rfl <| some_of_bind rfl rfl
  | .expression expr format, n, h => by
    obtain ⟨m,rfl,-,hexpr,-⟩ := descend h
    exact some_of_bind rfl <| some_of_bind rfl <| some_of_bind (Expr.decode_toJson expr hexpr) <|
      some_of_bind (optional_ofString? format) rfl

theorem decode_partsToJson : (ps : List InterpolationPart) → {n : Nat} →
    itemsDepth (partsToJson ps) ≤ n → (partsToJson ps).mapM (InterpolationPart.decode n) = some ps
  | [], _, _ => rfl
  | p :: ps, n, h => by
    obtain ⟨hhead,htail⟩ := itemsDepth_cons h
    exact mapM_cons_of_some (InterpolationPart.decode_toJson p hhead) (decode_partsToJson ps htail)

theorem Declarator.decode_toJson : (d : Declarator) → {n : Nat} → d.toJson.depth ≤ n →
    Declarator.decode n d.toJson = some d
  | ⟨id,name,init⟩, n, h => by
    obtain ⟨m,rfl,-,-,hinit,-⟩ := descend h
    exact some_of_bind rfl <| some_of_bind id.uint32_toJson <| some_of_bind rfl <|
      some_of_bind (decode_exprToJson? init hinit) rfl

theorem decode_declaratorsToJson : (ds : List Declarator) → {n : Nat} →
    itemsDepth (declaratorsToJson ds) ≤ n →
    (declaratorsToJson ds).mapM (Declarator.decode n) = some ds
  | [], _, _ => rfl
  | d :: ds, n, h => by
    obtain ⟨hhead,htail⟩ := itemsDepth_cons h
    exact mapM_cons_of_some (Declarator.decode_toJson d hhead) (decode_declaratorsToJson ds htail)

theorem VariableDeclaration.decode_toJson : (d : VariableDeclaration) → {n : Nat} →
    d.toJson.depth ≤ n → VariableDeclaration.decode n d.toJson = some d
  | ⟨ty,declarators⟩, n, h => by
    obtain ⟨m,rfl,hty,hdeclarators,-⟩ := descend h
    exact some_of_bind rfl <| some_of_bind (SourceType.optional_ofType? ty hty) <|
      some_of_bind (decode_declaratorsToJson declarators (itemsDepth_le hdeclarators)) rfl

theorem decode_declarationToJson? : (d : Option VariableDeclaration) → {n : Nat} →
    (declarationToJson? d).depth ≤ n →
    Decoder.optional (VariableDeclaration.decode n) (declarationToJson? d) = some d
  | none, _, _ => rfl
  | some d, n, h => by
    have hnull : VariableDeclaration.decode n .null = none := by cases n <;> rfl
    exact optional_of_some hnull (VariableDeclaration.decode_toJson d h)

theorem SwitchLabel.decode_toJson : (l : SwitchLabel) → {n : Nat} → l.toJson.depth ≤ n →
    SwitchLabel.decode n l.toJson = some l
  | .case value, n, h => by
    obtain ⟨m,rfl,-,hvalue,-⟩ := descend h
    exact some_of_bind rfl <| some_of_bind rfl <|
      some_of_bind (Expr.decode_toJson value hvalue) rfl
  | .default, n, h => by
    obtain ⟨m,rfl,-⟩ := descend h
    rfl

theorem decode_labelsToJson : (ls : List SwitchLabel) → {n : Nat} →
    itemsDepth (labelsToJson ls) ≤ n → (labelsToJson ls).mapM (SwitchLabel.decode n) = some ls
  | [], _, _ => rfl
  | l :: ls, n, h => by
    obtain ⟨hhead,htail⟩ := itemsDepth_cons h
    exact mapM_cons_of_some (SwitchLabel.decode_toJson l hhead) (decode_labelsToJson ls htail)

theorem SwitchSection.decode_toJson : (s : SwitchSection) → {n : Nat} → s.toJson.depth ≤ n →
    SwitchSection.decode n s.toJson = some s
  | ⟨labels,statements⟩, n, h => by
    obtain ⟨m,rfl,hlabels,hstatements,-⟩ := descend h
    exact some_of_bind rfl <| some_of_bind (decode_labelsToJson labels (itemsDepth_le hlabels)) <|
      some_of_bind (decode_stmtsToJson statements (itemsDepth_le hstatements)) rfl

theorem decode_sectionsToJson : (ss : List SwitchSection) → {n : Nat} →
    itemsDepth (sectionsToJson ss) ≤ n → (sectionsToJson ss).mapM (SwitchSection.decode n) = some ss
  | [], _, _ => rfl
  | s :: ss, n, h => by
    obtain ⟨hhead,htail⟩ := itemsDepth_cons h
    exact mapM_cons_of_some (SwitchSection.decode_toJson s hhead) (decode_sectionsToJson ss htail)

theorem CatchClause.decode_toJson : (c : CatchClause) → {n : Nat} → c.toJson.depth ≤ n →
    CatchClause.decode n c.toJson = some c
  | ⟨ty,name,block⟩, n, h => by
    obtain ⟨m,rfl,hty,-,hblock,-⟩ := descend h
    exact some_of_bind rfl <| some_of_bind (SourceType.optional_ofType? ty hty) <|
      some_of_bind (optional_ofString? name) <|
      some_of_bind (decode_stmtsToJson block (itemsDepth_le hblock)) rfl

theorem decode_catchesToJson : (cs : List CatchClause) → {n : Nat} →
    itemsDepth (catchesToJson cs) ≤ n → (catchesToJson cs).mapM (CatchClause.decode n) = some cs
  | [], _, _ => rfl
  | c :: cs, n, h => by
    obtain ⟨hhead,htail⟩ := itemsDepth_cons h
    exact mapM_cons_of_some (CatchClause.decode_toJson c hhead) (decode_catchesToJson cs htail)

theorem Stmt.decode_toJson : (s : Stmt) → {n : Nat} → s.toJson.depth ≤ n →
    Stmt.decode n s.toJson = some s
  | .expression id expr, n, h => by
    obtain ⟨m,rfl,-,-,hexpr,-⟩ := descend h
    exact some_of_bind rfl <| some_of_bind rfl <| some_of_bind id.uint32_toJson <|
      some_of_bind (Expr.decode_toJson expr hexpr) rfl
  | .ret id value, n, h => by
    obtain ⟨m,rfl,-,-,hvalue,-⟩ := descend h
    exact some_of_bind rfl <| some_of_bind rfl <| some_of_bind id.uint32_toJson <|
      some_of_bind (decode_exprToJson? value hvalue) rfl
  | .locals id declaration, n, h => by
    obtain ⟨m,rfl,-,-,hdeclaration,-⟩ := descend h
    exact some_of_bind rfl <| some_of_bind rfl <| some_of_bind id.uint32_toJson <|
      some_of_bind (VariableDeclaration.decode_toJson declaration hdeclaration) rfl
  | .switch id subject sections, n, h => by
    obtain ⟨m,rfl,-,-,hsubject,hsections,-⟩ := descend h
    exact some_of_bind rfl <| some_of_bind rfl <| some_of_bind id.uint32_toJson <|
      some_of_bind (Expr.decode_toJson subject hsubject) <|
      some_of_bind (decode_sectionsToJson sections (itemsDepth_le hsections)) rfl
  | .block id statements, n, h => by
    obtain ⟨m,rfl,-,-,hstatements,-⟩ := descend h
    exact some_of_bind rfl <| some_of_bind rfl <| some_of_bind id.uint32_toJson <|
      some_of_bind (decode_stmtsToJson statements (itemsDepth_le hstatements)) rfl
  | .breakLoop id, n, h => by
    obtain ⟨m,rfl,-⟩ := descend h
    exact some_of_bind rfl <| some_of_bind rfl <| some_of_bind id.uint32_toJson rfl
  | .throw id value, n, h => by
    obtain ⟨m,rfl,-,-,hvalue,-⟩ := descend h
    exact some_of_bind rfl <| some_of_bind rfl <| some_of_bind id.uint32_toJson <|
      some_of_bind (decode_exprToJson? value hvalue) rfl
  | .ifElse id condition thenBranch otherwise, n, h => by
    obtain ⟨m,rfl,-,-,hcondition,hthenBranch,hotherwise,-⟩ := descend h
    exact some_of_bind rfl <| some_of_bind rfl <| some_of_bind id.uint32_toJson <|
      some_of_bind (Expr.decode_toJson condition hcondition) <|
      some_of_bind (Stmt.decode_toJson thenBranch hthenBranch) <|
      some_of_bind (decode_stmtToJson? otherwise hotherwise) rfl
  | .forLoop id declaration initializers condition incrementors body, n, h => by
    obtain ⟨m,rfl,-,-,hdeclaration,hinitializers,hcondition,hincrementors,hbody,-⟩ := descend h
    exact some_of_bind rfl <| some_of_bind rfl <| some_of_bind id.uint32_toJson <|
      some_of_bind (decode_declarationToJson? declaration hdeclaration) <|
      some_of_bind (decode_exprsToJson initializers (itemsDepth_le hinitializers)) <|
      some_of_bind (decode_exprToJson? condition hcondition) <|
      some_of_bind (decode_exprsToJson incrementors (itemsDepth_le hincrementors)) <|
      some_of_bind (Stmt.decode_toJson body hbody) rfl
  | .whileLoop id condition body, n, h => by
    obtain ⟨m,rfl,-,-,hcondition,hbody,-⟩ := descend h
    exact some_of_bind rfl <| some_of_bind rfl <| some_of_bind id.uint32_toJson <|
      some_of_bind (Expr.decode_toJson condition hcondition) <|
      some_of_bind (Stmt.decode_toJson body hbody) rfl
  | .continueLoop id, n, h => by
    obtain ⟨m,rfl,-⟩ := descend h
    exact some_of_bind rfl <| some_of_bind rfl <| some_of_bind id.uint32_toJson rfl
  | .forEach id ty name iterable body, n, h => by
    obtain ⟨m,rfl,-,-,hty,-,hiterable,hbody,-⟩ := descend h
    exact some_of_bind rfl <| some_of_bind rfl <| some_of_bind id.uint32_toJson <|
      some_of_bind (SourceType.optional_ofType? ty hty) <| some_of_bind rfl <|
      some_of_bind (Expr.decode_toJson iterable hiterable) <|
      some_of_bind (Stmt.decode_toJson body hbody) rfl
  | .tryCatch id block catches none, n, h => by
    obtain ⟨m,rfl,-,-,hblock,hcatches,-⟩ := descend h
    exact some_of_bind rfl <| some_of_bind rfl <| some_of_bind id.uint32_toJson <|
      some_of_bind (decode_stmtsToJson block (itemsDepth_le hblock)) <|
      some_of_bind (decode_catchesToJson catches (itemsDepth_le hcatches)) <| some_of_bind rfl rfl
  | .tryCatch id block catches (some last), n, h => by
    obtain ⟨m,rfl,-,-,hblock,hcatches,hlast,-⟩ := descend h
    have hlist : Decoder.list (Stmt.decode m) (.array (stmtsToJson last)) = some last :=
      decode_stmtsToJson last (itemsDepth_le hlast)
    have hsome : Decoder.optional (Decoder.list (Stmt.decode m)) (.array (stmtsToJson last)) =
        some (some last) := optional_of_some rfl hlist
    exact some_of_bind rfl <| some_of_bind rfl <| some_of_bind id.uint32_toJson <|
      some_of_bind (decode_stmtsToJson block (itemsDepth_le hblock)) <|
      some_of_bind (decode_catchesToJson catches (itemsDepth_le hcatches)) <|
      some_of_bind hsome rfl
  | .lock id target body, n, h => by
    obtain ⟨m,rfl,-,-,htarget,hbody,-⟩ := descend h
    exact some_of_bind rfl <| some_of_bind rfl <| some_of_bind id.uint32_toJson <|
      some_of_bind (Expr.decode_toJson target htarget) <|
      some_of_bind (Stmt.decode_toJson body hbody) rfl
  | .useResource id declaration target body, n, h => by
    obtain ⟨m,rfl,-,-,hdeclaration,htarget,hbody,-⟩ := descend h
    exact some_of_bind rfl <| some_of_bind rfl <| some_of_bind id.uint32_toJson <|
      some_of_bind (decode_declarationToJson? declaration hdeclaration) <|
      some_of_bind (decode_exprToJson? target htarget) <|
      some_of_bind (Stmt.decode_toJson body hbody) rfl
  | .doWhile id body condition, n, h => by
    obtain ⟨m,rfl,-,-,hbody,hcondition,-⟩ := descend h
    exact some_of_bind rfl <| some_of_bind rfl <| some_of_bind id.uint32_toJson <|
      some_of_bind (Stmt.decode_toJson body hbody) <|
      some_of_bind (Expr.decode_toJson condition hcondition) rfl
  | .empty id, n, h => by
    obtain ⟨m,rfl,-⟩ := descend h
    exact some_of_bind rfl <| some_of_bind rfl <| some_of_bind id.uint32_toJson rfl
  | .other id construct, n, h => by
    obtain ⟨m,rfl,-⟩ := descend h
    exact some_of_bind rfl <| some_of_bind rfl <| some_of_bind id.uint32_toJson <|
      some_of_bind rfl rfl

theorem decode_stmtToJson? : (s : Option Stmt) → {n : Nat} → (stmtToJson? s).depth ≤ n →
    Decoder.optional (Stmt.decode n) (stmtToJson? s) = some s
  | none, _, _ => rfl
  | some s, n, h => by
    have hnull : Stmt.decode n .null = none := by cases n <;> rfl
    exact optional_of_some hnull (Stmt.decode_toJson s h)

theorem decode_stmtsToJson : (ss : List Stmt) → {n : Nat} →
    itemsDepth (stmtsToJson ss) ≤ n → (stmtsToJson ss).mapM (Stmt.decode n) = some ss
  | [], _, _ => rfl
  | s :: ss, n, h => by
    obtain ⟨hhead,htail⟩ := itemsDepth_cons h
    exact mapM_cons_of_some (Stmt.decode_toJson s hhead) (decode_stmtsToJson ss htail)

end

theorem Body.decode_toJson (b : Body) {n : Nat} (h : b.toJson.depth ≤ n) :
    Body.decode n b.toJson = some b := by
  cases b with
  | block statements =>
    obtain ⟨m,rfl,-,hstatements,-⟩ := descend h
    exact some_of_bind rfl <| some_of_bind rfl <| some_of_bind
      (decode_stmtsToJson statements (Nat.le_succ_of_le (itemsDepth_le hstatements))) rfl
  | expression expr =>
    obtain ⟨m,rfl,-,hexpr,-⟩ := descend h
    exact some_of_bind rfl <| some_of_bind rfl <|
      some_of_bind (expr.decode_toJson (Nat.le_succ_of_le hexpr)) rfl

theorem Body.optional_ofOption (b : Option Body) {n : Nat} (h : (ofOption toJson b).depth ≤ n) :
    Decoder.optional (decode n) (ofOption toJson b) = some b :=
  Json.optional_ofOption rfl (fun b => b.decode_toJson) b h

/-! ## Members -/

namespace BaseType

theorem decode_toJson (b : BaseType) {n : Nat} (h : b.toJson.depth ≤ n) :
    decode n b.toJson = some b := by
  obtain ⟨m,rfl,-,hty,-⟩ := descend h
  exact some_of_bind rfl <| some_of_bind b.id.uint32_toJson <|
    some_of_bind (b.ty.decode_toJson (Nat.le_succ_of_le hty)) rfl

end BaseType

namespace ParameterDecl

theorem decode_toJson (p : ParameterDecl) {n : Nat} (h : p.toJson.depth ≤ n) :
    decode n p.toJson = some p := by
  obtain ⟨m,rfl,-,hty,-,hdefault,-⟩ := descend h
  exact some_of_bind rfl <| some_of_bind rfl <|
    some_of_bind (p.ty.decode_toJson (Nat.le_succ_of_le hty)) <|
    some_of_bind (mapM_strings p.modifiers) <|
    some_of_bind (decode_exprToJson? p.default (Nat.le_succ_of_le hdefault)) rfl

theorem decode_map_toJson (ps : List ParameterDecl) {n : Nat}
    (h : itemsDepth (ps.map toJson) ≤ n) : (ps.map toJson).mapM (decode n) = some ps :=
  mapM_map_of_some (fun p => p.decode_toJson) ps h

end ParameterDecl

namespace AccessorDecl

theorem decode_toJson (a : AccessorDecl) {n : Nat} (h : a.toJson.depth ≤ n) :
    decode n a.toJson = some a := by
  obtain ⟨m,rfl,-,-,hbody,-⟩ := descend h
  exact some_of_bind rfl <| some_of_bind (word_ofWord a.kind) <|
    some_of_bind (mapM_strings a.modifiers) <|
    some_of_bind (Body.optional_ofOption a.body (Nat.le_succ_of_le hbody)) rfl

end AccessorDecl

namespace ConstructorChain

theorem decode_toJson (c : ConstructorChain) {n : Nat} (h : c.toJson.depth ≤ n) :
    decode n c.toJson = some c := by
  obtain ⟨m,rfl,-,hargs,-⟩ := descend h
  exact some_of_bind rfl <| some_of_bind (word_ofWord c.target) <|
    some_of_bind (decode_argumentsToJson c.args (Nat.le_succ_of_le (itemsDepth_le hargs))) rfl

end ConstructorChain

namespace Member

mutual

theorem decode_toJson : (m : Member) → {n : Nat} → m.toJson.depth ≤ n → decode n m.toJson = some m
  | .namespaceDecl name members, n, h => by
    obtain ⟨m,rfl,-,-,hmembers,-⟩ := descend h
    exact some_of_bind rfl <| some_of_bind rfl <| some_of_bind rfl <|
      some_of_bind (decode_toJsons members (itemsDepth_le hmembers)) rfl
  | .typeDecl head members, n, h => by
    obtain ⟨m,rfl,-,-,-,-,-,hbases,hmembers,-⟩ := descend h
    exact some_of_bind rfl <| some_of_bind rfl <| some_of_bind (word_ofWord head.keyword) <|
      some_of_bind rfl <| some_of_bind (mapM_strings head.modifiers) <|
      some_of_bind (mapM_strings head.genericParams) <|
      some_of_bind (mapM_map_of_some (fun b => b.decode_toJson) head.bases
        (itemsDepth_le hbases)) <|
      some_of_bind (decode_toJsons members (itemsDepth_le hmembers)) rfl
  | .delegate d, n, h => by
    obtain ⟨m,rfl,-,-,-,-,hparams,hreturns,-⟩ := descend h
    exact some_of_bind rfl <| some_of_bind rfl <| some_of_bind rfl <|
      some_of_bind (mapM_strings d.modifiers) <| some_of_bind (mapM_strings d.genericParams) <|
      some_of_bind (ParameterDecl.decode_map_toJson d.params (itemsDepth_le hparams)) <|
      some_of_bind (d.returns.decode_toJson hreturns) rfl
  | .field d, n, h => by
    obtain ⟨m,rfl,-,-,hty,hdeclarators,-⟩ := descend h
    exact some_of_bind rfl <| some_of_bind rfl <| some_of_bind (mapM_strings d.modifiers) <|
      some_of_bind (d.ty.decode_toJson hty) <|
      some_of_bind (decode_declaratorsToJson d.declarators (itemsDepth_le hdeclarators)) rfl
  | .property d, n, h => by
    obtain ⟨m,rfl,-,-,hty,-,haccessors,hbody,hinit,-⟩ := descend h
    exact some_of_bind rfl <| some_of_bind rfl <| some_of_bind (mapM_strings d.modifiers) <|
      some_of_bind (d.ty.decode_toJson hty) <| some_of_bind rfl <|
      some_of_bind (mapM_map_of_some (fun a => a.decode_toJson) d.accessors
        (itemsDepth_le haccessors)) <|
      some_of_bind (decode_exprToJson? d.expressionBody hbody) <|
      some_of_bind (decode_exprToJson? d.initializer hinit) rfl
  | .event d, n, h => by
    obtain ⟨m,rfl,-,-,hty,-⟩ := descend h
    exact some_of_bind rfl <| some_of_bind rfl <| some_of_bind (mapM_strings d.modifiers) <|
      some_of_bind (d.ty.decode_toJson hty) <| some_of_bind (mapM_strings d.names) rfl
  | .method d, n, h => by
    obtain ⟨m,rfl,-,-,-,hreturns,-,hparams,hbody,-⟩ := descend h
    exact some_of_bind rfl <| some_of_bind rfl <| some_of_bind rfl <|
      some_of_bind (mapM_strings d.modifiers) <| some_of_bind (d.returns.decode_toJson hreturns) <|
      some_of_bind (mapM_strings d.genericParams) <|
      some_of_bind (ParameterDecl.decode_map_toJson d.params (itemsDepth_le hparams)) <|
      some_of_bind (Body.optional_ofOption d.body hbody) rfl
  | .constructor d, n, h => by
    obtain ⟨m,rfl,-,-,-,hparams,hchain,hbody,-⟩ := descend h
    exact some_of_bind rfl <| some_of_bind rfl <| some_of_bind rfl <|
      some_of_bind (mapM_strings d.modifiers) <|
      some_of_bind (ParameterDecl.decode_map_toJson d.params (itemsDepth_le hparams)) <|
      some_of_bind (optional_ofOption rfl (fun c => c.decode_toJson) d.chain hchain) <|
      some_of_bind (Body.optional_ofOption d.body hbody) rfl
  | .enumMember d, n, h => by
    obtain ⟨m,rfl,-⟩ := descend h
    exact some_of_bind rfl <| some_of_bind rfl <| some_of_bind rfl <|
      some_of_bind (optional_ofString? d.value) rfl
  | .region symbol thenMembers otherwise, n, h => by
    obtain ⟨m,rfl,-,-,hthen,hotherwise,-⟩ := descend h
    exact some_of_bind rfl <| some_of_bind rfl <| some_of_bind rfl <|
      some_of_bind (decode_toJsons thenMembers (itemsDepth_le hthen)) <|
      some_of_bind (decode_toJsons otherwise (itemsDepth_le hotherwise)) rfl
  | .other construct, n, h => by
    obtain ⟨m,rfl,-⟩ := descend h
    exact some_of_bind rfl <| some_of_bind rfl <| some_of_bind rfl rfl

theorem decode_toJsons : (ms : List Member) → {n : Nat} → itemsDepth (toJsons ms) ≤ n →
    (toJsons ms).mapM (decode n) = some ms
  | [], _, _ => rfl
  | m :: ms, n, h => by
    obtain ⟨hhead,htail⟩ := itemsDepth_cons h
    exact mapM_cons_of_some (decode_toJson m hhead) (decode_toJsons ms htail)

end

theorem ofJson?_toJson (m : Member) : ofJson? m.toJson = some m := m.decode_toJson (Nat.le_refl _)

theorem mapM_toJsons (ms : List Member) : (toJsons ms).mapM ofJson? = some ms := by
  induction ms with
  | nil => rfl
  | cons m ms ih => exact mapM_cons_of_some m.ofJson?_toJson ih

end Member

end Recast
