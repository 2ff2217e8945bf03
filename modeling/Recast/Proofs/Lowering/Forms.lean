import Recast.Proofs.Lowering.Mentions
import Recast.TypeScript.Dialect

/-! # Forms of a dialect

A dialect puts texts together. If its own words are not the name that is looked for, a form mentions
the name where its parts do.
-/
namespace Recast

namespace SoughtName
variable {k : SoughtName}

/-- Behind a text of an interpolated string no other may follow, or they run together. -/
def gluedFragments : List Fragment → List Mark
  | .text _ :: _ => [.clashes]
  | .code .. :: _ | [] => []

/-- The fragments of an interpolated string show the marks. -/
inductive ShowsFragments (k : SoughtName) : List Mark → List Fragment → Prop where
  | nil : ShowsFragments k [] []
  | text {ms : List Mark} {fs : List Fragment} (t : String) (h : ShowsFragments k ms fs) :
    ShowsFragments k (k.clashes t ++ gluedFragments fs ++ ms) (.text t :: fs)
  | code {as bs : List Mark} {t : String} {fs : List Fragment} (format : Option String)
    (ht : k.Shows as t) (h : ShowsFragments k bs fs) :
    ShowsFragments k (as ++ bs) (.code t format :: fs)

/-- The declarations in the head of a loop show the marks. -/
inductive ShowsHeads (k : SoughtName) : List Mark → List (String × Option String) → Prop where
  | nil : ShowsHeads k [] []
  | cons {as bs cs : List Mark} {name : String} {init : Option String}
    {heads : List (String × Option String)} (hname : k.Shows as name) (hinit : k.ShowsOpt bs init)
    (h : ShowsHeads k cs heads) : ShowsHeads k (as ++ bs ++ cs) ((name,init) :: heads)

end SoughtName

/-- Each form of the dialect shows its parts, most of them in the order in which they are evaluated,
and has no text of its own with the name. -/
structure Dialect.Transparent (d : Dialect) (k : SoughtName) : Prop where
  indentUnit : k.Starts d.indentUnit
  assignment : ∀ op, k.Joins fun target value => d.assignment target op value
  thisMember : k.Wraps d.thisMember
  staticMember : k.Joins d.staticMember
  memberAccess : k.Joins d.memberAccess
  objectCreation : ∀ {as bs cs ty constructor args init}, Text.endsWith ty "[]" = false →
    k.Shows as ty → (∀ name ∈ constructor, k.Clear name) → k.ShowsAll bs args →
    k.ShowsOpt cs init → k.Shows (as ++ bs ++ cs) (d.objectCreation ty constructor args init)
  arrayObject : ∀ {cs ty constructor args init}, Text.endsWith ty "[]" = true →
    k.ShowsOpt cs init → k.Shows cs (d.objectCreation ty constructor args init)
  invocation : ∀ {as bs target args}, k.Shows as target → k.ShowsAll bs args →
    k.Shows (as ++ bs) (d.invocation target args)
  thisExpr : k.Clear d.thisExpr
  baseExpr : k.Clear d.baseExpr
  trueLiteral : k.Clear (d.literal .boolTrue "true")
  falseLiteral : k.Clear (d.literal .boolFalse "false")
  zeroLiteral : k.Clear (d.literal .numeric "0")
  binary : ∀ op, k.Joins fun left right => d.binary left op right
  genericName : ∀ {as bs name args}, k.Shows as name → k.ShowsAll bs args →
    k.Shows (as ++ bs) (d.genericName name args)
  lambdaParameter : ∀ {as bs name ty}, k.Shows as name → k.ShowsOpt bs ty →
    k.Shows (as ++ bs) (d.lambdaParameter name ty)
  lambda : ∀ {as bs params body}, k.ShowsAll as params → k.Shows bs body →
    k.Shows (as ++ bs) (d.lambda params body)
  conditional : ∀ {as bs cs condition whenTrue whenFalse}, k.Shows as condition →
    k.Shows bs whenTrue → k.Shows cs whenFalse →
    k.Shows (as ++ bs ++ cs) (d.conditional condition whenTrue whenFalse)
  cast : ∀ {as bs ty operand}, k.Shows as ty → k.Shows bs operand →
    k.Shows (bs ++ as) (d.cast ty operand)
  conditionalAccess : ∀ {as bs target rest}, k.Shows as target → k.Shows bs rest →
    Text.opens rest = true → k.Shows (as ++ bs) (d.conditionalAccess target rest)
  memberBinding : k.Wraps d.memberBinding
  prefixUnary : ∀ op, k.Wraps (d.prefixUnary op)
  postfixUnary : ∀ op, k.Wraps (d.postfixUnary op)
  elementAccess : ∀ {as bs target args}, k.Shows as target → k.ShowsAll bs args →
    k.Shows (as ++ bs) (d.elementAccess target args)
  interpolatedString : ∀ {ms fragments}, k.ShowsFragments ms fragments →
    k.Shows ms (d.interpolatedString fragments)
  defaultValue : ∀ ty, k.Clear (d.defaultValue ty)
  typeReference : k.Wraps d.typeReference
  tupleLiteral : ∀ {ms elements}, k.ShowsAll ms elements → k.Shows ms (d.tupleLiteral elements)
  initializer : ∀ {ms elements} shape, k.ShowsAll ms elements →
    k.Shows ms (d.initializer shape elements)
  initializerMember : k.Joins d.initializerMember
  parenthesized : k.Wraps d.parenthesized
  initializedArray : ∀ {ms init} element sizes, k.Shows ms init →
    k.Shows ms (d.arrayCreation element sizes (some init))
  sizedArray : ∀ {as bs element size} sizes, k.Shows as element → k.Shows bs size →
    k.Shows (as ++ bs) (d.arrayCreation element (size :: sizes) none)
  emptyArray : ∀ element, k.Clear (d.arrayCreation element [] none)
  typeOf : k.Wraps d.typeOf
  await : k.Wraps d.await
  implicitArray : k.Wraps d.implicitArray
  declarationExpression : k.Wraps d.declarationExpression
  boxDeclaration : ∀ {ms temp init}, k.Clear temp → k.ShowsOpt ms init →
    k.Shows ms (d.boxDeclaration temp init)
  boxArgument : k.Wraps d.boxArgument
  boxValue : k.Wraps d.boxValue
  parameterValue : k.Wraps d.parameterValue
  expressionStatement : k.Wraps d.expressionStatement
  returnStatement : ∀ {ms value}, k.ShowsOpt ms value → k.Shows ms (d.returnStatement value)
  localDeclaration : ∀ {as bs cs name ty init} mutable, k.Shows as name → k.ShowsOpt bs ty →
    k.ShowsOpt cs init → k.Shows (as ++ bs ++ cs) (d.localDeclaration name ty init mutable)
  outDeclaration : ∀ {bs cs ty init} name mutable, k.ShowsOpt bs ty → k.Shows cs init →
    k.Shows (k.declared name ++ bs ++ cs) (d.localDeclaration name ty (some init) mutable)
  declarationClause : ∀ {ms heads}, k.ShowsHeads ms heads → k.Shows ms (d.declarationClause heads)
  throwStatement : ∀ {ms value}, k.ShowsOpt ms value → k.Shows ms (d.throwStatement value)
  breakStatement : k.Clear d.breakStatement
  continueStatement : k.Clear d.continueStatement
  blockOpen : k.Parts d.blockOpen
  blockClose : k.Ends d.blockClose
  ifHeader : k.Wraps d.ifHeader
  elseIfHeader : k.Wraps d.elseIfHeader
  elseHeader : k.Clear d.elseHeader
  whileHeader : k.Wraps d.whileHeader
  doHeader : k.Clear d.doHeader
  doFooter : k.Wraps d.doFooter
  forHeader : ∀ {as bs cs init condition steps}, k.ShowsOpt as init → k.ShowsOpt bs condition →
    k.ShowsAll cs steps → k.Shows (as ++ bs ++ cs) (d.forHeader init condition steps)
  forEachHeader : ∀ ty, k.Joins fun name iterable => d.forEachHeader name ty iterable
  switchHeader : k.Wraps d.switchHeader
  caseLabel : k.Wraps d.caseLabel
  defaultLabel : k.Clear d.defaultLabel
  tryHeader : k.Clear d.tryHeader
  catchHeader : ∀ {ms name} ty, k.ShowsOpt ms name → k.Shows ms (d.catchHeader name ty)
  finallyHeader : k.Clear d.finallyHeader
  dispose : k.Wraps d.dispose
  constructorChain : ∀ {ms args constructor} target, (∀ name ∈ constructor, k.Clear name) →
    k.ShowsAll ms args → k.Shows ms (d.constructorChain target constructor args)
  opens_memberBinding : ∀ name, Text.opens (d.memberBinding name) = true
  opens_memberAccess : ∀ {target} name, Text.opens target = true →
    Text.opens (d.memberAccess target name) = true
  opens_invocation : ∀ {target} args, Text.opens target = true →
    Text.opens (d.invocation target args) = true
  opens_elementAccess : ∀ {target} args, Text.opens target = true →
    Text.opens (d.elementAccess target args) = true
  opens_conditionalAccess : ∀ {target} rest, Text.opens target = true →
    Text.opens (d.conditionalAccess target rest) = true

namespace Dialect.Transparent
variable {d : Dialect} {k : SoughtName} (H : d.Transparent k)
include H

theorem returned : k.Wraps fun value => d.returnStatement (some value) :=
  fun ms value h => H.returnStatement (show k.ShowsOpt ms (some value) from h)

theorem thrown : k.Wraps fun value => d.throwStatement (some value) :=
  fun ms value h => H.throwStatement (show k.ShowsOpt ms (some value) from h)

end Dialect.Transparent

namespace TypeScript
open SoughtName

/-- The names that the dialect uses itself. -/
def vocabulary : List String := [
  "const", "let", "new", "this", "super", "constructor", "Object", "assign", "Array", "as", "is",
  "instanceof", "await", "true", "false", "null", "undefined", "0", "value", "any", "return",
  "throw", "e", "break", "continue", "if", "else", "while", "do", "for", "of", "switch", "case",
  "default", "try", "catch", "finally", "Dispose"]

/-- The text has no other names. -/
def speaks (t : String) : Bool := (Text.tokens t).all fun w => Text.opens w || vocabulary.contains w

variable {k : SoughtName} {ms as bs cs : List Mark} {t : String}

section
variable (hk : k.name ∉ vocabulary)
include hk

theorem clear_of_speaks (h : speaks t = true) : k.Clear t := by
  intro hmem
  obtain hopen | hword := Bool.or_eq_true_iff.mp (List.all_eq_true.mp h _ hmem)
  · rw [k.opens_name] at hopen
    cases hopen
  · exact hk (List.contains_iff_mem.mp hword)

theorem starts (h : (speaks t && Text.closes t) = true) : k.Starts t :=
  ⟨clear_of_speaks hk (Bool.and_eq_true_iff.mp h).1,(Bool.and_eq_true_iff.mp h).2⟩

theorem ends (h : (speaks t && Text.opens t) = true) : k.Ends t :=
  ⟨clear_of_speaks hk (Bool.and_eq_true_iff.mp h).1,(Bool.and_eq_true_iff.mp h).2⟩

theorem parts (h : (speaks t && Text.opens t && Text.closes t) = true) : k.Parts t := by
  simp only [Bool.and_eq_true] at h
  exact ⟨⟨clear_of_speaks hk h.1.1,h.2⟩,h.1.2⟩

theorem shows_commas {items : List String} (h : k.ShowsAll ms items) : k.Shows ms (commas items) :=
  h.intercalate (parts hk rfl)

theorem shows_binary (op : BinaryOp) : k.Joins fun left right => binary left op right := by
  intro as bs left right hleft hright
  have htoken : k.Parts (" " ++ op.token ++ " ") := parts hk (by cases op <;> decide +kernel)
  cases op with
  | eq | ne | isType => exact hleft.join (parts hk rfl) hright
  | asType =>
    exact ((hleft.after (starts hk rfl)).join (parts hk rfl) hright).before (ends hk rfl)
  | _ => simpa [binary, String.append_assoc] using hleft.join htoken hright

theorem shows_objectCreation_none {ty : String} {constructor : Option String} {args : List String}
    (hty : Text.endsWith ty "[]" = false) (ht : k.Shows as ty)
    (hname : ∀ name ∈ constructor, k.Clear name) (hargs : k.ShowsAll bs args) :
    k.Shows (as ++ bs) (objectCreation ty constructor args none) := by
  have hnew : k.Shows as ("new " ++ ty) := ht.after (starts hk rfl)
  have hcall {t : String} (h : k.Shows as t) :
      k.Shows (as ++ bs) (t ++ "(" ++ commas args ++ ")") :=
    (h.join (parts hk rfl) (shows_commas hk hargs)).before (ends hk rfl)
  unfold objectCreation
  rw [if_neg (by simp [hty])]
  cases constructor with
  | none => exact hcall hnew
  | some name =>
    have hcreated := hnew.join (t := "().") (parts hk rfl) (.clear (hname name rfl))
    rw [List.append_nil] at hcreated
    exact hcall hcreated

omit hk in
theorem objectCreation_some {ty : String} (hty : Text.endsWith ty "[]" = false)
    (constructor : Option String) (args : List String) (init : String) :
    objectCreation ty constructor args (some init) =
      if Text.startsWith init "[" && args.isEmpty && constructor.isNone then
        "new " ++ ty ++ "(" ++ init ++ ")"
      else "Object.assign(" ++ objectCreation ty constructor args none ++ ", " ++ init ++ ")" := by
  simp only [objectCreation, hty, Bool.false_eq_true, if_false]

theorem shows_objectCreation {ty : String} {constructor init : Option String} {args : List String}
    (hty : Text.endsWith ty "[]" = false) (ht : k.Shows as ty)
    (hname : ∀ name ∈ constructor, k.Clear name) (hargs : k.ShowsAll bs args)
    (hinit : k.ShowsOpt cs init) :
    k.Shows (as ++ bs ++ cs) (objectCreation ty constructor args init) := by
  have hclose : k.Ends ")" := ends hk rfl
  have hcreated := shows_objectCreation_none hk hty ht hname hargs
  cases init with
  | none =>
    obtain rfl : cs = [] := hinit
    rw [List.append_nil]
    exact hcreated
  | some init =>
    rw [objectCreation_some hty]
    split
    · next hempty =>
      simp only [Bool.and_eq_true, List.isEmpty_iff] at hempty
      obtain ⟨⟨-,rfl⟩,-⟩ := hempty
      obtain rfl := hargs.eq_nil
      have hnew : k.Shows as ("new " ++ ty) := ht.after (starts hk rfl)
      rw [List.append_nil]
      exact (hnew.join (parts hk rfl) hinit).before hclose
    · have hassign := hcreated.after (s := "Object.assign(") (starts hk rfl)
      exact (hassign.join (parts hk rfl) hinit).before hclose

omit hk in
/-- A name is not made of separators, so it stands on one side of them. -/
theorem mem_tokens_around {w sep : String} (hw : Text.opens w = false)
    (hsep : Text.separates sep = true) (s t : String) :
    w ∈ Text.tokens (s ++ sep ++ t) ↔ w ∈ Text.tokens s ∨ w ∈ Text.tokens t := by
  simp only [Text.separates, Bool.and_eq_true] at hsep
  have hnot : w ∉ Text.tokens sep := by
    intro hmem
    rw [List.all_eq_true.mp hsep.2 w hmem] at hw
    cases hw
  rw [Text.tokens_append_of_closes (Text.closes_append s hsep.1.2),
    Text.tokens_append_of_opens s hsep.1.1]
  simp [hnot]

omit hk in
/-- The names in a template string are those of its text. -/
theorem mem_tokens_escapeTemplate {w : String} (hw : Text.opens w = false) (s : String)
    (text : List Char) : w ∈ Text.tokens (s ++ String.ofList (escapeTemplate text)) ↔
      w ∈ Text.tokens (s ++ String.ofList text) := by
  fun_induction escapeTemplate text generalizing s with
  | case1 => rfl
  | case2 cs ih =>
    have h := ih ""
    rw [String.empty_append, String.empty_append] at h
    change w ∈ Text.tokens (s ++ String.ofList (['\\','$','\x7b'] ++ _)) ↔
      w ∈ Text.tokens (s ++ String.ofList (['$','\x7b'] ++ cs))
    rw [String.ofList_append, String.ofList_append, ← String.append_assoc, ← String.append_assoc,
      mem_tokens_around hw (by decide +kernel), mem_tokens_around hw (by decide +kernel), h]
  | case3 c cs _ hc ih =>
    have h := ih ""
    rw [String.empty_append, String.empty_append] at h
    obtain rfl := beq_iff_eq.mp hc
    change w ∈ Text.tokens (s ++ String.ofList (['\\','\x60'] ++ _)) ↔
      w ∈ Text.tokens (s ++ String.ofList (['\x60'] ++ cs))
    rw [String.ofList_append, String.ofList_append, ← String.append_assoc, ← String.append_assoc,
      mem_tokens_around hw (by decide +kernel), mem_tokens_around hw (by decide +kernel), h]
  | case4 c cs _ _ ih =>
    have h := ih (s ++ String.ofList [c])
    rwa [String.append_assoc, String.append_assoc, ← String.ofList_append,
      ← String.ofList_append] at h

theorem shows_fragments {fragments : List Fragment} (h : k.ShowsFragments ms fragments) :
    k.Shows ms (String.join (fragments.map fragment)) := by
  induction h with
  | nil => exact .clear k.clear_empty
  | @text ms fs t h ih =>
    rw [List.map_cons, String.join_cons]
    have ht : k.Shows (k.clashes t) (fragment (.text t)) := by
      refine shows_clashes fun ht => .clear ?_
      have hsame := mem_tokens_escapeTemplate k.opens_name "" t.toList
      rw [String.empty_append, String.empty_append, String.ofList_toList] at hsame
      exact mt hsame.mp ht
    cases fs with
    | nil =>
      cases h
      simpa [gluedFragments] using ht
    | cons f fs =>
      cases f with
      | text => exact .clash (by simp [gluedFragments]) _
      | code code format =>
        rw [gluedFragments, List.append_nil]
        refine ht.append_of_opens ih ?_
        rw [List.map_cons, String.join_cons]
        exact Text.opens_append (Text.opens_append (Text.opens_append (by decide) _) _) _
  | code format ht _ ih =>
    rw [List.map_cons, String.join_cons]
    have hcode := (ht.after (s := "$\x7b") (starts hk rfl)).before (t := "\x7d") (ends hk rfl)
    exact hcode.append_of_closes ih (Text.closes_append _ (by decide))

omit hk in
theorem localDeclaration_eq (name : String) (ty init : Option String) (mutable : Bool) :
    localDeclaration name ty init mutable =
      (if mutable || init.isNone then "let " else "const ") ++ name ++ ty.elim "" (": " ++ ·) ++
        init.elim "" (" = " ++ ·) ++ ";" := by
  cases ty <;> cases init <;> rfl

/-- A declaration from its start, which holds the name. -/
theorem shows_localDeclaration {start : String} {ty init : Option String} (h : k.Shows as start)
    (hty : k.ShowsOpt bs ty) (hinit : k.ShowsOpt cs init) :
    k.Shows (as ++ bs ++ cs)
      (start ++ ty.elim "" (": " ++ ·) ++ init.elim "" (" = " ++ ·) ++ ";") := by
  have helim {as ms : List Mark} {o : Option String} {s sep : String} (hs : k.Shows as s)
      (ho : k.ShowsOpt ms o) (hsep : k.Parts sep) :
      k.Shows (as ++ ms) (s ++ o.elim "" (sep ++ ·)) := by
    cases o with
    | none =>
      obtain rfl : ms = [] := ho
      simpa using hs
    | some t => simpa [String.append_assoc] using hs.join hsep ho
  exact (helim (helim h hty (parts hk rfl)) hinit (parts hk rfl)).before (ends hk rfl)

theorem starts_keyword (mutable : Bool) (init : Option String) :
    k.Starts (if mutable || init.isNone then "let " else "const ") := by
  split
  · exact starts hk rfl
  · exact starts hk rfl

theorem shows_declared (name : String) (mutable : Bool) (init : Option String) :
    k.Shows (k.declared name) ((if mutable || init.isNone then "let " else "const ") ++ name) := by
  unfold declared
  split
  · next hname =>
    rw [hname, Shows, Text.tokens_append_of_closes (starts_keyword hk mutable init).closes,
      tokens_name]
    split
    · exact .declaration (show "let" ∈ keywords by decide)
    · exact .declaration (show "const" ∈ keywords by decide)
  · exact (shows_clashes .clear).after (starts_keyword hk mutable init)

theorem shows_heads {heads : List (String × Option String)} (h : k.ShowsHeads ms heads) :
    k.Shows ms (declarationClause heads) := by
  refine Shows.after (shows_commas hk ?_) (starts hk rfl)
  induction h with
  | nil => exact .nil
  | @cons as bs cs name init heads hname hinit _ ih =>
    refine .cons ?_ ih
    cases init with
    | none =>
      obtain rfl : bs = [] := hinit
      rw [List.append_nil]
      exact hname
    | some init => exact hname.join (parts hk rfl) hinit

theorem transparent : dialect.Transparent k where
  indentUnit := starts hk rfl
  assignment op := by
    intro as bs target value htarget hvalue
    have htoken : k.Parts (" " ++ op.token ++ " ") := parts hk (by cases op <;> decide +kernel)
    simpa [dialect, String.append_assoc] using htarget.join htoken hvalue
  thisMember := wraps_after (starts hk rfl)
  staticMember := joins_around (parts hk rfl)
  memberAccess := joins_around (parts hk rfl)
  objectCreation := shows_objectCreation hk
  arrayObject := by
    intro cs ty constructor args init hty hinit
    change k.Shows cs (objectCreation ty constructor args init)
    unfold objectCreation
    rw [if_pos hty]
    cases init with
    | none =>
      obtain rfl : cs = [] := hinit
      exact .clear (clear_of_speaks hk rfl)
    | some init => exact hinit
  invocation htarget hargs :=
    (htarget.join (parts hk rfl) (shows_commas hk hargs)).before (ends hk rfl)
  thisExpr := clear_of_speaks hk rfl
  baseExpr := clear_of_speaks hk rfl
  trueLiteral := clear_of_speaks hk rfl
  falseLiteral := clear_of_speaks hk rfl
  zeroLiteral := clear_of_speaks hk rfl
  binary := shows_binary hk
  genericName hname hargs := by
    have hargs : k.Shows _ (angled _) :=
      wraps_around (starts hk rfl) (ends hk rfl) (shows_commas hk hargs)
    exact hname.append_of_opens hargs (Text.opens_append (Text.opens_append (by decide) _) _)
  lambdaParameter := by
    intro as bs name ty hname hty
    cases ty with
    | none =>
      obtain rfl : bs = [] := hty
      rw [List.append_nil]
      exact hname
    | some ty => exact hname.join (parts hk rfl) hty
  lambda hparams hbody :=
    ((shows_commas hk hparams).after (starts hk rfl)).join (parts hk rfl) hbody
  conditional hcondition htrue hfalse :=
    (hcondition.join (parts hk rfl) htrue).join (parts hk rfl) hfalse
  cast hty hoperand :=
    ((hoperand.after (starts hk rfl)).join (parts hk rfl) hty).before (ends hk rfl)
  conditionalAccess htarget hrest hopens := htarget.append_of_opens hrest hopens
  memberBinding := wraps_after (starts hk rfl)
  prefixUnary op := wraps_after (starts hk (by cases op <;> decide +kernel))
  postfixUnary op := wraps_before (ends hk (by cases op <;> decide +kernel))
  elementAccess htarget hargs :=
    (htarget.join (parts hk rfl) (hargs.intercalate (parts hk rfl))).before (ends hk rfl)
  interpolatedString h := wraps_around (starts hk rfl) (ends hk rfl) (shows_fragments hk h)
  defaultValue ty := by
    cases ty with
    | none => exact clear_of_speaks hk (t := "undefined") rfl
    | some _ => exact clear_of_speaks hk (t := "null") rfl
  typeReference := fun _ _ h => h
  tupleLiteral h := wraps_around (starts hk rfl) (ends hk rfl) (shows_commas hk h)
  initializer := by
    intro ms elements shape h
    have hlist : k.Shows ms ("[" ++ commas elements ++ "]") :=
      wraps_around (starts hk rfl) (ends hk rfl) (shows_commas hk h)
    cases shape with
    | object =>
      change k.Shows ms (if elements.isEmpty then _ else _)
      split
      · next hempty =>
        obtain rfl := List.isEmpty_iff.mp hempty
        exact h.eq_nil ▸ .clear (clear_of_speaks hk rfl)
      · exact wraps_around (starts hk rfl) (ends hk rfl) (shows_commas hk h)
    | _ => exact hlist
  initializerMember := joins_around (parts hk rfl)
  parenthesized := wraps_around (starts hk rfl) (ends hk rfl)
  initializedArray _ _ h := h
  sizedArray _ helement hsize :=
    ((helement.after (starts hk rfl)).join (parts hk rfl) hsize).before (ends hk rfl)
  emptyArray _ := clear_of_speaks hk (t := "[]") rfl
  typeOf := fun _ _ h => h
  await := wraps_after (starts hk rfl)
  implicitArray := fun _ _ h => h
  declarationExpression := fun _ _ h => h
  boxDeclaration := by
    intro ms temp init htemp hinit
    have hvalue : k.Shows ms (init.getD "undefined") := hinit.getD (clear_of_speaks hk rfl)
    have hstart : k.Starts ("const " ++ temp ++ ": \x7b value: any \x7d = \x7b value: ") :=
      (Starts.clear_append (starts hk rfl) htemp).append_parts (parts hk rfl)
    exact (hvalue.after hstart).before (ends hk rfl)
  boxArgument := fun _ _ h => h
  boxValue := wraps_before (ends hk rfl)
  parameterValue := wraps_before (ends hk rfl)
  expressionStatement := wraps_before (ends hk rfl)
  returnStatement := by
    intro ms value h
    cases value with
    | none =>
      obtain rfl : ms = [] := h
      exact .clear (clear_of_speaks hk rfl)
    | some value => exact wraps_around (starts hk rfl) (ends hk rfl) h
  localDeclaration := by
    intro as bs cs name ty init mutable hname hty hinit
    change k.Shows _ (localDeclaration name ty init mutable)
    rw [localDeclaration_eq]
    exact shows_localDeclaration hk (hname.after (starts_keyword hk mutable init)) hty hinit
  outDeclaration := by
    intro bs cs ty init name mutable hty hinit
    change k.Shows _ (localDeclaration name ty (some init) mutable)
    rw [localDeclaration_eq]
    exact shows_localDeclaration hk (shows_declared hk name mutable (some init)) hty hinit
  declarationClause := shows_heads hk
  throwStatement h := wraps_around (starts hk rfl) (ends hk rfl) (h.getD (clear_of_speaks hk rfl))
  breakStatement := clear_of_speaks hk rfl
  continueStatement := clear_of_speaks hk rfl
  blockOpen := parts hk rfl
  blockClose := ends hk rfl
  ifHeader := wraps_around (starts hk rfl) (ends hk rfl)
  elseIfHeader := wraps_around (starts hk rfl) (ends hk rfl)
  elseHeader := clear_of_speaks hk rfl
  whileHeader := wraps_around (starts hk rfl) (ends hk rfl)
  doHeader := clear_of_speaks hk rfl
  doFooter := wraps_around (starts hk rfl) (ends hk rfl)
  forHeader := by
    intro as bs cs init condition steps hinit hcondition hsteps
    have hstart := (hinit.getD k.clear_empty).after (s := "for (") (starts hk rfl)
    have htest := hstart.join (t := "; ") (parts hk rfl) (hcondition.getD k.clear_empty)
    exact (htest.join (parts hk rfl) (shows_commas hk hsteps)).before (ends hk rfl)
  forEachHeader _ := fun _ _ _ _ hname hiterable =>
    ((hname.after (starts hk rfl)).join (parts hk rfl) hiterable).before (ends hk rfl)
  switchHeader := wraps_around (starts hk rfl) (ends hk rfl)
  caseLabel := wraps_around (starts hk rfl) (ends hk rfl)
  defaultLabel := clear_of_speaks hk rfl
  tryHeader := clear_of_speaks hk rfl
  catchHeader _ h := wraps_around (starts hk rfl) (ends hk rfl) (h.getD (clear_of_speaks hk rfl))
  finallyHeader := clear_of_speaks hk rfl
  dispose := wraps_before (ends hk rfl)
  constructorChain := by
    intro ms args constructor target hname hargs
    have hcall {s : String} (hs : k.Clear s) : k.Shows ms (s ++ "(" ++ commas args ++ ");") :=
      ((shows_commas hk hargs).after (hs.append_parts (parts hk rfl))).before (ends hk rfl)
    have hdot {s : String} (hs : k.Clear s) (name : String) (h : name ∈ constructor) :
        k.Clear (s ++ "." ++ name) := (hs.append_parts (parts hk rfl)).clear_append (hname name h)
    have hthis : k.Clear "this" := clear_of_speaks hk rfl
    have hsuper : k.Clear "super" := clear_of_speaks hk rfl
    cases target with
    | base =>
      cases constructor with
      | none => exact hcall hsuper
      | some name => exact hcall (hdot hsuper name rfl)
    | this =>
      cases constructor with
      | none => exact hcall (clear_of_speaks hk rfl)
      | some name => exact hcall (hdot hthis name rfl)
  opens_memberBinding name := Text.opens_append (by decide) name
  opens_memberAccess name h := Text.opens_append (Text.opens_append h _) name
  opens_invocation args h := Text.opens_append (Text.opens_append (Text.opens_append h _) _) _
  opens_elementAccess args h := Text.opens_append (Text.opens_append (Text.opens_append h _) _) _
  opens_conditionalAccess rest h := Text.opens_append h rest

end

end TypeScript

end Recast
