import Recast.Proofs.Json.Text
import Recast.Proofs.Sorted.Lookups
import Recast.Proofs.Source.Decoding
import Recast.Source.Document

/-! # Documents are read back as they were written

The text of a document is the text of its JSON value. All numbers in it are natural and small, and
the outline of a document wants all of its parts, so the text is read as that value; the value is
decoded to the document.
-/
namespace Recast

open Json

namespace Json

theorem plain_natural_uint32 (n : UInt32) : (Json.natural n.toNat).Plain :=
  Nat.lt_trans n.toNat_lt (by decide)

theorem plain_natural_uint64 (n : UInt64) : (Json.natural n.toNat).Plain := n.toNat_lt

theorem plain_ofOption {α : Type} {f : α → Json} (h : ∀ a, (f a).Plain) (a : Option α) :
    (ofOption f a).Plain := by
  cases a with
  | none => trivial
  | some a => exact h a

theorem plain_string (s : String) : (Json.string s).Plain := trivial

theorem plain_ofString? (s : Option String) : (ofString? s).Plain := plain_ofOption plain_string s

theorem plainItems_map {α : Type} {f : α → Json} (h : ∀ a, (f a).Plain) (as : List α) :
    PlainItems (as.map f) := by
  induction as with
  | nil => trivial
  | cons a as ih => exact ⟨h a,ih⟩

theorem plain_strings (xs : List String) : (strings xs).Plain := plainItems_map plain_string xs

end Json

theorem NodeId.plain_toJson (id : NodeId) : id.toJson.Plain := plain_natural_uint32 id

namespace SourceType

mutual

theorem plain_toJson : (ty : SourceType) → ty.toJson.Plain
  | .predefined _ => ⟨trivial,trivial,trivial⟩
  | .named _ args => ⟨trivial,trivial,plain_toJsons args,trivial⟩
  | .qualified _ _ args => ⟨trivial,trivial,trivial,plain_toJsons args,trivial⟩
  | .array element rank => ⟨trivial,plain_toJson element,plain_natural_uint32 rank,trivial⟩
  | .nullable inner => ⟨trivial,plain_toJson inner,trivial⟩
  | .tuple elements => ⟨trivial,plain_toJsons elements,trivial⟩
  | .function params none => ⟨trivial,plain_toJsons params,trivial,trivial⟩
  | .function params (some returns) =>
    ⟨trivial,plain_toJsons params,plain_toJson returns,trivial⟩

theorem plain_toJsons : (tys : List SourceType) → PlainItems (toJsons tys)
  | [] => trivial
  | ty :: tys => ⟨plain_toJson ty,plain_toJsons tys⟩

end

theorem plain_ofType? (ty : Option SourceType) : (ofType? ty).Plain :=
  plain_ofOption plain_toJson ty

end SourceType

theorem LambdaParam.plain_toJson (p : LambdaParam) : p.toJson.Plain :=
  ⟨trivial,SourceType.plain_ofType? p.ty,trivial⟩

mutual

theorem Expr.plain_toJson : (e : Expr) → e.toJson.Plain
  | .assignment id _ target value =>
    ⟨trivial,id.plain_toJson,trivial,target.plain_toJson,value.plain_toJson,trivial⟩
  | .identifier id _ => ⟨trivial,id.plain_toJson,trivial,trivial⟩
  | .objectCreation id ty args init =>
    ⟨trivial,id.plain_toJson,ty.plain_toJson,plain_argumentsToJson args,plain_exprToJson? init,
      trivial⟩
  | .memberAccess id target name =>
    ⟨trivial,id.plain_toJson,target.plain_toJson,name.plain_toJson,trivial⟩
  | .invocation id target args =>
    ⟨trivial,id.plain_toJson,target.plain_toJson,plain_argumentsToJson args,trivial⟩
  | .this id => ⟨trivial,id.plain_toJson,trivial⟩
  | .literal id _ _ => ⟨trivial,id.plain_toJson,trivial,trivial,trivial⟩
  | .binary id _ left right =>
    ⟨trivial,id.plain_toJson,trivial,left.plain_toJson,right.plain_toJson,trivial⟩
  | .genericName id _ args =>
    ⟨trivial,id.plain_toJson,trivial,SourceType.plain_toJsons args,trivial⟩
  | .simpleLambda id param body =>
    ⟨trivial,id.plain_toJson,param.plain_toJson,body.plain_toJson,trivial⟩
  | .parenthesizedLambda id params body =>
    ⟨trivial,id.plain_toJson,plainItems_map LambdaParam.plain_toJson params,body.plain_toJson,
      trivial⟩
  | .conditional id condition whenTrue whenFalse =>
    ⟨trivial,id.plain_toJson,condition.plain_toJson,whenTrue.plain_toJson,whenFalse.plain_toJson,
      trivial⟩
  | .cast id ty operand => ⟨trivial,id.plain_toJson,ty.plain_toJson,operand.plain_toJson,trivial⟩
  | .conditionalAccess id target rest =>
    ⟨trivial,id.plain_toJson,target.plain_toJson,rest.plain_toJson,trivial⟩
  | .memberBinding id name => ⟨trivial,id.plain_toJson,name.plain_toJson,trivial⟩
  | .prefixUnary id _ operand => ⟨trivial,id.plain_toJson,trivial,operand.plain_toJson,trivial⟩
  | .postfixUnary id _ operand => ⟨trivial,id.plain_toJson,trivial,operand.plain_toJson,trivial⟩
  | .elementAccess id target args =>
    ⟨trivial,id.plain_toJson,target.plain_toJson,plain_argumentsToJson args,trivial⟩
  | .interpolatedString id parts => ⟨trivial,id.plain_toJson,plain_partsToJson parts,trivial⟩
  | .defaultValue id ty => ⟨trivial,id.plain_toJson,SourceType.plain_ofType? ty,trivial⟩
  | .predefinedType id _ => ⟨trivial,id.plain_toJson,trivial,trivial⟩
  | .tuple id elements => ⟨trivial,id.plain_toJson,plain_argumentsToJson elements,trivial⟩
  | .initializer id _ elements =>
    ⟨trivial,id.plain_toJson,trivial,plain_exprsToJson elements,trivial⟩
  | .base id => ⟨trivial,id.plain_toJson,trivial⟩
  | .parenthesized id inner => ⟨trivial,id.plain_toJson,inner.plain_toJson,trivial⟩
  | .arrayCreation id element sizes init =>
    ⟨trivial,id.plain_toJson,element.plain_toJson,plain_exprsToJson sizes,plain_exprToJson? init,
      trivial⟩
  | .typeOf id ty => ⟨trivial,id.plain_toJson,ty.plain_toJson,trivial⟩
  | .qualifiedName id left right =>
    ⟨trivial,id.plain_toJson,left.plain_toJson,right.plain_toJson,trivial⟩
  | .await id operand => ⟨trivial,id.plain_toJson,operand.plain_toJson,trivial⟩
  | .implicitArrayCreation id init => ⟨trivial,id.plain_toJson,init.plain_toJson,trivial⟩
  | .declaration id ty _ => ⟨trivial,id.plain_toJson,SourceType.plain_ofType? ty,trivial,trivial⟩
  | .other id _ => ⟨trivial,id.plain_toJson,trivial,trivial⟩

theorem plain_exprToJson? : (e : Option Expr) → (exprToJson? e).Plain
  | none => trivial
  | some e => e.plain_toJson

theorem plain_exprsToJson : (es : List Expr) → PlainItems (exprsToJson es)
  | [] => trivial
  | e :: es => ⟨e.plain_toJson,plain_exprsToJson es⟩

theorem Argument.plain_toJson : (a : Argument) → a.toJson.Plain
  | ⟨_,expr⟩ => ⟨trivial,expr.plain_toJson,trivial⟩

theorem plain_argumentsToJson : (as : List Argument) → PlainItems (argumentsToJson as)
  | [] => trivial
  | a :: as => ⟨a.plain_toJson,plain_argumentsToJson as⟩

theorem LambdaBody.plain_toJson : (b : LambdaBody) → b.toJson.Plain
  | .block statements => ⟨trivial,plain_stmtsToJson statements,trivial⟩
  | .expression expr => ⟨trivial,expr.plain_toJson,trivial⟩

theorem InterpolationPart.plain_toJson : (p : InterpolationPart) → p.toJson.Plain
  | .text _ => ⟨trivial,trivial,trivial⟩
  | .expression expr format => ⟨trivial,expr.plain_toJson,plain_ofString? format,trivial⟩

theorem plain_partsToJson : (ps : List InterpolationPart) → PlainItems (partsToJson ps)
  | [] => trivial
  | p :: ps => ⟨p.plain_toJson,plain_partsToJson ps⟩

theorem Declarator.plain_toJson : (d : Declarator) → d.toJson.Plain
  | ⟨id,_,init⟩ => ⟨id.plain_toJson,trivial,plain_exprToJson? init,trivial⟩

theorem plain_declaratorsToJson : (ds : List Declarator) → PlainItems (declaratorsToJson ds)
  | [] => trivial
  | d :: ds => ⟨d.plain_toJson,plain_declaratorsToJson ds⟩

theorem VariableDeclaration.plain_toJson : (d : VariableDeclaration) → d.toJson.Plain
  | ⟨ty,declarators⟩ => ⟨SourceType.plain_ofType? ty,plain_declaratorsToJson declarators,trivial⟩

theorem plain_declarationToJson? : (d : Option VariableDeclaration) → (declarationToJson? d).Plain
  | none => trivial
  | some d => d.plain_toJson

theorem SwitchLabel.plain_toJson : (l : SwitchLabel) → l.toJson.Plain
  | .case value => ⟨trivial,value.plain_toJson,trivial⟩
  | .default => ⟨trivial,trivial⟩

theorem plain_labelsToJson : (ls : List SwitchLabel) → PlainItems (labelsToJson ls)
  | [] => trivial
  | l :: ls => ⟨l.plain_toJson,plain_labelsToJson ls⟩

theorem SwitchSection.plain_toJson : (s : SwitchSection) → s.toJson.Plain
  | ⟨labels,statements⟩ => ⟨plain_labelsToJson labels,plain_stmtsToJson statements,trivial⟩

theorem plain_sectionsToJson : (ss : List SwitchSection) → PlainItems (sectionsToJson ss)
  | [] => trivial
  | s :: ss => ⟨s.plain_toJson,plain_sectionsToJson ss⟩

theorem CatchClause.plain_toJson : (c : CatchClause) → c.toJson.Plain
  | ⟨ty,name,block⟩ =>
    ⟨SourceType.plain_ofType? ty,plain_ofString? name,plain_stmtsToJson block,trivial⟩

theorem plain_catchesToJson : (cs : List CatchClause) → PlainItems (catchesToJson cs)
  | [] => trivial
  | c :: cs => ⟨c.plain_toJson,plain_catchesToJson cs⟩

theorem Stmt.plain_toJson : (s : Stmt) → s.toJson.Plain
  | .expression id expr => ⟨trivial,id.plain_toJson,expr.plain_toJson,trivial⟩
  | .ret id value => ⟨trivial,id.plain_toJson,plain_exprToJson? value,trivial⟩
  | .locals id declaration => ⟨trivial,id.plain_toJson,declaration.plain_toJson,trivial⟩
  | .switch id subject sections =>
    ⟨trivial,id.plain_toJson,subject.plain_toJson,plain_sectionsToJson sections,trivial⟩
  | .block id statements => ⟨trivial,id.plain_toJson,plain_stmtsToJson statements,trivial⟩
  | .breakLoop id => ⟨trivial,id.plain_toJson,trivial⟩
  | .throw id value => ⟨trivial,id.plain_toJson,plain_exprToJson? value,trivial⟩
  | .ifElse id condition thenBranch otherwise =>
    ⟨trivial,id.plain_toJson,condition.plain_toJson,thenBranch.plain_toJson,
      plain_stmtToJson? otherwise,trivial⟩
  | .forLoop id declaration initializers condition incrementors body =>
    ⟨trivial,id.plain_toJson,plain_declarationToJson? declaration,plain_exprsToJson initializers,
      plain_exprToJson? condition,plain_exprsToJson incrementors,body.plain_toJson,trivial⟩
  | .whileLoop id condition body =>
    ⟨trivial,id.plain_toJson,condition.plain_toJson,body.plain_toJson,trivial⟩
  | .continueLoop id => ⟨trivial,id.plain_toJson,trivial⟩
  | .forEach id ty _ iterable body =>
    ⟨trivial,id.plain_toJson,SourceType.plain_ofType? ty,trivial,iterable.plain_toJson,
      body.plain_toJson,trivial⟩
  | .tryCatch id block catches none =>
    ⟨trivial,id.plain_toJson,plain_stmtsToJson block,plain_catchesToJson catches,trivial,trivial⟩
  | .tryCatch id block catches (some last) =>
    ⟨trivial,id.plain_toJson,plain_stmtsToJson block,plain_catchesToJson catches,
      plain_stmtsToJson last,trivial⟩
  | .lock id target body => ⟨trivial,id.plain_toJson,target.plain_toJson,body.plain_toJson,trivial⟩
  | .useResource id declaration target body =>
    ⟨trivial,id.plain_toJson,plain_declarationToJson? declaration,plain_exprToJson? target,
      body.plain_toJson,trivial⟩
  | .doWhile id body condition =>
    ⟨trivial,id.plain_toJson,body.plain_toJson,condition.plain_toJson,trivial⟩
  | .empty id => ⟨trivial,id.plain_toJson,trivial⟩
  | .other id _ => ⟨trivial,id.plain_toJson,trivial,trivial⟩

theorem plain_stmtToJson? : (s : Option Stmt) → (stmtToJson? s).Plain
  | none => trivial
  | some s => s.plain_toJson

theorem plain_stmtsToJson : (ss : List Stmt) → PlainItems (stmtsToJson ss)
  | [] => trivial
  | s :: ss => ⟨s.plain_toJson,plain_stmtsToJson ss⟩

end

theorem Body.plain_toJson : (b : Body) → b.toJson.Plain
  | .block statements => ⟨trivial,plain_stmtsToJson statements,trivial⟩
  | .expression expr => ⟨trivial,expr.plain_toJson,trivial⟩

theorem BaseType.plain_toJson (b : BaseType) : b.toJson.Plain :=
  ⟨b.id.plain_toJson,b.ty.plain_toJson,trivial⟩

theorem ParameterDecl.plain_toJson (p : ParameterDecl) : p.toJson.Plain :=
  ⟨trivial,p.ty.plain_toJson,plain_strings p.modifiers,plain_exprToJson? p.default,trivial⟩

theorem AccessorDecl.plain_toJson (a : AccessorDecl) : a.toJson.Plain :=
  ⟨trivial,plain_strings a.modifiers,plain_ofOption Body.plain_toJson a.body,trivial⟩

theorem ConstructorChain.plain_toJson (c : ConstructorChain) : c.toJson.Plain :=
  ⟨trivial,plain_argumentsToJson c.args,trivial⟩

namespace Member

mutual

theorem plain_toJson : (m : Member) → m.toJson.Plain
  | .namespaceDecl _ members => ⟨trivial,trivial,plain_toJsons members,trivial⟩
  | .typeDecl head members =>
    ⟨trivial,trivial,trivial,plain_strings head.modifiers,plain_strings head.genericParams,
      plainItems_map BaseType.plain_toJson head.bases,plain_toJsons members,trivial⟩
  | .delegate d =>
    ⟨trivial,trivial,plain_strings d.modifiers,plain_strings d.genericParams,
      plainItems_map ParameterDecl.plain_toJson d.params,d.returns.plain_toJson,trivial⟩
  | .field d =>
    ⟨trivial,plain_strings d.modifiers,d.ty.plain_toJson,plain_declaratorsToJson d.declarators,
      trivial⟩
  | .property d =>
    ⟨trivial,plain_strings d.modifiers,d.ty.plain_toJson,trivial,
      plainItems_map AccessorDecl.plain_toJson d.accessors,plain_exprToJson? d.expressionBody,
      plain_exprToJson? d.initializer,trivial⟩
  | .event d =>
    ⟨trivial,plain_strings d.modifiers,d.ty.plain_toJson,plain_strings d.names,trivial⟩
  | .method d =>
    ⟨trivial,trivial,plain_strings d.modifiers,d.returns.plain_toJson,
      plain_strings d.genericParams,plainItems_map ParameterDecl.plain_toJson d.params,
      plain_ofOption Body.plain_toJson d.body,trivial⟩
  | .constructor d =>
    ⟨trivial,trivial,plain_strings d.modifiers,plainItems_map ParameterDecl.plain_toJson d.params,
      plain_ofOption ConstructorChain.plain_toJson d.chain,
      plain_ofOption Body.plain_toJson d.body,trivial⟩
  | .enumMember d => ⟨trivial,trivial,plain_ofString? d.value,trivial⟩
  | .region _ thenMembers otherwise =>
    ⟨trivial,trivial,plain_toJsons thenMembers,plain_toJsons otherwise,trivial⟩
  | .other _ => ⟨trivial,trivial,trivial⟩

theorem plain_toJsons : (ms : List Member) → PlainItems (toJsons ms)
  | [] => trivial
  | m :: ms => ⟨plain_toJson m,plain_toJsons ms⟩

end

end Member

/-! ## Oracles -/

namespace Symbol

theorem plain_toJson (s : Symbol) : s.toJson.Plain :=
  ⟨trivial,trivial,plain_ofString? s.containingType,trivial,
    plain_ofOption plain_natural_uint64 s.parameterCount,trivial⟩

theorem ofJson?_toJson (s : Symbol) : ofJson? s.toJson = some s :=
  have hcount := optional_ofOption (n := 0) rfl (fun n _ => uint64_natural n) s.parameterCount
  some_of_bind rfl <| some_of_bind (word_ofWord s.kind) <| some_of_bind rfl <|
    some_of_bind (optional_ofString? s.containingType) <| some_of_bind rfl <|
    some_of_bind (hcount (by cases s.parameterCount <;> exact Nat.le_refl 0)) rfl

/-- The outline of a symbol names all of its members. -/
theorem covers_toJson (s : Symbol) :
    (Outline.record (memberNames.map (·,.whole))).Covers s.toJson :=
  ⟨rfl,covers_whole _,covers_whole _,covers_whole _,covers_whole _,covers_whole _,trivial⟩

end Symbol

namespace Oracle

theorem idOfKey?_keyOfId (id : NodeId) : idOfKey? (keyOfId id) = some id := by
  have hchars : (keyOfId id).toList = Nat.toDigits 10 id.toNat := by
    rw [keyOfId, Nat.toString_eq_repr, Nat.toList_repr]
  have hvalue : digitsValue (Nat.toDigits 10 id.toNat) = id.toNat := digitsValue_toDigits _
  have hempty : (Nat.toDigits 10 id.toNat).isEmpty = false :=
    List.isEmpty_eq_false_iff.mpr Nat.toDigits_ne_nil
  have hall : (Nat.toDigits 10 id.toNat).all (fun c => '0' ≤ c && c ≤ '9') = true :=
    List.all_eq_true.mpr fun c hc => isDigit_of_mem_toDigits hc
  have hzero : ((Nat.toDigits 10 id.toNat).head? == some '0' &&
      (Nat.toDigits 10 id.toNat).length != 1) = false := by
    by_cases hid : id.toNat = 0
    · rw [hid]
      rfl
    · rw [beq_eq_false_iff_ne.mpr (head?_toDigits_ne hid)]
      rfl
  unfold idOfKey?
  rw [hchars]
  show (if _ then none else if _ then none
    else if digitsValue (Nat.toDigits 10 id.toNat) < UInt32.size then
      some (UInt32.ofNat (digitsValue (Nat.toDigits 10 id.toNat))) else none) = some id
  rw [hempty, hall, hzero, hvalue, if_pos id.toNat_lt, UInt32.ofNat_toNat]
  rfl

/-- The members of a table's object, in the order of the ids. -/
def tableFields {α : Type} (item : α → Json) (entries : List (NodeId × α)) :
    List (String × Json) := entries.map fun (id,a) => (keyOfId id,item a)

variable {α : Type} {item : α → Json}

theorem plain_tableToJson (h : ∀ a, (item a).Plain) (table : SortedMap NodeId α) :
    (tableToJson item table).Plain := by
  show PlainFields (tableFields item table.entries)
  induction table.entries with
  | nil => trivial
  | cons e es ih => exact ⟨h e.2,ih⟩

theorem covers_tableToJson {o : Outline} (h : ∀ a, o.Covers (item a))
    (table : SortedMap NodeId α) : (Outline.table o).Covers (tableToJson item table) := by
  refine ⟨rfl,?_⟩
  show (Outline.table o).CoversFields (tableFields item table.entries)
  induction table.entries with
  | nil => trivial
  | cons e es ih => exact ⟨h e.2,ih⟩

theorem entries_tableFields {decode : Decoder α} (h : ∀ a, decode (item a) = some a)
    (entries : List (NodeId × α)) :
    Decoder.entries idOfKey? decode (.object (tableFields item entries)) = some entries := by
  induction entries with
  | nil => rfl
  | cons e es ih =>
    have hentry : (do return (← idOfKey? (keyOfId e.1),← decode (item e.2))) = some e :=
      some_of_bind (idOfKey?_keyOfId e.1) <| some_of_bind (h e.2) rfl
    show ((keyOfId e.1,item e.2) :: tableFields item es).mapM _ = some (e :: es)
    rw [List.mapM_cons]
    exact some_of_bind hentry <| some_of_bind ih rfl

theorem tableOfJson?_tableToJson {decode : Decoder α} (h : ∀ a, decode (item a) = some a)
    (table : SortedMap NodeId α) : tableOfJson? decode (tableToJson item table) = some table := by
  have hentries := entries_tableFields h table.entries
  show (Decoder.entries idOfKey? decode (.object (tableFields item table.entries))).map _ = _
  rw [hentries, Option.map_some, SortedMap.ofList_entries UInt32.lt_irrefl]

theorem plain_toJson (o : Oracle) : o.toJson.Plain :=
  ⟨plain_tableToJson SourceType.plain_toJson o.types,
    plain_tableToJson Symbol.plain_toJson o.symbols,trivial⟩

theorem covers_toJson (o : Oracle) : outline.Covers o.toJson := by
  have htypes : (Outline.table .whole).Covers (tableToJson SourceType.toJson o.types) :=
    covers_tableToJson (fun _ => covers_whole _) o.types
  have hsymbols := covers_tableToJson Symbol.covers_toJson o.symbols
  exact ⟨rfl,htypes,hsymbols,trivial⟩

theorem ofJson?_toJson (o : Oracle) : ofJson? o.toJson = some o :=
  some_of_bind rfl <|
    some_of_bind (tableOfJson?_tableToJson SourceType.ofJson?_toJson o.types) <|
    some_of_bind (tableOfJson?_tableToJson Symbol.ofJson?_toJson o.symbols) rfl

end Oracle

/-! ## Documents -/

namespace Document

theorem plain_toJson (d : Document) : d.toJson.Plain :=
  ⟨trivial,Member.plain_toJsons d.members,d.oracle.plain_toJson,trivial⟩

theorem covers_toJson (d : Document) : outline.Covers d.toJson :=
  ⟨rfl,covers_whole _,covers_whole _,d.oracle.covers_toJson,trivial⟩

theorem ofJson?_toJson (d : Document) : ofJson? d.toJson = some d :=
  some_of_bind rfl <| some_of_bind rfl <| some_of_bind (Member.mapM_toJsons d.members) <|
    some_of_bind d.oracle.ofJson?_toJson rfl

/-- The value of a document is decoded to the document, and so is its text unless it is nested too
deep for the reader. -/
theorem written_read_back (d : Document) :
    ofJson? d.toJson = some d ∧
      ofText? d.toJson.print = if d.toJson.depth ≤ depthLimit then some d else none := by
  refine ⟨d.ofJson?_toJson,?_⟩
  unfold ofText?
  rw [read_print d.plain_toJson d.covers_toJson]
  split
  · exact d.ofJson?_toJson
  · rfl

end Document

end Recast
