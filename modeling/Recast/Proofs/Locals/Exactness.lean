import Recast.Proofs.Locals.Sight

/-! # What the scan of a body records

The scan of a body records one local for each declaration that it comes to, numbers the locals of
each name in turn, and marks those that are written again. It leaves each scope with what was
visible at its start.
-/
namespace Recast
open Visits

theorem Numbered.of_concat {keys : List LocalKey} {k : LocalKey} (h : Numbered (keys ++ [k])) :
    Numbered keys ∧ k.2 = keys.countP fun k' => k'.1 == k.1 := by
  constructor
  · intro i k' hk'
    have hi := (List.getElem?_eq_some_iff.mp hk').1
    have hnumber := h i k' (by rwa [List.getElem?_append_left hi])
    rwa [List.take_append_of_le_length (Nat.le_of_lt hi)] at hnumber
  · have hnumber := h keys.length k List.getElem?_concat_length
    rwa [List.take_left] at hnumber

theorem find?_of_numbered {locals : List LocalVariable}
    (h : Numbered (locals.map LocalVariable.key)) (name : String) (k : Nat) :
    locals.find? (fun v => v.name == name && v.occurrence == k) =
      (locals.filter fun v => v.name == name)[k]? := by
  induction locals using List.reverseRecOn with
  | nil => rfl
  | append_singleton locals v ih =>
    rw [List.map_append] at h
    obtain ⟨hnumbered, hlast⟩ := h.of_concat
    rw [List.countP_map] at hlast
    rw [List.find?_append, List.filter_append, ih hnumbered]
    by_cases hname : v.name = name
    · subst hname
      have hnumber : v.occurrence = (locals.filter fun u => u.name == v.name).length :=
        hlast.trans List.countP_eq_length_filter
      rcases Nat.lt_trichotomy k v.occurrence with hk | hk | hk
      · have hlt : k < (locals.filter fun u => u.name == v.name).length := hnumber ▸ hk
        rw [List.getElem?_append_left hlt, List.getElem?_eq_getElem hlt, Option.some_or]
      · subst hk
        simp [hnumber]
      · have hfirst : (locals.filter fun u => u.name == v.name)[k]? = none :=
          List.getElem?_eq_none (by omega)
        have hboth : ((locals.filter fun u => u.name == v.name) ++
            [v].filter fun u => u.name == v.name)[k]? = none := by
          apply List.getElem?_eq_none
          simp
          omega
        rw [hfirst, hboth]
        simp [Nat.ne_of_lt hk]
    · simp [hname]

namespace Walks
variable {o : Oracle} {l : Bool} {visits : List Visit} {values : List Expr} {f : Scan → Scan}

theorem ordered (h : Walks o l visits values f) {s : Scan} (hs : s.Ordered) : (f s).Ordered := by
  have hstart : Walk.Ordered ⟨s.bare, []⟩ := by
    constructor
    · exact List.forall_mem_singleton.mpr hs.ascending
    · exact List.forall_mem_singleton.mpr hs.inRange
  have hrun := hstart.run visits
  rw [h.run] at hrun
  exact ⟨hrun.scan.ascending, hrun.scan.inRange⟩

theorem visible_eq (h : Walks o l visits values f) {s t : Scan} (hf : f s = Scan.leave s t) :
    (f s).visible = s.visible := by
  have hbegins := h.visible s
  refine (hbegins.eq_of_length_le ?_).symm
  rw [hf]
  exact List.length_take_le ..

end Walks

namespace Scan

/-- Each scope ends with what was visible at its start. -/
structure ClosesScopes (o : Oracle) (l : Bool) : Prop where
  block : ∀ id statements s, (stmt o l (.block id statements) s).visible = s.visible
  switch : ∀ id subject sections s,
    (stmt o l (.switch id subject sections) s).visible = (expr o l subject s).visible
  forLoop : ∀ id declaration initializers condition incrementors body s,
    (stmt o l (.forLoop id declaration initializers condition incrementors body) s).visible =
      s.visible
  forEach : ∀ id ty name iterable body s,
    (stmt o l (.forEach id ty name iterable body) s).visible = (expr o l iterable s).visible
  tryCatch : ∀ id block catches finallyBlock s,
    (stmt o l (.tryCatch id block catches finallyBlock) s).visible = s.visible
  catchClauses : ∀ clauses s, (catchClauses o l clauses s).visible = s.visible
  useResource : ∀ id declaration target body s,
    (stmt o l (.useResource id declaration target body) s).visible = s.visible
  simpleLambda : ∀ id param body s,
    (expr o l (.simpleLambda id param body) s).visible = s.visible
  parenthesizedLambda : ∀ id params body s,
    (expr o l (.parenthesizedLambda id params body) s).visible = s.visible

theorem visible_catchClauses (o : Oracle) (l : Bool) (clauses : List CatchClause) (s : Scan) :
    (catchClauses o l clauses s).visible = s.visible := by
  induction clauses generalizing s with
  | nil => rfl
  | cons clause clauses ih =>
    obtain ⟨ty, name, block⟩ := clause
    refine (ih _).trans ?_
    cases name with
    | none => exact visible_leave ((Walks.stmts o l block).visible s)
    | some name =>
      exact visible_leave
        (((Walks.declare name (ty.map .ofType)).append (Walks.stmts o l block)).visible s)

theorem visible_tryCatch (o : Oracle) (l : Bool) (id : NodeId) (block : List Stmt)
    (catches : List CatchClause) (finallyBlock : Option (List Stmt)) (s : Scan) :
    (stmt o l (.tryCatch id block catches finallyBlock) s).visible = s.visible := by
  have hblock := visible_leave ((Walks.stmts o l block).visible s)
  have hcatches := visible_catchClauses o l catches (leave s (stmts o l block s))
  cases finallyBlock with
  | none => exact hcatches.trans hblock
  | some statements =>
    have hfinally := visible_leave ((Walks.stmts o l statements).visible
      (catchClauses o l catches (leave s (stmts o l block s))))
    exact hfinally.trans (hcatches.trans hblock)

theorem closesScopes (o : Oracle) (l : Bool) : ClosesScopes o l where
  block id statements _ := (Walks.stmt o l (.block id statements)).visible_eq rfl
  switch _ _ sections _ := (Walks.switchSections o l sections).inScope.visible_eq rfl
  forLoop id declaration initializers condition incrementors body _ := by
    have hwalks :=
      Walks.stmt o l (.forLoop id declaration initializers condition incrementors body)
    rcases declaration with _ | ⟨ty, ds⟩ <;> cases condition <;> exact hwalks.visible_eq rfl
  forEach _ _ name _ body _ :=
    ((Walks.declare name _).append (Walks.stmt o l body)).inScope.visible_eq rfl
  tryCatch := visible_tryCatch o l
  catchClauses := visible_catchClauses o l
  useResource id declaration target body _ := by
    have hwalks := Walks.stmt o l (.useResource id declaration target body)
    rcases declaration with _ | ⟨ty, ds⟩ <;> cases target <;> exact hwalks.visible_eq rfl
  simpleLambda id param body _ :=
    (Walks.expr o l (.simpleLambda id param body)).visible_eq rfl
  parenthesizedLambda id params body _ :=
    (Walks.expr o l (.parenthesizedLambda id params body)).visible_eq rfl

/-- The scan of a body tells what happens in it. -/
structure Faithful (o : Oracle) (returnsValue : Bool) (b : Body) : Prop where
  sites : (body o returnsValue b).locals.map LocalVariable.site = Visits.sites (Visits.body o b)
  /-- A local is numbered by those of its name before it. -/
  occurrence : ∀ i v, (body o returnsValue b).locals[i]? = some v →
    v.occurrence = ((body o returnsValue b).locals.take i).countP fun u => u.name == v.name
  declared : ∀ (f : Routine) name k,
    { f with locals := (body o returnsValue b).locals }.declaredLocal? name k =
      ((body o returnsValue b).locals.filter fun v => v.name == name)[k]?
  /-- A local is marked if a write comes while it is the innermost visible one of its name. -/
  reassigned : ∀ i v, (body o returnsValue b).locals[i]? = some v →
    (v.reassigned = true ↔ Written (Visits.body o b) v.name i)
  scopes : ∀ l, ClosesScopes o l
  ordered : (∀ l st s, Ordered s → (stmt o l st s).Ordered) ∧
    (∀ l e s, Ordered s → (expr o l e s).Ordered) ∧ (body o returnsValue b).Ordered
  returns : (body o returnsValue b).returns =
    (Returned.body returnsValue b).filterMap fun e => (o.typeOf? e.id).map .ofType

theorem body_faithful (o : Oracle) (returnsValue : Bool) (b : Body) :
    Faithful o returnsValue b := by
  obtain ⟨f, hwalks, hbody⟩ := Walks.body o returnsValue b
  have hexact := Walk.Exact.run (Visits.body o b)
  have hrun : Walk.run {} (Visits.body o b) = ⟨(body o returnsValue b).bare, []⟩ :=
    hbody ▸ hwalks.run {} []
  rw [hrun] at hexact
  have hnumbered : Numbered ((body o returnsValue b).locals.map LocalVariable.key) :=
    hexact.numbered
  exact {
    sites := hexact.sites
    occurrence := fun i v hv => by
      have hkey : (Scan.keys (body o returnsValue b))[i]? = some v.key := by
        rw [Scan.keys, List.getElem?_map, hv]
        rfl
      have hnumber := hnumbered i v.key hkey
      rwa [← List.map_take, List.countP_map] at hnumber
    declared := fun _ => find?_of_numbered hnumbered
    reassigned := hexact.reassigned
    scopes := closesScopes o
    ordered := ⟨fun l st _ => (Walks.stmt o l st).ordered, fun l e _ => (Walks.expr o l e).ordered,
      hexact.ordered.scan.ascending, hexact.ordered.scan.inRange⟩
    returns := by
      rw [hbody, hwalks.returns]
      rfl }

def shadowed : Body :=
  .block [.locals 0 ⟨none, [⟨0, "x", some (.literal 0 .numeric "1")⟩]⟩,
    .block 0 [.locals 0 ⟨none, [⟨0, "x", some (.literal 0 .numeric "2")⟩]⟩,
      .expression 0 (.assignment 0 .assign (.identifier 0 "x") (.literal 0 .numeric "3"))],
    .ret 0 (some (.identifier 0 "x"))]

theorem shadowed_faithful :
    (body {} true shadowed).locals.map LocalVariable.reassigned = [false, true] ∧
    Written (Visits.body {} shadowed) "x" 1 ∧ ¬Written (Visits.body {} shadowed) "x" 0 := by
  have h := body_faithful {} true shadowed
  refine ⟨rfl, (h.reassigned 1 _ rfl).mp rfl, fun hwritten => ?_⟩
  exact absurd ((h.reassigned 0 _ rfl).mpr hwritten) (by decide)

end Scan

end Recast
