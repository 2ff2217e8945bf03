import Recast.TypeScript.Dialect
import Recast.Proofs.Locals.Scanned
import Recast.Proofs.Lowering.Context

/-! # Constants are not written

A local that is declared with a value and that the body does not write again is declared as a
constant. The declarations that lowering makes are those of the trace of the body, each with what
the routine knows of the local. So no constant is written exactly if the routine knows of every
write.
-/
namespace Recast

namespace Site
variable (f : Option Routine) (declared : List DeclaredLocal) (sites : List Site)

theorem prefix_log : declared <+: log f declared sites := by
  induction sites generalizing declared with
  | nil => exact List.prefix_rfl
  | cons site sites ih => exact (List.prefix_append _ _).trans (ih _)

theorem countP_log (name : String) : (log f declared sites).countP (fun v => v.name == name) =
    declared.countP (fun v => v.name == name) + LocalEvent.tally name sites := by
  induction sites generalizing declared with
  | nil => rfl
  | cons site sites ih =>
    change (log f (declared ++ [site.entry f declared]) sites).countP _ = _
    rw [ih,List.countP_append,List.countP_singleton,LocalEvent.tally,LocalEvent.tally,
      List.countP_cons]
    change _ + (if (site.name == name) = true then 1 else 0) + _ = _
    omega

theorem length_log : (log f declared sites).length = declared.length + sites.length := by
  induction sites generalizing declared with
  | nil => rfl
  | cons site sites ih =>
    change (log f (declared ++ [site.entry f declared]) sites).length = _
    rw [ih]
    simp only [List.length_append,List.length_cons,List.length_nil]
    omega

/-- The first entries are those of the first places. -/
theorem take_log (k : Nat) : (log f [] sites).take k = log f [] (sites.take k) := by
  by_cases hk : k ≤ sites.length
  · have h : log f [] (sites.take k) <+: log f [] sites := by
      conv => rhs; rw [← List.take_append_drop k sites]
      rw [log_append]
      exact prefix_log f _ _
    rw [List.prefix_iff_eq_take.mp h,length_log,List.length_take]
    congr 1
    simp only [List.length_nil]
    omega
  · rw [List.take_of_length_le,List.take_of_length_le]
    · omega
    · rw [length_log,List.length_nil]
      omega

theorem getElem?_log (k : Nat) : (log f [] sites)[k]? =
    sites[k]?.map (entry f (log f [] (sites.take k))) := by
  by_cases hk : k < sites.length
  · have hlen : (log f [] (sites.take k)).length = k := by
      rw [length_log,List.length_take,List.length_nil]
      omega
    have hlog : (log f [] sites).take (k + 1) =
        log f [] (sites.take k) ++ [sites[k].entry f (log f [] (sites.take k))] := by
      rw [take_log,List.take_succ_eq_append_getElem hk,log_append]
      rfl
    rw [List.getElem?_eq_getElem hk,← List.getElem?_take_of_lt (Nat.lt_succ_self k),hlog,
      List.getElem?_append_right (Nat.le_of_eq hlen),hlen,Nat.sub_self]
    rfl
  · have hlen := length_log f [] sites
    rw [List.length_nil] at hlen
    rw [List.getElem?_eq_none (by omega : (log f [] sites).length ≤ k),
      List.getElem?_eq_none (by omega : sites.length ≤ k)]
    rfl

/-- After some places, a place declares a constant if it gives a value and nothing is known of a
write. -/
theorem entry_log_eq_constant_iff (site : Site) (name : String) :
    site.entry f (log f [] sites) = { name, mutable := some false } ↔
      site = { name, valued := some true } ∧
        Routine.mayRewrite f (name,LocalEvent.tally name sites) = false := by
  obtain ⟨n,valued⟩ := site
  have hcount := countP_log f [] sites n
  simp only [List.countP_nil,Nat.zero_add] at hcount
  unfold entry
  rw [hcount]
  cases valued with
  | none => simp
  | some valued =>
    cases valued with
    | false => simp
    | true =>
      simp only [DeclaredLocal.mk.injEq,Option.map_some,Bool.not_true,Bool.false_or,
        Option.some.injEq,Site.mk.injEq,and_true]
      constructor <;> (rintro ⟨rfl,h⟩; exact ⟨rfl,h⟩)

end Site

namespace Lowering
open LocalEvent
variable {l : Lowering} {id : ClassId} {index : Nat} {f : Routine} {c : Context} {t : LowerState}

/-- If the routine is lowered, none of the locals that are declared as constants is written. -/
def KeepsConstants (l : Lowering) (id : ClassId) (index : Nat) : Prop :=
  ∀ f c t, l.routineContext id index = .ok (f,c) →
    c.env.routineBody id f c.state = (.ok (),t) →
    ∀ k name, t.declared[k]? = some { name, mutable := some false } →
      (name,(t.declared.take k).countP fun v => v.name == name) ∉ Usage.writtenIn f

instance (l : Lowering) (id : ClassId) (index : Nat) : Decidable (l.KeepsConstants id index) :=
  match hc : l.routineContext id index with
  | .error _ => isTrue fun _ _ _ h => nomatch hc.symm.trans h
  | .ok (f,c) =>
    match hr : c.env.routineBody id f c.state with
    | (.error _,_) => isTrue fun _ _ _ h h' => by
      cases hc.symm.trans h
      nomatch hr.symm.trans h'
    | (.ok (),t) =>
      decidable_of_iff (∀ k : Fin t.declared.length, t.declared[k].mutable = some false →
          (t.declared[k].name,(t.declared.take k).countP fun v => v.name == t.declared[k].name) ∉
            Usage.writtenIn f) <| by
        constructor
        · intro hall _ _ _ h h' k name hk
          cases hc.symm.trans h
          cases hr.symm.trans h'
          obtain ⟨hlt,he⟩ := List.getElem?_eq_some_iff.mp hk
          have hw := hall ⟨k,hlt⟩
          simp only [Fin.getElem_fin,he] at hw
          exact hw trivial
        · intro hall k hk
          refine hall f c t hc hr k _ ?_
          rw [List.getElem?_eq_getElem k.isLt,← hk]
          rfl

/-- The routine knows of every write to a local that is declared with a value. -/
def KnowsWrites (f : Routine) : Prop :=
  ∀ k name, (sites (Trace.routine f))[k]? = some { name, valued := some true } →
    (name,tally name ((sites (Trace.routine f)).take k)) ∈ Usage.writtenIn f →
    Routine.mayRewrite (some f) (name,tally name ((sites (Trace.routine f)).take k)) = true

theorem routine?_of_routineContext (h : l.routineContext id index = .ok (f,c)) :
    c.env.routine? c.state.scope = some f ∧ c.state.declared = [] := by
  unfold routineContext at h
  split at h
  · next hf =>
    cases h
    exact ⟨hf,rfl⟩
  · cases h

theorem declared_routineBody (h : l.routineContext id index = .ok (f,c))
    (hr : c.env.routineBody id f c.state = (.ok (),t)) :
    t.declared = Site.log (some f) [] (sites (Trace.routine f)) := by
  obtain ⟨hf,hd⟩ := routine?_of_routineContext h
  rw [(c.env.follows.routineBody id f).1.2 _ _ _ hr,hf,hd]

/-- A declaration is one of a constant if it gives a value and the routine knows of no write. -/
theorem getElem?_declared (h : l.routineContext id index = .ok (f,c))
    (hr : c.env.routineBody id f c.state = (.ok (),t)) (k : Nat) (name : String) :
    t.declared[k]? = some { name, mutable := some false } ↔
      (sites (Trace.routine f))[k]? = some { name, valued := some true } ∧
        Routine.mayRewrite (some f)
          (name,tally name ((sites (Trace.routine f)).take k)) = false := by
  rw [declared_routineBody h hr,Site.getElem?_log,Option.map_eq_some_iff]
  constructor
  · rintro ⟨site,hsite,he⟩
    obtain ⟨rfl,hw⟩ := (Site.entry_log_eq_constant_iff _ _ site name).mp he
    exact ⟨hsite,hw⟩
  · rintro ⟨hsite,hw⟩
    exact ⟨_,hsite,(Site.entry_log_eq_constant_iff _ _ _ name).mpr ⟨rfl,hw⟩⟩

theorem countP_take_declared (h : l.routineContext id index = .ok (f,c))
    (hr : c.env.routineBody id f c.state = (.ok (),t)) (k : Nat) (name : String) :
    (t.declared.take k).countP (fun v => v.name == name) =
      tally name ((sites (Trace.routine f)).take k) := by
  rw [declared_routineBody h hr,Site.take_log,Site.countP_log]
  simp

theorem constants_iff (h : l.routineContext id index = .ok (f,c))
    (hr : c.env.routineBody id f c.state = (.ok (),t)) : KnowsWrites f ↔
      ∀ k name, t.declared[k]? = some { name, mutable := some false } →
        (name,(t.declared.take k).countP fun v => v.name == name) ∉ Usage.writtenIn f := by
  constructor
  · intro hknows k name hk hw
    rw [countP_take_declared h hr] at hw
    obtain ⟨hsite,hnot⟩ := (getElem?_declared h hr k name).mp hk
    exact absurd (hknows k name hsite hw) (by simp [hnot])
  · intro hall k name hsite hw
    cases hnot : Routine.mayRewrite (some f)
        (name,tally name ((sites (Trace.routine f)).take k)) with
    | true => rfl
    | false =>
      refine absurd ?_ (hall k name ((getElem?_declared h hr k name).mpr ⟨hsite,hnot⟩))
      rwa [countP_take_declared h hr]

theorem knowsWrites_of_isRegular (hs : f.IsScanned) (hr : f.isRegular = true) :
    KnowsWrites f := by
  intro k name _ hw
  unfold Routine.mayRewrite
  cases hv : f.declaredLocal? name (tally name ((sites (Trace.routine f)).take k)) with
  | none => simp [hv]
  | some v => simpa [hv] using f.reassigned_of_written hs hr hw hv

theorem isScanned_of_routineContext (hp : l.program.IsScanned)
    (h : l.routineContext id index = .ok (f,c)) :
    l.program.routineAt? id index = some f ∧ f.IsScanned := by
  unfold routineContext at h
  split at h
  · next hclass hf =>
    cases h
    refine ⟨hf,?_⟩
    obtain ⟨c',hc',hf'⟩ := Option.bind_eq_some_iff.mp hf
    exact hp c' (List.mem_of_getElem? hc') f (List.mem_of_getElem? hf')
  · nomatch h

/-- No local that is declared as a constant is written exactly if the routine knows of the writes.
If its program comes from the stages of a session, it does so at least if it is regular. -/
theorem keepsConstants_iff_knowsWrites (l : Lowering) (id : ClassId) (index : Nat) :
    (l.KeepsConstants id index ↔ ∀ f c t, l.routineContext id index = .ok (f,c) →
      c.env.routineBody id f c.state = (.ok (),t) → KnowsWrites f) ∧
    ∀ (s : Session) (stages : List Stage), s.program.classes = [] →
      l.program = (s.run stages).2.program →
      (∀ f, l.program.routineAt? id index = some f → f.isRegular = true) →
      l.KeepsConstants id index := by
  have hiff : l.KeepsConstants id index ↔ ∀ f c t, l.routineContext id index = .ok (f,c) →
      c.env.routineBody id f c.state = (.ok (),t) → KnowsWrites f :=
    ⟨fun H f c t h hr => (constants_iff h hr).mpr (H f c t h hr),
      fun H f c t h hr => (constants_iff h hr).mp (H f c t h hr)⟩
  refine ⟨hiff,?_⟩
  intro s stages hempty hprogram hregular
  have hstart : s.program.IsScanned := by
    unfold Program.IsScanned
    rw [hempty]
    exact List.forall_mem_nil _
  have hscanned : l.program.IsScanned := hprogram ▸ Session.isScanned_run hstart stages
  apply hiff.mpr
  intro f c t h _
  obtain ⟨hf,hs⟩ := isScanned_of_routineContext hscanned h
  exact knowsWrites_of_isRegular hs (hregular f hf)

/-- A method that gives a new value to a local in parentheses. -/
def parenthesizedWrite : Document where
  name := "a"
  members := [.typeDecl { keyword := .classKind, name := "K" } [.method {
    name := "m", returns := .predefined "void", body := some (.block [
      .locals 0 ⟨none,[⟨0,"x",some (.literal 0 .numeric "1")⟩]⟩,
      .expression 0 (.assignment 0 .assign (.parenthesized 0 (.identifier 0 "x"))
        (.literal 0 .numeric "2"))]) }]]

def ofDocument (d : Document) : Lowering where
  program := (Session.run { sources := [.parsed d] } Stage.standard).2.program
  dialect := TypeScript.dialect
  known := {}

/-- The local is declared as a constant nevertheless. -/
theorem parenthesizedWrite_not_keepsConstants :
    ¬ (ofDocument parenthesizedWrite).KeepsConstants 0 0 := by
  decide +kernel

end Lowering

end Recast
