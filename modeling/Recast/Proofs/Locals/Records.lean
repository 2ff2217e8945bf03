import Recast.Proofs.Locals.Constants
import Recast.Proofs.Locals.Layout

/-! # Each local and its record

Where a local is declared, lowering looks up what the scan has recorded of it, by its name and by
how many locals of the name were declared before. So it finds the record of the place it is at
exactly if the scan came to that place too, after as many locals of the name.
-/
namespace Recast
open LocalEvent

/-- If selected parts of two lists are alike, what is selected in one list is found in the other, as
far on among what is selected. -/
theorem exists_getElem?_of_filter_eq {α β γ : Type} {xs : List α} {ys : List β} {q : α → Bool}
    {r : β → Bool} {f : α → γ} {g : β → γ} (h : (xs.filter q).map f = (ys.filter r).map g) {k : Nat}
    {x : α} (hx : xs[k]? = some x) (hq : q x = true) :
    ∃ p y, ys[p]? = some y ∧ r y = true ∧ g y = f x ∧
      (ys.take p).countP r = (xs.take k).countP q := by
  obtain ⟨hk,rfl⟩ := List.getElem?_eq_some_iff.mp hx
  have hxs : xs = xs.take k ++ xs[k] :: xs.drop (k + 1) := by
    rw [← List.drop_eq_getElem_cons hk,List.take_append_drop]
  have hsplit : (xs.filter q).map f =
      ((xs.take k).filter q).map f ++ f xs[k] :: ((xs.drop (k + 1)).filter q).map f := by
    refine (congrArg (fun l => (l.filter q).map f) hxs).trans ?_
    rw [List.filter_append,List.filter_cons_of_pos hq,List.map_append,List.map_cons]
  obtain ⟨firsts,rest,hfilter,hfirsts,hrest⟩ := List.map_eq_append_iff.mp (h.symm.trans hsplit)
  obtain ⟨y,lasts,rfl,hy,-⟩ := List.map_eq_cons_iff.mp hrest
  obtain ⟨before,after,rfl,rfl,hafter⟩ := List.filter_eq_append_iff.mp hfilter
  obtain ⟨skipped,tail,rfl,hskipped,hry,-⟩ := List.filter_eq_cons_iff.mp hafter
  refine ⟨before.length + skipped.length,y,?_,hry,hy,?_⟩
  · rw [← List.append_assoc,← List.length_append]
    simp
  · have hlength := congrArg List.length hfirsts
    have hnone : skipped.countP r = 0 := List.countP_eq_zero.mpr hskipped
    rw [← List.append_assoc,← List.length_append,List.take_left,List.countP_append,hnone]
    simpa [List.countP_eq_length_filter] using hlength

namespace Layout
variable {a : Layout}

theorem map_snd_lowered (a : Layout) (m n : Nat) :
    (a.lowered m).map Prod.snd = (a.lowered n).map Prod.snd := by
  induction a generalizing m n with
  | empty | place | unlowered => rfl
  | append a b iha ihb =>
    simp only [lowered,List.map_append,iha m n,ihb (m + a.size) (n + a.size)]
  | initialized name value ih =>
    simp only [lowered,List.map_append,ih (m + 1) (n + 1),List.map_cons,List.map_nil]
  | unscanned a ih => exact ih m n

theorem map_snd_scanned (a : Layout) (m n : Nat) :
    (a.scanned m).map Prod.snd = (a.scanned n).map Prod.snd := by
  induction a generalizing m n with
  | empty | place | unscanned => rfl
  | append a b iha ihb =>
    simp only [scanned,List.map_append,iha m n,ihb (m + a.size) (n + a.size)]
  | initialized name value ih => simp only [scanned,List.map_cons,ih (m + 1) (n + 1)]
  | unlowered a ih => exact ih m n

/-- Both walks count as many locals of the name before each declaration. -/
def CountsAlike (a : Layout) : Prop :=
  ∀ k n name valued, (a.lowered 0)[k]? = some (n,{ name, valued := some valued }) →
    ∃ p, (a.scanned 0)[p]? = some (n,name) ∧
      ((a.scanned 0).take p).countP (fun x => x.2 == name) =
        ((a.lowered 0).take k).countP fun x => x.2.name == name

/-- No place is left out by one of the walks, and an initial value declares no local of the name
that it is given to. -/
def isStraight : Layout → Bool
  | .empty | .place _ => true
  | .append a b => a.isStraight && b.isStraight
  | .initialized name value =>
    value.isStraight && !((value.scanned 0).map Prod.snd).contains name
  | .unscanned a => (a.lowered 0).isEmpty
  | .unlowered a => (a.scanned 0).isEmpty

/-- In a straight layout both walks come to the places of each name in the same order. -/
theorem filter_eq_of_isStraight (h : a.isStraight = true) (n : Nat) (name : String) :
    ((a.lowered n).filter fun x => x.2.name == name).map Prod.fst =
      ((a.scanned n).filter fun x => x.2 == name).map Prod.fst := by
  induction a generalizing n with
  | empty => rfl
  | place site => cases hs : site.name == name <;> simp [lowered,scanned,hs]
  | append a b iha ihb =>
    obtain ⟨ha,hb⟩ := Bool.and_eq_true_iff.mp h
    simp only [lowered,scanned,List.filter_append,List.map_append,iha ha,ihb hb]
  | initialized own value ih =>
    obtain ⟨hvalue,hown⟩ := Bool.and_eq_true_iff.mp h
    have hvalue := ih hvalue (n + 1)
    by_cases hname : own = name
    · -- The walks differ in when they come to this place, but the value has none of its name.
      subst hname
      have hnone : (value.scanned (n + 1)).filter (fun x => x.2 == own) = [] := by
        rw [map_snd_scanned value 0 (n + 1)] at hown
        apply List.filter_eq_nil_iff.mpr
        intro x hx hxn
        have hmem : own ∈ (value.scanned (n + 1)).map Prod.snd :=
          List.mem_map.mpr ⟨x,hx,eq_of_beq hxn⟩
        simp [hmem] at hown
      rw [hnone] at hvalue
      simp [lowered,scanned,hvalue,hnone]
    · simp [lowered,scanned,hname,hvalue]
  | unscanned a =>
    have hnone : (a.lowered n).map Prod.snd = [] := by
      rw [map_snd_lowered a n 0,List.isEmpty_iff.mp h]
      rfl
    simp [lowered,scanned,List.map_eq_nil_iff.mp hnone]
  | unlowered a =>
    have hnone : (a.scanned n).map Prod.snd = [] := by
      rw [map_snd_scanned a n 0,List.isEmpty_iff.mp h]
      rfl
    simp [lowered,scanned,List.map_eq_nil_iff.mp hnone]

theorem countsAlike_of_isStraight (h : a.isStraight = true) : a.CountsAlike := by
  intro k n name valued hk
  obtain ⟨p,⟨m,other⟩,hp,hother,hm,hcount⟩ := exists_getElem?_of_filter_eq
    (filter_eq_of_isStraight h 0 name) hk (beq_self_eq_true name)
  obtain rfl : other = name := eq_of_beq hother
  obtain rfl : m = n := hm
  exact ⟨p,hp,hcount⟩

instance (a : Layout) : Decidable a.CountsAlike :=
  decidable_of_iff (∀ k : Fin (a.lowered 0).length, (a.lowered 0)[k].2.valued.isSome →
      ∃ p : Fin (a.scanned 0).length,
        (a.scanned 0)[p] = ((a.lowered 0)[k].1,(a.lowered 0)[k].2.name) ∧
          ((a.scanned 0).take p).countP (fun x => x.2 == (a.lowered 0)[k].2.name) =
            ((a.lowered 0).take k).countP fun x => x.2.name == (a.lowered 0)[k].2.name) <| by
    constructor
    · intro h k n name valued hk
      obtain ⟨hlt,he⟩ := List.getElem?_eq_some_iff.mp hk
      have hplace := h ⟨k,hlt⟩
      simp only [Fin.getElem_fin,he] at hplace
      obtain ⟨p,hp,hcount⟩ := hplace rfl
      exact ⟨p,List.getElem?_eq_some_iff.mpr ⟨p.isLt,hp⟩,hcount⟩
    · intro h k hvalued
      obtain ⟨valued,hsome⟩ := Option.isSome_iff_exists.mp hvalued
      have hk : (a.lowered 0)[k.1]? = some ((a.lowered 0)[k].1,
          { name := (a.lowered 0)[k].2.name, valued := some valued }) := by
        rw [List.getElem?_eq_getElem k.isLt,← hsome]
        rfl
      obtain ⟨p,hp,hcount⟩ := h k _ _ valued hk
      obtain ⟨hlt,he⟩ := List.getElem?_eq_some_iff.mp hp
      exact ⟨⟨p,hlt⟩,he,hcount⟩

end Layout

theorem Maps.routine (f : Routine) (n : Nat) :
    ((Layout.routine f).lowered n).map Prod.snd = sites (Trace.routine f) := by
  have hchain (c : ConstructorChain) :
      Maps (.unscanned (Layout.arguments c.args)) (Trace.arguments c.args) id :=
    (Maps.arguments {} false c.args).unscanned
  have hbody (b : Body) : ∃ g, Maps (Layout.body b) (Trace.body b) g := by
    obtain ⟨g,hg,-⟩ := Maps.body {} false b
    exact ⟨g,hg⟩
  unfold Layout.routine Trace.routine
  cases f.chain with
  | some c =>
    cases f.body with
    | some b =>
      obtain ⟨g,hg⟩ := hbody b
      exact ((hchain c).append hg).lowered n
    | none => exact ((hchain c).append Maps.empty).lowered n
  | none =>
    cases f.body with
    | some b =>
      obtain ⟨g,hg⟩ := hbody b
      exact (Maps.empty.append hg).lowered n
    | none => rfl

namespace Routine
variable {f : Routine} {n p : Nat} {name : String} {v : LocalVariable}

theorem keys_locals (hs : f.IsScanned) {b : Body} (hb : f.body = some b) :
    f.locals.map LocalVariable.key =
      LocalKey.count [] (((Layout.routine f).scanned 0).map Prod.snd) := by
  obtain ⟨o,returnsValue,hlocals⟩ := hs b hb
  obtain ⟨g,hg,hscan⟩ := Maps.body o returnsValue b
  rw [hlocals,hscan]
  unfold Layout.routine
  rw [hb]
  cases f.chain with
  | some c => exact hg.scanned _ {}
  | none => exact hg.scanned _ {}

theorem numbered_locals (hs : f.IsScanned) {b : Body} (hb : f.body = some b) :
    Numbered (f.locals.map LocalVariable.key) := by
  have hstart : Numbered [] := fun _ _ h => nomatch h
  rw [keys_locals hs hb]
  exact LocalKey.numbered_count hstart _

theorem names_locals (hs : f.IsScanned) {b : Body} (hb : f.body = some b) :
    f.locals.map LocalVariable.name = ((Layout.routine f).scanned 0).map Prod.snd := by
  have hfst := congrArg (List.map Prod.fst) (keys_locals hs hb)
  rw [LocalKey.map_fst_count,List.map_map] at hfst
  exact hfst

theorem scanned_of_body_eq_none (hb : f.body = none) : (Layout.routine f).scanned 0 = [] := by
  unfold Layout.routine
  rw [hb]
  cases f.chain with
  | some c => rfl
  | none => rfl

theorem declaredLocal?_of_mem (h : Numbered (f.locals.map LocalVariable.key)) (hv : v ∈ f.locals) :
    f.declaredLocal? v.name v.occurrence = some v := by
  cases hfind : f.declaredLocal? v.name v.occurrence with
  | none =>
    have hnone := List.find?_eq_none.mp hfind v hv
    simp at hnone
  | some w =>
    obtain ⟨hw,hkey⟩ := key_of_declaredLocal? hfind
    rw [h.eq_of_key hw hv hkey]

/-- The record of a place has its name, and the number of places of the name before it. -/
theorem exists_record (hs : f.IsScanned)
    (hp : ((Layout.routine f).scanned 0)[p]? = some (n,name)) :
    ∃ v, f.locals[p]? = some v ∧ f.declaredLocal? name v.occurrence = some v ∧
      v.occurrence = (((Layout.routine f).scanned 0).take p).countP fun x => x.2 == name := by
  cases hb : f.body with
  | none =>
    rw [scanned_of_body_eq_none hb] at hp
    nomatch hp
  | some b =>
    have hnumbered := numbered_locals hs hb
    have hnames := names_locals hs hb
    have hname : (f.locals.map LocalVariable.name)[p]? = some name := by
      rw [hnames,List.getElem?_map,hp]
      rfl
    rw [List.getElem?_map] at hname
    obtain ⟨v,hv,rfl⟩ := Option.map_eq_some_iff.mp hname
    refine ⟨v,hv,declaredLocal?_of_mem hnumbered (List.mem_of_getElem? hv),?_⟩
    have hkey : (f.locals.map LocalVariable.key)[p]? = some v.key := by
      rw [List.getElem?_map,hv]
      rfl
    calc
      v.occurrence = ((f.locals.map LocalVariable.key).take p).countP fun k => k.1 == v.name :=
        hnumbered p v.key hkey
      _ = ((f.locals.map LocalVariable.name).take p).countP (· == v.name) := by
        rw [← List.map_take,← List.map_take,List.countP_map,List.countP_map]
        rfl
      _ = (((Layout.routine f).scanned 0).take p).countP fun x => x.2 == v.name := by
        rw [hnames,← List.map_take,List.countP_map]
        rfl

/-- Each declaration goes by what is recorded of its own place: that is the record which is looked
up, and the one that the entry of the declaration is made from. -/
def ConsultsOwn (f : Routine) (declared : List DeclaredLocal) : Prop :=
  ∀ k n name valued,
    ((Layout.routine f).lowered 0)[k]? = some (n,{ name, valued := some valued }) →
    ∃ (p : Nat) (v : LocalVariable),
      ((Layout.routine f).scanned 0)[p]? = some (n,name) ∧ f.locals[p]? = some v ∧
      f.declaredLocal? name ((declared.take k).countP fun d => d.name == name) = some v ∧
      declared[k]? = some { name, mutable := some (!valued || v.reassigned) }

theorem consultsOwn_iff (hs : f.IsScanned) :
    f.ConsultsOwn (Site.log (some f) [] (sites (Trace.routine f))) ↔
      (Layout.routine f).CountsAlike := by
  have hsites := Maps.routine f 0
  have hcount (k : Nat) (name : String) :
      ((Site.log (some f) [] (sites (Trace.routine f))).take k).countP (fun d => d.name == name) =
        (((Layout.routine f).lowered 0).take k).countP fun x => x.2.name == name := by
    rw [Site.take_log,Site.countP_log,← hsites,← List.map_take,tally,List.countP_map]
    exact Nat.zero_add _
  constructor
  · intro h k n name valued hk
    obtain ⟨p,v,hp,hv,hlookup,-⟩ := h k n name valued hk
    obtain ⟨w,hw,-,hnumber⟩ := exists_record hs hp
    obtain rfl : v = w := Option.some.inj (hv.symm.trans hw)
    obtain ⟨-,hkey⟩ := key_of_declaredLocal? hlookup
    refine ⟨p,hp,?_⟩
    rw [← hnumber,← hcount k name]
    exact congrArg Prod.snd hkey
  · intro h k n name valued hk
    obtain ⟨p,hp,hsame⟩ := h k n name valued hk
    obtain ⟨v,hv,hlookup,hnumber⟩ := exists_record hs hp
    have hfound : f.declaredLocal? name
        (((Site.log (some f) [] (sites (Trace.routine f))).take k).countP
          fun d => d.name == name) = some v := by
      rw [hcount k name,← hsame,← hnumber]
      exact hlookup
    refine ⟨p,v,hp,hv,hfound,?_⟩
    have hsite : (sites (Trace.routine f))[k]? = some { name, valued := some valued } := by
      rw [← hsites,List.getElem?_map,hk]
      rfl
    rw [Site.take_log] at hfound
    rw [Site.getElem?_log,hsite]
    simp only [Option.map_some,Site.entry,mayRewrite,Option.bind_some,hfound,Option.getD_some]

end Routine

namespace Lowering
open Routine
variable {l : Lowering} {id : ClassId} {index : Nat} {P : Routine → List DeclaredLocal → Prop}

/-- If the routine is lowered, something holds of it and of the locals that were declared. -/
def WhenLowered (l : Lowering) (id : ClassId) (index : Nat)
    (P : Routine → List DeclaredLocal → Prop) : Prop :=
  ∀ f c t, l.routineContext id index = .ok (f,c) →
    c.env.routineBody id f c.state = (.ok (),t) → P f t.declared

instance [∀ f declared, Decidable (P f declared)] : Decidable (l.WhenLowered id index P) :=
  match hc : l.routineContext id index with
  | .error _ => isTrue fun _ _ _ h => nomatch hc.symm.trans h
  | .ok (f,c) =>
    match hr : c.env.routineBody id f c.state with
    | (.error _,_) => isTrue fun _ _ _ h h' => by
      cases hc.symm.trans h
      nomatch hr.symm.trans h'
    | (.ok (),t) =>
      decidable_of_iff (P f t.declared) <| by
        constructor
        · intro hP _ _ _ h h'
          cases hc.symm.trans h
          cases hr.symm.trans h'
          exact hP
        · intro hall
          exact hall f c t hc hr

/-- If the routine is lowered, each declaration goes by what the scan recorded of it. -/
def ConsultsOwnRecords (l : Lowering) (id : ClassId) (index : Nat) : Prop :=
  l.WhenLowered id index ConsultsOwn

theorem consultsOwnRecords_iff_countsAlike (hp : l.program.IsScanned) (id : ClassId)
    (index : Nat) : l.ConsultsOwnRecords id index ↔
      l.WhenLowered id index fun f _ => (Layout.routine f).CountsAlike := by
  have hiff (f : Routine) (c : Context) (t : LowerState)
      (h : l.routineContext id index = .ok (f,c))
      (hr : c.env.routineBody id f c.state = (.ok (),t)) :
      f.ConsultsOwn t.declared ↔ (Layout.routine f).CountsAlike := by
    rw [declared_routineBody h hr]
    exact consultsOwn_iff (isScanned_of_routineContext hp h).2
  constructor
  · intro H f c t h hr
    exact (hiff f c t h hr).mp (H f c t h hr)
  · intro H f c t h hr
    exact (hiff f c t h hr).mpr (H f c t h hr)

theorem isScanned_of_run {s : Session} {stages : List Stage} (hempty : s.program.classes = [])
    (hprogram : l.program = (s.run stages).2.program) : l.program.IsScanned := by
  have hstart : s.program.IsScanned := by
    unfold Program.IsScanned
    rw [hempty]
    exact List.forall_mem_nil _
  rw [hprogram]
  exact Session.isScanned_run hstart stages

/-- In a program that the stages of a session have made, each declaration goes by what the scan
recorded of it exactly if both walks count alike. They do so at least if the layout is straight. -/
theorem consultsOwnRecords_iff {s : Session} {stages : List Stage}
    (hempty : s.program.classes = []) (hprogram : l.program = (s.run stages).2.program)
    (id : ClassId) (index : Nat) :
    (l.ConsultsOwnRecords id index ↔
        l.WhenLowered id index fun f _ => (Layout.routine f).CountsAlike) ∧
      ((∀ f, l.program.routineAt? id index = some f → (Layout.routine f).isStraight = true) →
        l.ConsultsOwnRecords id index) := by
  have hscanned := isScanned_of_run hempty hprogram
  have hiff := consultsOwnRecords_iff_countsAlike hscanned id index
  refine ⟨hiff,fun hstraight => hiff.mpr ?_⟩
  intro f c t h _
  obtain ⟨hf,-⟩ := isScanned_of_routineContext hscanned h
  exact Layout.countsAlike_of_isStraight (hstraight f hf)

def withBody (statements : List Stmt) : Document where
  name := "a"
  members := [.typeDecl { keyword := .classKind, name := "K" } [.method {
    name := "m", returns := .predefined "void", body := some (.block statements) }]]

/-- Two locals of one name, one after the other, of which the first is written. -/
def localsInTurn : Document :=
  withBody [
    .block 0 [
      .locals 0 ⟨none,[⟨0,"x",some (.literal 0 .numeric "1")⟩]⟩,
      .expression 0 (.assignment 0 .assign (.identifier 0 "x") (.literal 0 .numeric "2"))],
    .block 0 [.locals 0 ⟨none,[⟨0,"x",some (.literal 0 .numeric "3")⟩]⟩]]

theorem localsInTurn_consultsOwnRecords : (ofDocument localsInTurn).ConsultsOwnRecords 0 0 := by
  have hempty : ({ sources := [.parsed localsInTurn] } : Session).program.classes = [] := rfl
  refine (consultsOwnRecords_iff hempty (l := ofDocument localsInTurn) rfl 0 0).2 ?_
  have hall : ((ofDocument localsInTurn).program.routineAt? 0 0).all
      (fun f => (Layout.routine f).isStraight) = true := by
    decide +kernel
  intro f hf
  rwa [hf] at hall

/-- A local whose initial value declares another one of its name, which is written. -/
def localInValue : Document :=
  withBody [.locals 0 ⟨none,[⟨0,"x",some (.parenthesizedLambda 0 [] (.block [
    .locals 0 ⟨none,[⟨0,"x",some (.literal 0 .numeric "1")⟩]⟩,
    .expression 0 (.assignment 0 .assign (.identifier 0 "x") (.literal 0 .numeric "2"))]))⟩]⟩]

/-- Each of the two goes by what was recorded of the other one. -/
theorem localInValue_not_consultsOwnRecords :
    ¬ (ofDocument localInValue).ConsultsOwnRecords 0 0 := by
  have hscanned : (ofDocument localInValue).program.IsScanned := isScanned_of_run rfl rfl
  rw [consultsOwnRecords_iff_countsAlike hscanned]
  decide +kernel

end Lowering

end Recast
