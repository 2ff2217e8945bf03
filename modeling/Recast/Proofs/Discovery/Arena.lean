import Recast.Proofs.Ordering.Documents
import Recast.Proofs.Session.Frozen

/-! # Filling a program step by step

A document can also be walked through with the program at hand. A class is added when its head is
met, its members go to the class at its id, and the declarations among them are added behind all
classes that are there by then. In the end the program has the same classes as if each of them had
been put together before it was added.
-/
namespace Recast

/-- A program that is being filled, and what was counted meanwhile. -/
structure Arena where
  program : Program
  counts : Discovery := {}

/-- Steps of filling a program. What was done before a failure stays done. -/
abbrev Filling := ExceptT ProgramError (StateM Arena)

namespace Filling

def rules : Filling Rules := fun a => (.ok a.program.rules, a)

/-- Add a class and give its id. -/
def addClass (c : Class) : Filling ClassId := fun a =>
  match a.program.add c with
  | .error e => (.error e, a)
  | .ok p =>
    (.ok a.program.size, ⟨p, { a.counts with classes := a.counts.classes + 1 }⟩)

def updateClass (id : ClassId) (f : Class → Class) : Filling Unit := fun a =>
  (.ok (), { a with program := { a.program with classes := a.program.classes.modify id f } })

def count (f : Discovery → Discovery) : Filling Unit := fun a =>
  (.ok (), { a with counts := f a.counts })

def skipNamespace : Filling Unit :=
  count fun d => { d with skippedNamespaces := d.skippedNamespaces + 1 }

def skipClass : Filling Unit := count fun d => { d with skippedClasses := d.skippedClasses + 1 }

def skipMember : Filling Unit := count fun d => { d with skippedMembers := d.skippedMembers + 1 }

def delegate (oracle : Oracle) (outer : Option String) (d : DelegateDecl) : Filling Unit := do
  if (← rules).ignoresClass d.name then skipClass
  else discard (addClass (Class.ofDelegate oracle outer d))

mutual

/-- A member outside of types. -/
def member (oracle : Oracle) (outer : Option String) : Member → Filling Unit
  | .namespaceDecl name members => do
    let name := qualifiedName outer name
    if (← rules).ignoresNamespace name then skipNamespace
    else memberList oracle (some name) members
  | .typeDecl head members => do
    if (← rules).ignoresClass head.name then skipClass
    else
      let id ← addClass (Class.ofHead oracle outer head)
      inside oracle outer id members
  | .delegate d => delegate oracle outer d
  | _ => skipMember

def memberList (oracle : Oracle) (outer : Option String) : List Member → Filling Unit
  | [] => pure ()
  | m :: ms => do
    member oracle outer m
    memberList oracle outer ms

/-- The members of the class with the id. -/
def inside (oracle : Oracle) (outer : Option String) (id : ClassId) : List Member → Filling Unit
  | [] => pure ()
  | m :: ms => do
    match m with
    | .field _ | .property _ | .event _ | .method _ | .constructor _ | .enumMember _ =>
      updateClass id (Class.addMember oracle · m)
    | .namespaceDecl .. => skipMember
    | m => member oracle outer m
    inside oracle outer id ms

end

theorem bind_apply {α : Type} (m : Filling α) (f : α → Filling Unit) (a : Arena) :
    (m >>= f) a = match m a with
      | (.ok x, b) => f x b
      | (.error e, b) => (.error e, b) := by
  simp only [bind, ExceptT.bind, ExceptT.mk, StateT.bind, ExceptT.bindCont]
  rcases m a with ⟨_ | _, b⟩ <;> rfl

end Filling

theorem Class.name_foldl_addMember (oracle : Oracle) (members : List Member) (c : Class) :
    (members.foldl (addMember oracle) c).name = c.name := by
  induction members generalizing c with
  | nil => rfl
  | cons m members ih =>
    rw [List.foldl_cons, ih]
    cases m <;> rfl

namespace Discovery

/-- The counts after some more members of the same document. -/
def plus (d : Discovery) (h : Harvest) : Discovery := { d.count h with documents := d.documents }

theorem plus_append (d : Discovery) (h k : Harvest) : d.plus (h ++ k) = (d.plus h).plus k := by
  have hclasses : (h ++ k).classes = h.classes ++ k.classes := rfl
  simp only [plus, count, hclasses, List.length_append, Nat.add_assoc, Discovery.mk.injEq, true_and]
  exact ⟨rfl, rfl, rfl⟩

end Discovery

/-- With some more classes behind those that are there. -/
def Arena.grown (a : Arena) (h : Harvest) : Arena :=
  ⟨{ a.program with classes := a.program.classes ++ h.classes }, a.counts.plus h⟩

theorem Arena.grown_append (a : Arena) (h k : Harvest) :
    a.grown (h ++ k) = (a.grown h).grown k := by
  change Arena.mk { a.program with classes := _ ++ (h.classes ++ k.classes) } _ = Arena.mk _ _
  rw [← List.append_assoc, Discovery.plus_append]
  rfl

theorem Arena.program_grown {a : Arena} {h : Harvest} (hnil : h.classes = []) :
    (a.grown h).program = a.program := by
  unfold grown
  rw [hnil, List.append_nil]

/-- Steps add what is given to a program with the rules. A frozen program stays as it is, and they
stop at the first class that they would add to it. -/
structure Fills (rules : Rules) (m : Filling Unit) (h : Harvest) : Prop where
  grows : ∀ a : Arena, a.program.rules = rules → a.program.frozen = false ∨ h.classes = [] →
    m a = (.ok (), a.grown h)
  stops : ∀ a : Arena, a.program.rules = rules → a.program.frozen = true → ∀ c cs,
    h.classes = c :: cs → ∃ counts, m a = (.error (.frozen c.name), { a with counts })

/-- Steps that change the class with the id and add something behind all classes. -/
def FillsInside (rules : Rules) (id : ClassId) (m : Filling Unit) (f : Class → Class)
    (h : Harvest) : Prop :=
  ∀ (a : Arena) (front back : List Class) (c : Class), a.program.rules = rules →
    a.program.frozen = false → a.program.classes = front ++ c :: back → front.length = id →
    m a = (.ok (), ⟨{ a.program with classes := front ++ f c :: (back ++ h.classes) },
      a.counts.plus h⟩)

namespace Fills
variable {rules : Rules} {m n : Filling Unit} {h k : Harvest}

theorem pure : Fills rules (Pure.pure ()) {} where
  grows a _ _ := by
    change (_, a) = (_, Arena.mk { a.program with classes := a.program.classes ++ [] } _)
    rw [List.append_nil]
    rfl
  stops _ _ _ _ _ hc := by cases hc

theorem append (hm : Fills rules m h) (hn : Fills rules n k) :
    Fills rules (m >>= fun _ => n) (h ++ k) where
  grows a hrules ha := by
    have hnil : (h ++ k).classes = [] → h.classes = [] ∧ k.classes = [] := List.append_eq_nil_iff.mp
    rw [Filling.bind_apply, hm.grows a hrules (ha.imp_right fun e => (hnil e).1),
      Arena.grown_append]
    exact hn.grows (a.grown h) hrules (ha.imp_right fun e => (hnil e).2)
  stops a hrules ha c cs hc := by
    have hclasses : h.classes ++ k.classes = c :: cs := hc
    rw [Filling.bind_apply]
    cases hh : h.classes with
    | nil =>
      rw [hh, List.nil_append] at hclasses
      obtain ⟨counts, hcounts⟩ := hn.stops (a.grown h) hrules ha c cs hclasses
      rw [Arena.program_grown hh] at hcounts
      exact ⟨counts, by rw [hm.grows a hrules (.inr hh)]; exact hcounts⟩
    | cons d ds =>
      obtain ⟨rfl, -⟩ : d = c ∧ _ := by simpa [hh] using hclasses
      obtain ⟨counts, hcounts⟩ := hm.stops a hrules ha d ds hh
      exact ⟨counts, by rw [hcounts]⟩

/-- A choice by the rules. -/
theorem choice (test : Rules → Bool) (hm : test rules = true → Fills rules m h)
    (hn : test rules = false → Fills rules n k) :
    Fills rules (Filling.rules >>= fun r => if test r then m else n)
      (if test rules then h else k) := by
  have hstep {a : Arena} (hrules : a.program.rules = rules) :
      (Filling.rules >>= fun r => if test r then m else n) a =
        (if test rules then m else n) a := by
    rw [Filling.bind_apply, ← hrules]
    rfl
  have hchosen : Fills rules (if test rules then m else n) (if test rules then h else k) := by
    split
    · next htest => exact hm htest
    · next htest => exact hn (Bool.eq_false_iff.mpr htest)
  exact ⟨fun a hrules ha => hstep hrules ▸ hchosen.grows a hrules ha,
    fun a hrules ha c cs hc => hstep hrules ▸ hchosen.stops a hrules ha c cs hc⟩

theorem count {f : Discovery → Discovery} (hnil : h.classes = [])
    (hf : ∀ d, f d = d.plus h) : Fills rules (Filling.count f) h where
  grows a _ _ := by
    change (_, Arena.mk a.program (f a.counts)) = (_, Arena.mk (a.grown h).program _)
    rw [Arena.program_grown hnil, hf]
  stops _ _ _ c cs hc := by
    rw [hnil] at hc
    cases hc

/-- A class is put at the end, and then something is put into it and behind it. -/
theorem addClass {c : Class} {f : Class → Class} {inside : ClassId → Filling Unit}
    (hname : (f c).name = c.name) (hinside : ∀ id, FillsInside rules id (inside id) f h) :
    Fills rules (Filling.addClass c >>= inside) ({ classes := [f c] } ++ h) where
  grows a hrules ha := by
    have hopen : a.program.frozen = false := ha.resolve_right (List.cons_ne_nil _ _)
    have hadd : Filling.addClass c a = (.ok a.program.size,
        ⟨{ a.program with classes := a.program.classes ++ [c] },
          { a.counts with classes := a.counts.classes + 1 }⟩) := by
      simp [Filling.addClass, Program.add, hopen]
    rw [Filling.bind_apply, hadd, Arena.grown, Discovery.plus_append]
    exact hinside a.program.size ⟨{ a.program with classes := a.program.classes ++ [c] },
      { a.counts with classes := a.counts.classes + 1 }⟩ a.program.classes [] c hrules hopen rfl rfl
  stops a _ ha d ds hd := by
    have hadd : Filling.addClass c a = (.error (.frozen c.name), a) := by
      simp [Filling.addClass, Program.add, ha]
    obtain rfl : f c = d := (List.cons.inj hd).1
    refine ⟨a.counts, ?_⟩
    rw [Filling.bind_apply, hadd, hname]

end Fills

namespace FillsInside
variable {rules : Rules} {id : ClassId} {m n : Filling Unit} {f g : Class → Class} {h k : Harvest}

theorem ofFills (hm : Fills rules m h) : FillsInside rules id m (fun c => c) h := by
  intro a front back c hrules ha hclasses _
  rw [hm.grows a hrules (.inl ha), Arena.grown, hclasses, List.append_assoc, List.cons_append]

theorem update (f : Class → Class) : FillsInside rules id (Filling.updateClass id f) f {} := by
  rintro a front back c - - hclasses rfl
  have hmodify : (front ++ c :: back).modify front.length f = front ++ f c :: back := by
    clear hclasses
    induction front with
    | nil => rfl
    | cons d front ih => exact congrArg (d :: ·) ih
  rw [Filling.updateClass, hclasses, hmodify, List.append_nil]
  rfl

theorem append (hm : FillsInside rules id m f h) (hn : FillsInside rules id n g k) :
    FillsInside rules id (m >>= fun _ => n) (fun c => g (f c)) (h ++ k) := by
  intro a front back c hrules ha hclasses hid
  rw [Filling.bind_apply, hm a front back c hrules ha hclasses hid, Discovery.plus_append]
  have hrest := hn ⟨{ a.program with classes := front ++ f c :: (back ++ h.classes) },
    a.counts.plus h⟩ front (back ++ h.classes) (f c) hrules ha rfl hid
  rw [List.append_assoc] at hrest
  exact hrest

end FillsInside

namespace Filling
variable (rules : Rules) (oracle : Oracle)

theorem fills_skipMember : Fills rules skipMember { skippedMembers := 1 } := .count rfl fun _ => rfl

theorem fills_delegate (outer : Option String) (d : DelegateDecl) :
    Fills rules (delegate oracle outer d) (d.harvest rules oracle outer) := by
  refine .choice (fun r => r.ignoresClass d.name) (fun _ => .count rfl fun _ => rfl) fun _ => ?_
  exact .addClass (f := fun c => c) rfl fun _ => .ofFills .pure

mutual

theorem fills_member (outer : Option String) :
    ∀ m : Member, Fills rules (member oracle outer m) (m.harvest rules oracle outer)
  | .namespaceDecl name members =>
    .choice (fun r => r.ignoresNamespace (qualifiedName outer name))
      (fun _ => .count rfl fun _ => rfl) fun _ => fills_memberList _ members
  | .typeDecl head members =>
    .choice (fun r => r.ignoresClass head.name) (fun _ => .count rfl fun _ => rfl) fun _ =>
      .addClass (Class.name_foldl_addMember oracle members _) fun _ =>
        fillsInside_inside outer _ members
  | .delegate d => fills_delegate rules oracle outer d
  | .field _ | .property _ | .event _ | .method _ | .constructor _ | .enumMember _ | .region ..
  | .other _ => fills_skipMember rules

theorem fills_memberList (outer : Option String) :
    ∀ ms : List Member,
      Fills rules (memberList oracle outer ms) (Member.harvestAll rules oracle outer ms)
  | [] => .pure
  | m :: ms => (fills_member outer m).append (fills_memberList outer ms)

theorem fillsInside_inside (outer : Option String) (id : ClassId) :
    ∀ ms : List Member, FillsInside rules id (inside oracle outer id ms)
      (fun c => ms.foldl (Class.addMember oracle) c) (Member.harvestNested rules oracle outer ms)
  | [] => .ofFills .pure
  | m :: ms => by
    have hrest := fillsInside_inside outer id ms
    cases m with
    | field | property | event | method | constructor | enumMember =>
      exact .append (.update _) hrest
    | namespaceDecl => exact .append (.ofFills (fills_skipMember rules)) hrest
    | typeDecl head members =>
      exact .append (.ofFills (fills_member outer (.typeDecl head members))) hrest
    | delegate d => exact .append (.ofFills (fills_delegate rules oracle outer d)) hrest
    | region | other => exact .append (.ofFills (fills_skipMember rules)) hrest

end

end Filling

/-- The walk through a document from an empty count: what it counts, and the program it leaves. -/
def Document.fill (d : Document) (p : Program) : Except ProgramError Discovery × Program :=
  match Filling.memberList d.oracle none d.members ⟨p, {}⟩ with
  | (.ok (), a) => (.ok { a.counts with documents := 1 }, a.program)
  | (.error e, a) => (.error e, a.program)

/-- The walk adds the classes that the document declares, put together before or not. -/
theorem Document.fill_eq (d : Document) (p : Program) : d.fill p = match p.discover d with
    | .ok q => (.ok (({} : Discovery).count (p.harvest d)), q)
    | .error e => (.error e, p) := by
  have hfills : Fills p.rules (Filling.memberList d.oracle none d.members) (p.harvest d) :=
    Filling.fills_memberList p.rules d.oracle none d.members
  have hgrown (hp : p.frozen = false ∨ (p.harvest d).classes = []) : d.fill p =
      (.ok (({} : Discovery).count (p.harvest d)),
        { p with classes := p.classes ++ (p.harvest d).classes }) := by
    simp only [fill, hfills.grows ⟨p, {}⟩ rfl hp]
    rfl
  unfold Program.discover
  cases hp : p.frozen with
  | false => rw [hgrown (.inl hp), Program.addAll_eq hp]
  | true =>
    cases hclasses : (p.harvest d).classes with
    | nil =>
      rw [hgrown (.inr hclasses), hclasses, List.append_nil]
      rfl
    | cons c cs =>
      obtain ⟨counts, hcounts⟩ := hfills.stops ⟨p, {}⟩ rfl hp c cs hclasses
      rw [Program.addAll_of_frozen hp]
      simp only [fill, hcounts]

theorem Session.discoverAll_eq_fill (p : Program) (d : Document) (defines : Defines) :
    discoverAll defines [.parsed d] p {} =
      ((d.fill p).1.mapError StageError.program, (d.fill p).2) := by
  have hload : (Source.parsed d).load defines = .ok d := rfl
  rw [Document.fill_eq]
  simp only [discoverAll, hload]
  cases p.discover d <;> rfl

end Recast
