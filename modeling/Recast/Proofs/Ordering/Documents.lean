import Recast.Output
import Recast.Proofs.Ordering.Renumbering

/-! # The order of documents

The sources of a session are read and searched one after the other. If all of them can be read and
no two classes that they declare have one name, their order leaves no trace in what the session
comes to: the files, the program and the counts.
-/
namespace Recast

theorem Program.addAll_eq {p : Program} (h : p.frozen = false) (cs : List Class) :
    p.addAll cs = .ok { p with classes := p.classes ++ cs } := by
  induction cs generalizing p with
  | nil =>
    rw [List.append_nil]
    rfl
  | cons c cs ih =>
    have hadd : p.add c = .ok { p with classes := p.classes ++ [c] } := by simp [add, h]
    have hrest := ih (p := { p with classes := p.classes ++ [c] }) h
    rw [List.append_assoc] at hrest
    rw [addAll, List.foldlM_cons, hadd]
    exact hrest

/-- What is counted of two documents is counted in either order. -/
instance : RightCommutative Discovery.count where
  right_comm d a b := by simp only [Discovery.count, Nat.add_right_comm]

namespace Session

def documents (s : Session) : List Document :=
  s.sources.filterMap fun source => (source.load (s.defines.defineAll s.symbols)).toOption

def Loads (s : Session) : Prop :=
  ∀ source ∈ s.sources, ∃ document, source.load (s.defines.defineAll s.symbols) = .ok document

/-- The classes that the documents declare and that the rules do not ignore, in order. -/
def declared (s : Session) : List Class :=
  s.documents.flatMap fun document => (s.program.harvest document).classes

def discovered (s : Session) : Program := { s.program.reset with classes := s.declared }

def finished (s : Session) : Session :=
  { s with
    program := s.discovered.resolve.1.sort
    defines := s.defines.defineAll s.symbols
    discovery := some ((s.documents.map s.program.harvest).foldl Discovery.count {})
    resolution := some s.discovered.resolve.2
    notes := .empty
    completed := Stage.standard }

theorem discoverAll_eq (defines : Defines) {sources : List Source} {p : Program}
    (hfrozen : p.frozen = false)
    (hload : ∀ source ∈ sources, ∃ document, source.load defines = .ok document) (d : Discovery) :
    let documents := sources.filterMap fun source => (source.load defines).toOption
    discoverAll defines sources p d =
      (.ok ((documents.map p.harvest).foldl Discovery.count d),
        { p with
          classes := p.classes ++
            documents.flatMap fun document => (p.harvest document).classes }) := by
  induction sources generalizing p d with
  | nil => simp [discoverAll]
  | cons source sources ih =>
    obtain ⟨⟨document,hdocument⟩,hrest⟩ := List.forall_mem_cons.mp hload
    have hdiscover := Program.addAll_eq hfrozen (p.harvest document).classes
    unfold discoverAll
    simp only [hdocument, Program.discover, hdiscover]
    rw [ih (p := { p with classes := p.classes ++ (p.harvest document).classes }) hfrozen hrest]
    simp only [List.filterMap_cons, hdocument, Except.toOption, List.map_cons, List.foldl_cons,
      List.flatMap_cons, List.append_assoc]
    rfl

/-- All stages finish if all sources can be read. -/
theorem run_standard {s : Session} (h : s.Loads) : s.run Stage.standard = (.ok (),s.finished) := by
  have hall := discoverAll_eq (p := s.program.reset) _ rfl h {}
  have hvalid : s.validate Stage.standard = .ok () := rfl
  unfold run
  rw [hvalid]
  simp only [Stage.standard, steps, step, hall]
  rfl

section order
variable {s : Session} {sources : List Source} (hperm : s.sources.Perm sources)
include hperm

theorem perm_documents : s.documents.Perm { s with sources }.documents := hperm.filterMap _

theorem perm_declared : s.declared.Perm { s with sources }.declared :=
  (perm_documents hperm).flatMap_right _

theorem loads_of_perm (h : s.Loads) : { s with sources }.Loads :=
  fun source hsource => h source (hperm.mem_iff.mpr hsource)

/-- The order of the sources stays in the list of sources. -/
theorem finished_of_perm (h : (s.declared.map Class.name).Nodup) :
    { s with sources }.finished = { s.finished with sources } := by
  have hdeclared : s.discovered.classes.Perm { s with sources }.declared := perm_declared hperm
  have hprogram : { s with sources }.discovered.resolve.1.sort = s.discovered.resolve.1.sort :=
    Program.sort_resolve_eq hdeclared h
  have hresolution : s.discovered.resolve.2 = { s with sources }.discovered.resolve.2 :=
    Program.resolve_snd_eq hdeclared rfl h
  have hdiscovery :=
    ((perm_documents hperm).map s.program.harvest).foldl_eq (f := Discovery.count) {}
  unfold finished
  rw [hprogram, hresolution, hdiscovery]

end order

end Session

namespace Target

/-- Sources that can be read and declare classes with names of their own come to the same in any
order: no stage fails, and files or failure, program and counts are the same. -/
theorem emit_of_perm (t : Target) (s : Session) {sources : List Source}
    (hperm : s.sources.Perm sources) (hload : s.Loads)
    (hnames : (s.declared.map Class.name).Nodup) :
    (∀ e, (t.emit s).1 ≠ .error (.stage e)) ∧
      (t.emit { s with sources }).1 = (t.emit s).1 ∧
      (t.emit { s with sources }).2.program = (t.emit s).2.program ∧
      (t.emit { s with sources }).2.discovery = (t.emit s).2.discovery ∧
      (t.emit { s with sources }).2.resolution = (t.emit s).2.resolution := by
  have hrun := Session.run_standard hload
  have hrun' := Session.run_standard (Session.loads_of_perm hperm hload)
  rw [Session.finished_of_perm hperm hnames] at hrun'
  -- From here on only the program matters, not the sources it was made from.
  have hsame : t.lowering { s.finished with sources } = t.lowering s.finished := rfl
  simp only [emit, hrun, hrun', hsame]
  cases t.pages (t.lowering s.finished) 0 s.finished.program.classes with
  | error e => exact ⟨(fun _ h => nomatch h),rfl,rfl,rfl,rfl⟩
  | ok pages => exact ⟨(fun _ h => nomatch h),rfl,rfl,rfl,rfl⟩

def animals : Document where
  name := "animals"
  members := [.typeDecl { keyword := .classKind, name := "Animal" } [
    .method { name := "Speak", returns := .predefined "void" }]]

/-- A document with a class whose base, which it has a conflict with, is declared elsewhere. -/
def dogs : Document where
  name := "dogs"
  members := [.typeDecl
    { keyword := .classKind, name := "Dog", bases := [{ ty := .named "Animal" [] }] }
    [.method {
      name := "Speak", returns := .predefined "void"
      params := [{ name := "loudness", ty := .predefined "int" }] }]]

/-- A session that reads the class before its base. -/
def dogsFirst : Session :=
  { typescript.session {} with sources := [.parsed dogs,.parsed animals] }

theorem dogsFirst_emit :
    let animalsFirst := { dogsFirst with sources := [.parsed animals,.parsed dogs] }
    dogsFirst.sources.Perm animalsFirst.sources ∧ dogsFirst.Loads ∧
      (dogsFirst.declared.map Class.name).Nodup ∧
      (typescript.emit animalsFirst).1 = (typescript.emit dogsFirst).1 ∧
      (typescript.emit animalsFirst).2.program = (typescript.emit dogsFirst).2.program := by
  have hperm : dogsFirst.sources.Perm [.parsed animals,.parsed dogs] := .swap _ _ _
  have hload : dogsFirst.Loads :=
    List.forall_mem_cons.mpr ⟨⟨dogs,rfl⟩,List.forall_mem_singleton.mpr ⟨animals,rfl⟩⟩
  have hnames : (dogsFirst.declared.map Class.name).Nodup := by
    have hdeclared : dogsFirst.declared.map Class.name = ["Dog","Animal"] := rfl
    rw [hdeclared]
    decide
  obtain ⟨-,hfiles,hprogram,-⟩ := emit_of_perm typescript dogsFirst hperm hload hnames
  exact ⟨hperm,hload,hnames,hfiles,hprogram⟩

end Target

end Recast
