import Recast.Command.Path
import Recast.Proofs.Discovery.Declarations
import Recast.Proofs.Session.Reruns

/-! # The paths of the files

Every class is written to a file that is called like the class, wherever the class is declared. So
the files have paths of their own exactly if the declarations that are kept have names of their
own, over all documents, namespaces and types that hold them.
-/
namespace Recast

namespace Path

/-- What tells two paths apart: whether they start at the root, and the parts that count. -/
def route (path : String) : Bool × List String := (isAbsolute path,parts path)

theorem splitParts_of_plain {cs : List Char} (h : '/' ∉ cs) : splitParts cs = [cs] := by
  induction cs with
  | nil => rfl
  | cons c cs ih =>
    have hc : (c == '/') = false := by simpa using (List.ne_of_not_mem_cons h).symm
    simp [splitParts, ih (List.not_mem_of_not_mem_cons h), hc]

theorem route_of_plain {path : String} (hplain : '/' ∉ path.toList) (hne : path ≠ "") :
    route path = (false,[path]) := by
  have habsolute : isAbsolute path = false := by
    unfold isAbsolute
    rw [beq_eq_false_iff_ne]
    intro hhead
    exact hplain (List.mem_of_mem_head? hhead)
  have hpieces : pieces path = [path] := by simp [pieces, splitParts_of_plain hplain]
  have hparts : parts path = [path] := by
    unfold parts
    rw [hpieces]
    split
    · next heq =>
      cases heq
      rfl
    · next hdot =>
      have hdot : path ≠ "." := fun heq => hdot [] (by rw [heq])
      simp [hne, hdot]
  rw [route, habsolute, hparts]

end Path

namespace Session

/-- A declaration of the document at a position, kept by the rules. -/
def Declares (s : Session) (k : Nat) (x : Located) : Prop :=
  ∃ d, s.documents[k]? = some d ∧ d.Declares x ∧ s.program.rules.Keeps [] x

theorem loads_of_discoverAll {defines : Defines} {sources : List Source} {p q : Program}
    {d e : Discovery} (h : discoverAll defines sources p d = (.ok e,q)) :
    ∀ source ∈ sources, ∃ document, source.load defines = .ok document := by
  induction sources generalizing p d with
  | nil => exact List.forall_mem_nil _
  | cons source sources ih =>
    unfold discoverAll at h
    split at h
    · cases h
    · next document hdocument =>
      split at h
      · cases h
      · exact List.forall_mem_cons.mpr ⟨⟨document,hdocument⟩,ih h⟩

theorem eq_finished_of_run {s u : Session} (h : s.run Stage.standard = (.ok (),u)) :
    u = s.finished := by
  have hsteps : s.prepared.steps (.discover :: [.resolve,.sort]) = (.ok (),u) := h
  obtain ⟨v,hv,-⟩ := steps_cons_eq_ok_iff.mp hsteps
  have hload : s.Loads := by
    simp only [step] at hv
    split at hv
    · next hdiscover => exact loads_of_discoverAll hdiscover
    · cases hv
  rw [run_standard hload] at h
  cases h
  rfl

/-- The names of the classes stay the same through naming and ordering. -/
theorem perm_names_finished (s : Session) :
    (s.finished.program.classes.map Class.name).Perm (s.declared.map Class.name) := by
  have hsort : s.finished.program.classes.map Class.name =
      (sortBy Class.le s.discovered.resolve.1.classes).map Class.name := by
    show (List.map Class.sortMembers _).map Class.name = _
    rw [List.map_map]
    rfl
  have hresolve : s.discovered.resolve.1.classes.map Class.name = s.declared.map Class.name := by
    have houtline := congrArg (List.map Outline.name) (Program.outline_resolve s.discovered)
    rw [Program.outline, Program.outline, List.map_map, List.map_map] at houtline
    exact houtline
  rw [hsort, ← hresolve]
  exact (perm_sortBy Class.le _).map Class.name

/-- All declarations of some documents, each once, with the positions of their documents from `k`
on. -/
theorem exists_declarations (p : Program) (documents : List Document) (k : Nat) :
    ∃ zs : List (Nat × Located), zs.Nodup ∧
      (∀ l x, (l,x) ∈ zs ↔ ∃ i d, l = k + i ∧ documents[i]? = some d ∧ d.Declares x ∧
        p.rules.Keeps [] x) ∧
      (documents.flatMap fun d => (p.harvest d).classes).map Class.name =
        zs.map fun z => z.2.decl.name := by
  induction documents generalizing k with
  | nil => exact ⟨[],.nil,by simp,rfl⟩
  | cons d documents ih =>
    obtain ⟨zs,hnodup,hmem,hnames⟩ := ih (k + 1)
    obtain ⟨xs,hxs⟩ := p.exists_lists_document d
    have hxsNodup : xs.Nodup := by
      apply List.Nodup.of_map Located.path
      apply hxs.sorted.imp
      rintro x _ hlt rfl
      exact List.lt_irrefl _ hlt
    refine ⟨xs.map (Prod.mk k) ++ zs,?_,?_,?_⟩
    · rw [List.nodup_append]
      refine ⟨hxsNodup.map fun _ _ heq => (Prod.mk.inj heq).2,hnodup,?_⟩
      rintro _ hz w hw rfl
      obtain ⟨x,-,rfl⟩ := List.mem_map.mp hz
      obtain ⟨i,d,hk,-⟩ := (hmem k x).mp hw
      omega
    · intro l x
      rw [List.mem_append, hmem]
      constructor
      · rintro (hx | ⟨i,e,rfl,he⟩)
        · obtain ⟨y,hy,heq⟩ := List.mem_map.mp hx
          cases heq
          exact ⟨0,d,rfl,rfl,(hxs.mem_iff x).mp hy⟩
        · exact ⟨i + 1,e,by omega,he⟩
      · rintro ⟨i,e,rfl,he⟩
        cases i with
        | zero =>
          cases he.1
          exact .inl (List.mem_map_of_mem ((hxs.mem_iff x).mpr he.2))
        | succ i => exact .inr ⟨i,e,by omega,he⟩
    · rw [List.flatMap_cons, List.map_append, hnames, List.map_append, hxs.classes_eq,
        List.map_map, List.map_map]
      congr 1
      apply List.map_congr_left
      intro x _
      exact Declared.name_toClass d.oracle _ x.decl

/-- No two declarations that are kept have names that come to the same. -/
def Separates {α : Type} (s : Session) (f : String → α) : Prop :=
  ∀ k x l y, s.Declares k x → s.Declares l y → f x.decl.name = f y.decl.name → k = l ∧ x = y

theorem nodup_map_names_iff (s : Session) {α : Type} {f : String → α} :
    ((s.declared.map Class.name).map f).Nodup ↔ s.Separates f := by
  obtain ⟨zs,hnodup,hmem,hnames⟩ := exists_declarations s.program s.documents 0
  have hmem : ∀ k x, (k,x) ∈ zs ↔ s.Declares k x := by
    intro k x
    rw [hmem, Declares]
    simp only [Nat.zero_add, exists_and_left, exists_eq_left']
  rw [declared, hnames, List.map_map, List.nodup_map_iff_inj_on hnodup]
  constructor
  · intro hinj k x l y hx hy hname
    exact Prod.mk.inj (hinj (k,x) ((hmem k x).mpr hx) (l,y) ((hmem l y).mpr hy) hname)
  · rintro hseparates ⟨k,x⟩ hx ⟨l,y⟩ hy hname
    obtain ⟨rfl,rfl⟩ := hseparates k x l y ((hmem k x).mp hx) ((hmem l y).mp hy) hname
    rfl

theorem separates_iff_of_inj (s : Session) {α : Type} {f : String → α}
    (h : ∀ c ∈ s.declared, ∀ d ∈ s.declared, f c.name = f d.name → c.name = d.name) :
    s.Separates f ↔ s.Separates id := by
  rw [← s.nodup_map_names_iff, ← s.nodup_map_names_iff, List.map_id]
  refine ⟨List.Nodup.of_map _,List.Nodup.map_on ?_⟩
  intro x hx y hy heq
  obtain ⟨c,hc,rfl⟩ := List.mem_map.mp hx
  obtain ⟨d,hd,rfl⟩ := List.mem_map.mp hy
  exact h c hc d hd heq

end Session

theorem exists_of_bind_eq_ok {ε α β : Type} {x : Except ε α} {f : α → Except ε β} {b : β}
    (h : (x >>= f) = .ok b) : ∃ a, x = .ok a ∧ f a = .ok b := by
  cases x with
  | error e => cases h
  | ok a => exact ⟨a,rfl,h⟩

namespace Target
variable {t : Target} {s : Session} {files : List OutputFile}

def pathOf (t : Target) (name : String) : String := name ++ "." ++ t.extension

theorem length_pages {l : Lowering} {id : ClassId} {classes : List Class} {pages : List Page}
    (h : t.pages l id classes = .ok pages) : pages.length = classes.length := by
  induction classes generalizing id pages with
  | nil =>
    cases h
    rfl
  | cons c classes ih =>
    obtain ⟨page,-,h⟩ := exists_of_bind_eq_ok h
    obtain ⟨rest,hrest,h⟩ := exists_of_bind_eq_ok h
    cases h
    exact congrArg Nat.succ (ih hrest)

theorem map_path_zipWith_file {classes : List Class} {pages : List Page}
    (h : pages.length = classes.length) :
    (List.zipWith t.file classes pages).map OutputFile.path =
      classes.map fun c => t.pathOf c.name := by
  induction classes generalizing pages with
  | nil => rfl
  | cons c classes ih =>
    cases pages with
    | nil => cases h
    | cons page pages => exact congrArg _ (ih (Nat.succ.inj h))

/-- There is a file for each class of the program, and its path comes from the class alone. -/
theorem paths_emit (h : (t.emit s).1 = .ok files) :
    files.map OutputFile.path = s.finished.program.classes.map fun c => t.pathOf c.name := by
  unfold emit at h
  split at h
  · cases h
  · next u hrun =>
    dsimp only at h
    split at h
    · cases h
    · next pages hpages =>
      cases h
      rw [← Session.eq_finished_of_run hrun]
      exact map_path_zipWith_file (length_pages hpages)

theorem pathOf_plain {name : String} (hname : '/' ∉ name.toList) (ht : '/' ∉ t.extension.toList) :
    Path.route (t.pathOf name) = (false,[t.pathOf name]) := by
  apply Path.route_of_plain
  · simpa [pathOf, hname] using ht
  · intro hempty
    simpa [pathOf] using congrArg String.toList hempty

theorem pathOf_inj {x y : String} (h : t.pathOf x = t.pathOf y) : x = y := by
  have hlist := congrArg String.toList h
  simp only [pathOf, String.toList_append, List.append_assoc] at hlist
  exact String.toList_inj.mp (List.append_cancel_right hlist)

/-- What the paths of the files come to is told apart exactly as for the declarations. -/
theorem nodup_map_paths_iff {α : Type} (f : String → α) (h : (t.emit s).1 = .ok files) :
    (files.map fun file => f file.path).Nodup ↔ s.Separates fun name => f (t.pathOf name) := by
  have hpaths := congrArg (List.map f) (paths_emit h)
  rw [List.map_map, List.map_map] at hpaths
  have hperm := s.perm_names_finished.map fun name => f (t.pathOf name)
  rw [List.map_map] at hperm
  have hfiles : (files.map fun file => f file.path).Perm
      ((s.declared.map Class.name).map fun name => f (t.pathOf name)) := hpaths ▸ hperm
  exact hfiles.nodup_iff.trans s.nodup_map_names_iff

/-- The files have paths of their own exactly if no two declarations that are kept have one name,
in whatever documents, namespaces and types they stand. They go to places of their own exactly if
the names lead to places of their own; if the names have no slash, that comes to the same. -/
theorem paths_distinct_iff (t : Target) (s : Session) (files : List OutputFile)
    (hfiles : (t.emit s).1 = .ok files) :
    ((files.map OutputFile.path).Nodup ↔ s.Separates id) ∧
    ((files.map fun file => Path.route file.path).Nodup ↔
      s.Separates fun name => Path.route (t.pathOf name)) ∧
    ('/' ∉ t.extension.toList → (∀ c ∈ s.declared, '/' ∉ c.name.toList) →
      ((files.map fun file => Path.route file.path).Nodup ↔ s.Separates id)) := by
  refine ⟨?_,nodup_map_paths_iff Path.route hfiles,?_⟩
  · refine (nodup_map_paths_iff id hfiles).trans (s.separates_iff_of_inj ?_)
    intro c _ d _ hpath
    exact pathOf_inj hpath
  · intro hextension hnames
    refine (nodup_map_paths_iff Path.route hfiles).trans (s.separates_iff_of_inj ?_)
    -- Without a slash, a name can be read off the place.
    intro c hc d hd hroute
    rw [pathOf_plain (hnames c hc) hextension, pathOf_plain (hnames d hd) hextension] at hroute
    exact pathOf_inj (List.singleton_inj.mp (Prod.mk.inj hroute).2)

/-- A session whose only document has a class of one name in each of two namespaces. -/
def twoNamespaces : Session :=
  { typescript.session {} with
    sources := [.parsed {
      name := "shapes"
      members := ["Flat","Solid"].map fun space =>
        .namespaceDecl space [.typeDecl { keyword := .classKind, name := "Shape" } []] }] }

/-- The second of two classes of one name overwrites the first. -/
theorem twoNamespaces_paths : ∃ files, (typescript.emit twoNamespaces).1 = .ok files ∧
    files.map OutputFile.path = ["Shape.ts","Shape.ts"] ∧
    ¬ (files.map OutputFile.path).Nodup := by
  refine ⟨_,rfl,?_,?_⟩
  · decide
  · decide

theorem dogsFirst_paths : ∃ files, (typescript.emit dogsFirst).1 = .ok files ∧
    (files.map OutputFile.path).Nodup ∧ dogsFirst.Separates id ∧
    (files.map fun file => Path.route file.path).Nodup := by
  have hnames : ∀ c ∈ dogsFirst.declared, '/' ∉ c.name.toList := by decide
  obtain ⟨files,hfiles,hnodup⟩ : ∃ files, (typescript.emit dogsFirst).1 = .ok files ∧
      (files.map OutputFile.path).Nodup := ⟨_,rfl,by decide⟩
  obtain ⟨hpaths,-,hplaces⟩ := paths_distinct_iff typescript dogsFirst files hfiles
  have hseparates := hpaths.mp hnodup
  exact ⟨files,hfiles,hnodup,hseparates,(hplaces (by decide) hnames).mpr hseparates⟩

end Target

end Recast
