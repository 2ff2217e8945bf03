import Recast.Proofs.Discovery.Arena

/-! # What discovery finds

Types and delegates are declared in namespaces and in other types. Discovery finds those that no
rule ignores, each once, in the order in which they are written, and makes a class of each out of
its own members.
-/
namespace Recast

/-- A type or a delegate. -/
inductive Declared where
  | type (head : TypeHead) (members : List Member)
  | delegate (decl : DelegateDecl)

namespace Member

def ownVariables (owner : Declaration) : Member → List Variable
  | .field d => Variable.ofField owner d
  | .property d => [Variable.ofProperty owner d]
  | .event d => Variable.ofEvent owner d
  | _ => []

def ownRoutines (oracle : Oracle) (owner : Declaration) : Member → List Routine
  | .method d => [Routine.ofMethod oracle owner d]
  | .constructor d => [Routine.ofConstructor oracle owner d]
  | _ => []

def ownEnumTexts : Member → List String
  | .enumMember d => [Class.enumMemberText d]
  | _ => []

/-- The kind and the name of a property, of each declarator of a field, of each name of an event. -/
def variableNames : Member → List (Variable.Kind × String)
  | .field d => d.declarators.map fun x => (.field,x.name)
  | .property d => [(.property,d.name)]
  | .event d => d.names.map fun name => (.event,name)
  | _ => []

/-- The name of a method or a constructor, and whether it is the latter. -/
def routineNames : Member → List (Bool × String)
  | .method d => [(false,d.name)]
  | .constructor d => [(true,d.name)]
  | _ => []

end Member

namespace Declared

def name : Declared → String
  | .type head _ => head.name
  | .delegate d => d.name

/-- The class of a declaration. The members of a type are expanded in order, each on its own. -/
def toClass (oracle : Oracle) (namespaceName : Option String) : Declared → Class
  | .type head members =>
    let c := Class.ofHead oracle namespaceName head
    { c with
      vars := members.flatMap (Member.ownVariables c.declaration)
      routines := members.flatMap (Member.ownRoutines oracle c.declaration)
      enumMembers := members.flatMap Member.ownEnumTexts }
  | .delegate d => Class.ofDelegate oracle namespaceName d

def variableNames : Declared → List (Variable.Kind × String)
  | .type _ members => members.flatMap Member.variableNames
  | .delegate _ => []

def routineNames : Declared → List (Bool × String)
  | .type _ members => members.flatMap Member.routineNames
  | .delegate _ => [(false,"Invoke")]

end Declared

/-- A declaration and where it stands. -/
structure Located where
  /-- The positions of the members that hold it, from the outside in, and its own. -/
  path : List Nat
  /-- The namespaces that hold it, from the outside in. -/
  namespaces : List String
  /-- The types that hold it, from the outside in. -/
  types : List String
  decl : Declared

/-- The full name of a namespace with those that hold it; none outside of all. -/
def dotted : List String → Option String
  | [] => none
  | names => some (String.intercalate "." names)

namespace Located

def ofDeclared (decl : Declared) : Located := ⟨[],[],[],decl⟩

/-- The declaration as it is seen from a list that holds it at a position. -/
def atIndex (i : Nat) (x : Located) : Located := { x with path := i :: x.path }

def inNamespace (name : String) (x : Located) : Located :=
  { x with namespaces := name :: x.namespaces }

def inType (name : String) (x : Located) : Located := { x with types := name :: x.types }

/-- The class of a declaration inside some more namespaces. -/
def toClass (oracle : Oracle) (outer : List String) (x : Located) : Class :=
  x.decl.toClass oracle (dotted (outer ++ x.namespaces))

end Located

/-- What a member declares. A type that stands in a namespace that stands in a type is out of
reach, and so is all that depends on a symbol. -/
inductive Member.Declares : Member → Located → Prop where
  | type (head : TypeHead) (members : List Member) :
    Declares (.typeDecl head members) (.ofDeclared (.type head members))
  | delegate (d : DelegateDecl) : Declares (.delegate d) (.ofDeclared (.delegate d))
  | inNamespace {name : String} {members : List Member} {i : Nat} {m : Member} {x : Located}
    (hi : members[i]? = some m) (hx : Declares m x) :
    Declares (.namespaceDecl name members) ((x.atIndex i).inNamespace name)
  | inType {head : TypeHead} {members : List Member} {i : Nat} {m : Member} {x : Located}
    (hi : members[i]? = some m) (hx : Declares m x) (houter : x.namespaces = []) :
    Declares (.typeDecl head members) ((x.atIndex i).inType head.name)

/-- What a document declares. -/
def Document.Declares (d : Document) (x : Located) : Prop :=
  ∃ i m, ∃ y : Located, d.members[i]? = some m ∧ m.Declares y ∧ x = y.atIndex i

/-- A pattern that is not empty stands in the text. -/
def Rules.Hits (patterns : List String) (text : String) : Prop :=
  ∃ pattern ∈ patterns, pattern ≠ "" ∧ pattern.toList <:+: text.toList

/-- No rule ignores the declaration, a type that holds it, or a namespace that holds it; some more
namespaces stand around them. -/
structure Rules.Keeps (rules : Rules) (outer : List String) (x : Located) : Prop where
  namespaces : ∀ names, names <+: x.namespaces → names ≠ [] →
    ¬ Hits rules.ignoredNamespaces (String.intercalate "." (outer ++ names))
  types : ∀ name ∈ x.types, ¬ Hits rules.ignoredClasses name
  name : ¬ Hits rules.ignoredClasses x.decl.name

theorem Rules.matchesAny_iff {patterns : List String} {text : String} :
    matchesAny patterns text = true ↔ Hits patterns text := by
  simp [matchesAny, Hits, Text.contains_iff]

theorem qualifiedName_dotted (outer : List String) (name : String) :
    qualifiedName (dotted outer) name = String.intercalate "." (outer ++ [name]) := by
  cases outer with
  | nil => exact String.intercalate_singleton.symm
  | cons x outer =>
    have happend := String.intercalate_append_of_ne_nil (s := ".") (List.cons_ne_nil x outer)
      (List.cons_ne_nil name [])
    rw [happend, String.intercalate_singleton]
    rfl

theorem dotted_concat (outer : List String) (name : String) :
    dotted (outer ++ [name]) = some (qualifiedName (dotted outer) name) := by
  rw [qualifiedName_dotted]
  cases outer with
  | nil => rfl
  | cons x outer => rfl

namespace Class

/-- Members that are added one by one are expanded in order. -/
theorem foldl_addMember (oracle : Oracle) (members : List Member) (c : Class) :
    members.foldl (addMember oracle) c =
      { c with
        vars := c.vars ++ members.flatMap (Member.ownVariables c.declaration)
        routines := c.routines ++ members.flatMap (Member.ownRoutines oracle c.declaration)
        enumMembers := c.enumMembers ++ members.flatMap Member.ownEnumTexts } := by
  induction members generalizing c with
  | nil => simp
  | cons m members ih =>
    rw [List.foldl_cons, ih]
    cases m <;>
      simp [addMember, Member.ownVariables, Member.ownRoutines, Member.ownEnumTexts]

theorem ofType_eq (oracle : Oracle) (namespaceName : Option String) (head : TypeHead)
    (members : List Member) :
    ofType oracle namespaceName head members =
      (Declared.type head members).toClass oracle namespaceName := by
  rw [ofType, foldl_addMember]
  rfl

end Class

namespace Rules
variable {rules : Rules} {outer : List String} {x : Located} {name : String}

theorem keeps_atIndex {i : Nat} : rules.Keeps outer (x.atIndex i) ↔ rules.Keeps outer x :=
  ⟨fun h => ⟨h.namespaces,h.types,h.name⟩,fun h => ⟨h.namespaces,h.types,h.name⟩⟩

theorem keeps_ofDeclared {decl : Declared} :
    rules.Keeps outer (.ofDeclared decl) ↔ rules.ignoresClass decl.name = false := by
  rw [ignoresClass, ← Bool.not_eq_true, matchesAny_iff]
  refine ⟨Keeps.name,fun h => ⟨?_,List.forall_mem_nil _,h⟩⟩
  intro names hnames hne
  exact absurd (List.prefix_nil.mp hnames) hne

theorem keeps_inType :
    rules.Keeps outer (x.inType name) ↔
      rules.ignoresClass name = false ∧ rules.Keeps outer x := by
  rw [ignoresClass, ← Bool.not_eq_true, matchesAny_iff]
  constructor
  · intro h
    obtain ⟨hname,htypes⟩ := List.forall_mem_cons.mp h.types
    exact ⟨hname,h.namespaces,htypes,h.name⟩
  · rintro ⟨hname,h⟩
    exact ⟨h.namespaces,List.forall_mem_cons.mpr ⟨hname,h.types⟩,h.name⟩

theorem keeps_inNamespace :
    rules.Keeps outer (x.inNamespace name) ↔
      rules.ignoresNamespace (qualifiedName (dotted outer) name) = false ∧
        rules.Keeps (outer ++ [name]) x := by
  rw [ignoresNamespace, ← Bool.not_eq_true, matchesAny_iff, qualifiedName_dotted]
  constructor
  · intro h
    refine ⟨h.namespaces [name] ?_ (List.cons_ne_nil _ _),?_,h.types,h.name⟩
    · exact List.cons_prefix_cons.mpr ⟨rfl,List.nil_prefix⟩
    · intro names hnames _
      rw [List.append_assoc]
      exact h.namespaces (name :: names) (List.cons_prefix_cons.mpr ⟨rfl,hnames⟩)
        (List.cons_ne_nil _ _)
  · rintro ⟨hname,h⟩
    refine ⟨?_,h.types,h.name⟩
    intro names hnames hne
    -- The prefix is the namespace itself, or it goes on inside.
    obtain rfl | ⟨rest,rfl,hrest⟩ := List.prefix_cons_iff.mp hnames
    · exact absurd rfl hne
    · cases rest with
      | nil => exact hname
      | cons y rest =>
        have hinner := h.namespaces (y :: rest) hrest (List.cons_ne_nil _ _)
        rwa [List.append_assoc] at hinner

end Rules

/-- What the members of a list declare, each in its own way, at the positions from `k` on. -/
def DeclaredFrom (R : Member → Located → Prop) (k : Nat) (members : List Member) (x : Located) :
    Prop :=
  ∃ i m, ∃ y : Located, members[i]? = some m ∧ R m y ∧ x = y.atIndex (k + i)

/-- What a member of a type declares. -/
def Member.DeclaresNested (m : Member) (x : Located) : Prop := m.Declares x ∧ x.namespaces = []

section
variable {R : Member → Located → Prop} {k : Nat} {m : Member} {members : List Member} {x : Located}

theorem not_declaredFrom_nil : ¬ DeclaredFrom R k [] x := by
  rintro ⟨i,m,y,hi,-⟩
  simp at hi

theorem declaredFrom_cons :
    DeclaredFrom R k (m :: members) x ↔
      (∃ y, R m y ∧ x = y.atIndex k) ∨ DeclaredFrom R (k + 1) members x := by
  constructor
  · rintro ⟨i,m',y,hi,hy,rfl⟩
    cases i with
    | zero =>
      obtain rfl : m = m' := Option.some.inj hi
      exact .inl ⟨y,hy,rfl⟩
    | succ i => exact .inr ⟨i,m',y,hi,hy,by rw [Nat.add_right_comm, Nat.add_assoc]⟩
  · rintro (⟨y,hy,rfl⟩ | ⟨i,m',y,hi,hy,rfl⟩)
    · exact ⟨0,m,y,rfl,hy,rfl⟩
    · exact ⟨i + 1,m',y,hi,hy,by rw [Nat.add_right_comm, Nat.add_assoc]⟩

theorem Member.declares_namespaceDecl {name : String} :
    (Member.namespaceDecl name members).Declares x ↔
      ∃ y, DeclaredFrom Member.Declares 0 members y ∧ x = y.inNamespace name := by
  constructor
  · intro h
    cases h with
    | inNamespace hi hy => exact ⟨_,⟨_,_,_,hi,hy,rfl⟩,by rw [Nat.zero_add]⟩
  · rintro ⟨-,⟨i,m,y,hi,hy,rfl⟩,rfl⟩
    rw [Nat.zero_add]
    exact .inNamespace hi hy

theorem Member.declares_typeDecl {head : TypeHead} :
    (Member.typeDecl head members).Declares x ↔
      x = .ofDeclared (.type head members) ∨
        ∃ y, DeclaredFrom Member.DeclaresNested 0 members y ∧ x = y.inType head.name := by
  constructor
  · intro h
    cases h with
    | type => exact .inl rfl
    | inType hi hy houter => exact .inr ⟨_,⟨_,_,_,hi,⟨hy,houter⟩,rfl⟩,by rw [Nat.zero_add]⟩
  · rintro (rfl | ⟨-,⟨i,m,y,hi,⟨hy,houter⟩,rfl⟩,rfl⟩)
    · exact .type head members
    · rw [Nat.zero_add]
      exact .inType hi hy houter

theorem Member.declares_delegate {d : DelegateDecl} :
    (Member.delegate d).Declares x ↔ x = .ofDeclared (.delegate d) := by
  constructor
  · intro h
    cases h with
    | delegate => rfl
  · rintro rfl
    exact .delegate d

end

/-- Declarations in the order of their paths, all those that some members declare and the rules
keep, and their classes. -/
structure Lists (rules : Rules) (oracle : Oracle) (outer : List String) (P : Located → Prop)
    (xs : List Located) (classes : List Class) : Prop where
  sorted : (xs.map Located.path).Pairwise (· < ·)
  mem_iff : ∀ x, x ∈ xs ↔ P x ∧ rules.Keeps outer x
  classes_eq : classes = xs.map (Located.toClass oracle outer)

namespace Lists
variable {rules : Rules} {oracle : Oracle} {outer : List String} {P Q : Located → Prop}
  {xs ys : List Located} {cs ds : List Class}

theorem congr (h : Lists rules oracle outer P xs cs) (hiff : ∀ x, Q x ↔ P x) :
    Lists rules oracle outer Q xs cs :=
  ⟨h.sorted,fun x => by rw [h.mem_iff, hiff],h.classes_eq⟩

theorem nil (h : ∀ x, P x → ¬ rules.Keeps outer x) : Lists rules oracle outer P [] [] :=
  ⟨.nil,fun x => iff_of_false List.not_mem_nil fun hx => h x hx.1 hx.2,rfl⟩

/-- The declarations of the first member stand before those of the others. -/
theorem cons {R : Member → Located → Prop} {k : Nat} {m : Member} {members : List Member}
    (h : Lists rules oracle outer (R m) xs cs)
    (hrest : Lists rules oracle outer (DeclaredFrom R (k + 1) members) ys ds) :
    Lists rules oracle outer (DeclaredFrom R k (m :: members))
      (xs.map (Located.atIndex k) ++ ys) (cs ++ ds) where
  sorted := by
    rw [List.map_append, List.pairwise_append]
    refine ⟨?_,hrest.sorted,?_⟩
    · rw [List.map_map, List.pairwise_map]
      apply (List.pairwise_map.mp h.sorted).imp
      intro x y hxy
      exact List.cons_lt_cons_iff.mpr (.inr ⟨rfl,hxy⟩)
    · intro p hp q hq
      rw [List.map_map] at hp
      obtain ⟨x,-,rfl⟩ := List.mem_map.mp hp
      obtain ⟨y,hy,rfl⟩ := List.mem_map.mp hq
      obtain ⟨⟨i,m',z,-,-,rfl⟩,-⟩ := (hrest.mem_iff y).mp hy
      exact List.cons_lt_cons_iff.mpr (.inl (by omega))
  mem_iff := by
    intro x
    rw [List.mem_append, hrest.mem_iff, declaredFrom_cons, or_and_right]
    apply or_congr_left
    rw [List.mem_map]
    constructor
    · rintro ⟨y,hy,rfl⟩
      obtain ⟨hR,hkeeps⟩ := (h.mem_iff y).mp hy
      exact ⟨⟨y,hR,rfl⟩,Rules.keeps_atIndex.mpr hkeeps⟩
    · rintro ⟨⟨y,hR,rfl⟩,hkeeps⟩
      exact ⟨y,(h.mem_iff y).mpr ⟨hR,Rules.keeps_atIndex.mp hkeeps⟩,rfl⟩
  classes_eq := by
    rw [h.classes_eq, hrest.classes_eq, List.map_append, List.map_map]
    rfl

theorem inNamespace {name : String}
    (hname : rules.ignoresNamespace (qualifiedName (dotted outer) name) = false)
    (h : Lists rules oracle (outer ++ [name]) P xs cs) :
    Lists rules oracle outer (fun x => ∃ y, P y ∧ x = y.inNamespace name)
      (xs.map (Located.inNamespace name)) cs where
  sorted := by
    rw [List.map_map]
    exact h.sorted
  mem_iff := by
    intro x
    rw [List.mem_map]
    constructor
    · rintro ⟨y,hy,rfl⟩
      obtain ⟨hP,hkeeps⟩ := (h.mem_iff y).mp hy
      exact ⟨⟨y,hP,rfl⟩,Rules.keeps_inNamespace.mpr ⟨hname,hkeeps⟩⟩
    · rintro ⟨⟨y,hP,rfl⟩,hkeeps⟩
      exact ⟨y,(h.mem_iff y).mpr ⟨hP,(Rules.keeps_inNamespace.mp hkeeps).2⟩,rfl⟩
  classes_eq := by
    rw [h.classes_eq, List.map_map]
    apply List.map_congr_left
    intro x _
    simp [Located.toClass, Located.inNamespace]

theorem declared {decl : Declared} (hname : rules.ignoresClass decl.name = false) :
    Lists rules oracle outer (· = .ofDeclared decl) [.ofDeclared decl]
      [decl.toClass oracle (dotted outer)] where
  sorted := List.pairwise_singleton _ _
  mem_iff := by
    intro x
    rw [List.mem_singleton]
    refine ⟨?_,And.left⟩
    rintro rfl
    exact ⟨rfl,Rules.keeps_ofDeclared.mpr hname⟩
  classes_eq := by simp [Located.toClass, Located.ofDeclared]

/-- A type stands before what is declared in it. -/
theorem inType {decl : Declared} (hname : rules.ignoresClass decl.name = false)
    {k : Nat} {members : List Member} {R : Member → Located → Prop}
    (h : Lists rules oracle outer (DeclaredFrom R k members) xs cs) :
    Lists rules oracle outer
      (fun x => x = .ofDeclared decl ∨ ∃ y, DeclaredFrom R k members y ∧ x = y.inType decl.name)
      (.ofDeclared decl :: xs.map (Located.inType decl.name))
      (decl.toClass oracle (dotted outer) :: cs) where
  sorted := by
    rw [List.map_cons, List.map_map, List.pairwise_cons]
    refine ⟨?_,h.sorted⟩
    intro p hp
    obtain ⟨x,hx,rfl⟩ := List.mem_map.mp hp
    obtain ⟨⟨i,m,y,-,-,rfl⟩,-⟩ := (h.mem_iff x).mp hx
    exact List.nil_lt_cons _ _
  mem_iff := by
    intro x
    rw [List.mem_cons, List.mem_map, or_and_right]
    apply or_congr
    · exact ⟨fun hx => ⟨hx,hx ▸ Rules.keeps_ofDeclared.mpr hname⟩,And.left⟩
    · constructor
      · rintro ⟨y,hy,rfl⟩
        obtain ⟨hP,hkeeps⟩ := (h.mem_iff y).mp hy
        exact ⟨⟨y,hP,rfl⟩,Rules.keeps_inType.mpr ⟨hname,hkeeps⟩⟩
      · rintro ⟨⟨y,hP,rfl⟩,hkeeps⟩
        exact ⟨y,(h.mem_iff y).mpr ⟨hP,(Rules.keeps_inType.mp hkeeps).2⟩,rfl⟩
  classes_eq := by
    rw [h.classes_eq, List.map_cons, List.map_map]
    congr 1
    simp [Located.toClass, Located.ofDeclared]

end Lists

namespace Member
variable (rules : Rules) (oracle : Oracle)

theorem exists_lists_delegate (outer : List String) (d : DelegateDecl) :
    ∃ xs, Lists rules oracle outer (Member.delegate d).Declares xs
      (d.harvest rules oracle (dotted outer)).classes := by
  unfold DelegateDecl.harvest
  split
  · next hname =>
    refine ⟨[],.nil fun x hx hkeeps => ?_⟩
    obtain rfl := declares_delegate.mp hx
    have hkept : rules.ignoresClass d.name = false := Rules.keeps_ofDeclared.mp hkeeps
    exact Bool.false_ne_true (hkept.symm.trans hname)
  · next hname =>
    have hlists : Lists rules oracle outer (· = .ofDeclared (.delegate d)) _ _ :=
      Lists.declared (eq_false_of_ne_true hname)
    exact ⟨_,hlists.congr fun x => declares_delegate⟩

mutual

/-- Discovery lists what a member declares. -/
theorem exists_lists_harvest (outer : List String) : (m : Member) →
    ∃ xs, Lists rules oracle outer m.Declares xs (m.harvest rules oracle (dotted outer)).classes
  | .namespaceDecl name members => by
    unfold harvest
    dsimp only
    split
    · next hname =>
      refine ⟨[],.nil fun x hx hkeeps => ?_⟩
      obtain ⟨y,-,rfl⟩ := declares_namespaceDecl.mp hx
      exact Bool.false_ne_true ((Rules.keeps_inNamespace.mp hkeeps).1.symm.trans hname)
    · next hname =>
      obtain ⟨xs,hxs⟩ := exists_lists_harvestAll (outer ++ [name]) 0 members
      rw [dotted_concat] at hxs
      have hlists := hxs.inNamespace (eq_false_of_ne_true hname)
      exact ⟨_,hlists.congr fun x => declares_namespaceDecl⟩
  | .typeDecl head members => by
    unfold harvest
    split
    · next hname =>
      refine ⟨[],.nil fun x hx hkeeps => ?_⟩
      have hkept : rules.ignoresClass head.name = false := by
        obtain rfl | ⟨y,-,rfl⟩ := declares_typeDecl.mp hx
        · exact Rules.keeps_ofDeclared.mp hkeeps
        · exact (Rules.keeps_inType.mp hkeeps).1
      exact Bool.false_ne_true (hkept.symm.trans hname)
    · next hname =>
      obtain ⟨xs,hxs⟩ := exists_lists_harvestNested outer 0 members
      have hkept : rules.ignoresClass (Declared.type head members).name = false :=
        eq_false_of_ne_true hname
      have hlists := hxs.inType hkept
      rw [← Class.ofType_eq] at hlists
      exact ⟨_,hlists.congr fun x => declares_typeDecl⟩
  | .delegate d => exists_lists_delegate rules oracle outer d
  | .field _ | .property _ | .event _ | .method _ | .constructor _ | .enumMember _
  | .region .. | .other _ => ⟨[],.nil (by rintro x ⟨⟩)⟩

theorem exists_lists_harvestAll (outer : List String) (k : Nat) : (members : List Member) →
    ∃ xs, Lists rules oracle outer (DeclaredFrom Declares k members) xs
      (harvestAll rules oracle (dotted outer) members).classes
  | [] => ⟨[],.nil fun _ h => absurd h not_declaredFrom_nil⟩
  | m :: members => by
    obtain ⟨xs,hxs⟩ := exists_lists_harvest outer m
    obtain ⟨ys,hys⟩ := exists_lists_harvestAll outer (k + 1) members
    exact ⟨_,hxs.cons hys⟩

/-- Discovery lists what the members of a type declare; it enters no namespace there. -/
theorem exists_lists_harvestNested (outer : List String) (k : Nat) : (members : List Member) →
    ∃ xs, Lists rules oracle outer (DeclaredFrom DeclaresNested k members) xs
      (harvestNested rules oracle (dotted outer) members).classes
  | [] => ⟨[],.nil fun _ h => absurd h not_declaredFrom_nil⟩
  | m :: members => by
    obtain ⟨ys,hys⟩ := exists_lists_harvestNested outer (k + 1) members
    have hnone (h : ∀ x, ¬ m.DeclaresNested x) :
        ∃ xs, Lists rules oracle outer (DeclaredFrom DeclaresNested k (m :: members)) xs
          ([] ++ (harvestNested rules oracle (dotted outer) members).classes) :=
      ⟨_,Lists.cons (.nil fun x hx => absurd hx (h x)) hys⟩
    have hsome (h : ∀ x, m.Declares x → x.namespaces = []) :
        ∃ xs, Lists rules oracle outer (DeclaredFrom DeclaresNested k (m :: members)) xs
          ((m.harvest rules oracle (dotted outer)).classes ++
            (harvestNested rules oracle (dotted outer) members).classes) := by
      obtain ⟨xs,hxs⟩ := exists_lists_harvest outer m
      exact ⟨_,Lists.cons (hxs.congr fun x => and_iff_left_of_imp (h x)) hys⟩
    cases m with
    | namespaceDecl name inner =>
      apply hnone
      rintro x ⟨hx,houter⟩
      obtain ⟨y,-,rfl⟩ := declares_namespaceDecl.mp hx
      exact List.cons_ne_nil _ _ houter
    | typeDecl head inner =>
      apply hsome
      intro x hx
      obtain rfl | ⟨-,⟨i,m,y,-,⟨-,houter⟩,rfl⟩,rfl⟩ := declares_typeDecl.mp hx
      · rfl
      · exact houter
    | delegate d =>
      apply hsome
      intro x hx
      obtain rfl := declares_delegate.mp hx
      rfl
    | region | other => exact hsome (by rintro x ⟨⟩)
    | field | property | event | method | constructor | enumMember =>
      exact hnone (by rintro x ⟨⟨⟩,-⟩)

end

end Member

section tags

/-- What a variable is found by. -/
def Variable.tag (v : Variable) : Variable.Kind × String × Option String × Option String :=
  (v.kind,v.name,v.remap,v.remapClass)

def Routine.tag (f : Routine) : Bool × String × Option String :=
  (f.isConstructor,f.name,f.remap)

theorem Variable.tag_withInitial (v : Variable) (init : Option Expr) :
    (v.withInitial init).tag = v.tag := by
  unfold withInitial
  split
  · rfl
  · split
    · rfl
    · rfl

theorem Variable.tag_ofProperty (owner : Declaration) (d : PropertyDecl) :
    (ofProperty owner d).tag = (.property,d.name,none,none) := by
  have haccessors (v : Variable) : (d.accessors.foldl addAccessor v).tag = v.tag := by
    induction d.accessors generalizing v with
    | nil => rfl
    | cons a accessors ih =>
      rw [List.foldl_cons, ih]
      unfold addAccessor
      split
      · rfl
      · rfl
      · rfl
  unfold ofProperty
  rw [tag_withInitial, haccessors]
  rfl

theorem Routine.tag_scanned (oracle : Oracle) (f : Routine) : (f.scanned oracle).tag = f.tag := by
  unfold scanned
  split
  · rfl
  · rfl

theorem Member.tag_ownVariables (owner : Declaration) (m : Member) :
    (m.ownVariables owner).map Variable.tag =
      m.variableNames.map fun x => (x.1,x.2,none,none) := by
  cases m with
  | field d =>
    simp only [ownVariables, Variable.ofField, variableNames, List.map_map]
    apply List.map_congr_left
    intro x _
    exact Variable.tag_withInitial _ x.init
  | property d => exact congrArg (· :: []) (Variable.tag_ofProperty owner d)
  | event d =>
    simp only [ownVariables, Variable.ofEvent, variableNames, List.map_map]
    rfl
  | _ => rfl

theorem Member.tag_ownRoutines (oracle : Oracle) (owner : Declaration) (m : Member) :
    (m.ownRoutines oracle owner).map Routine.tag = m.routineNames.map fun x => (x.1,x.2,none) := by
  cases m with
  | method d => exact congrArg (· :: []) (Routine.tag_scanned oracle _)
  | constructor d => exact congrArg (· :: []) (Routine.tag_scanned oracle _)
  | _ => rfl

end tags

/-- The class has the members that are declared, each under its own name and in its own class. -/
structure Declared.Unfolds (decl : Declared) (c : Class) : Prop where
  vars : c.vars.map Variable.tag = decl.variableNames.map fun x => (x.1,x.2,none,none)
  routines : c.routines.map Routine.tag = decl.routineNames.map fun x => (x.1,x.2,none)

theorem Declared.unfolds_toClass (oracle : Oracle) (namespaceName : Option String)
    (decl : Declared) : decl.Unfolds (decl.toClass oracle namespaceName) := by
  cases decl with
  | type head members =>
    constructor
    · simp only [toClass, variableNames, List.map_flatMap, Member.tag_ownVariables]
    · simp only [toClass, routineNames, List.map_flatMap, Member.tag_ownRoutines]
  | delegate d => exact ⟨rfl,rfl⟩

theorem Declared.name_toClass (oracle : Oracle) (namespaceName : Option String)
    (decl : Declared) : (decl.toClass oracle namespaceName).name = decl.name := by
  cases decl with
  | type head members => rfl
  | delegate d => rfl

namespace Program

theorem exists_lists_document (p : Program) (d : Document) :
    ∃ xs, Lists p.rules d.oracle [] d.Declares xs (p.harvest d).classes := by
  obtain ⟨xs,hxs⟩ := Member.exists_lists_harvestAll p.rules d.oracle [] 0 d.members
  refine ⟨xs,hxs.congr fun x => ?_⟩
  simp only [Document.Declares, DeclaredFrom, Nat.zero_add]

end Program

end Recast
