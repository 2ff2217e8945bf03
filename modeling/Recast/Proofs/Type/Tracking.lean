import Recast.Proofs.Lowering.Runs
import Recast.Proofs.Sorted.Lookups
import Recast.TypeScript.Dialect

/-! # Which imports a type needs

The kind of a node says which of its arguments are spelled with it, and only a node that goes by its
name is looked up among the known classes. So the imports of a descriptor are those of the entries
that are found at its spelled nodes, and the names of containers and callbacks are never read.
-/
namespace Recast

namespace TypeDesc

/-- Neither a container nor a callback. -/
def goesByName (d : TypeDesc) : Bool := !d.kind.isContainer && d.kind != .callback

/-- A property of all descriptors, if it goes from the arguments of a node to the node. -/
theorem induction {P : TypeDesc → Prop}
    (step : ∀ d : TypeDesc, (∀ e ∈ d.args, P e) → (∀ e ∈ d.genericArgs, P e) → P d)
    (d : TypeDesc) : P d := by
  refine @TypeDesc.rec P (fun ds => ∀ e ∈ ds, P e) ?_ ?_ ?_ d
  · exact fun kind name args generics nullable hargs hgenerics => step _ hargs hgenerics
  · exact List.forall_mem_nil _
  · exact fun d ds hd hds => List.forall_mem_cons.mpr ⟨hd, hds⟩

mutual

/-- A descriptor without the names of the containers and callbacks in it. -/
def unnamed : TypeDesc → TypeDesc
  | ⟨kind, name, args, generics, nullable⟩ =>
    ⟨kind, if goesByName ⟨kind, name, args, generics, nullable⟩ then name else "", unnamedAll args,
      unnamedAll generics, nullable⟩

def unnamedAll : List TypeDesc → List TypeDesc
  | [] => []
  | d :: ds => unnamed d :: unnamedAll ds

end

theorem unnamedAll_eq_map (ds : List TypeDesc) : unnamedAll ds = ds.map unnamed := by
  induction ds with
  | nil => rfl
  | cons d ds ih => rw [unnamedAll, ih, List.map_cons]

end TypeDesc

namespace TypeTables
variable (t : TypeTables)

theorem spells_eq_map (ds : List TypeDesc) : t.spells ds = ds.map t.spell := by
  induction ds with
  | nil => rfl
  | cons d ds ih => rw [spells, ih, List.map_cons]

theorem spell_eq (d : TypeDesc) : t.spell d =
    let bare := t.spellNode d.kind d.name (d.args.map t.spell) (d.genericArgs.map t.spell)
    if d.nullable then { bare with text := t.forms.nullable bare.text } else bare := by
  cases d
  rw [spell, spells_eq_map, spells_eq_map]

theorem imports_spell_eq (d : TypeDesc) : (t.spell d).imports =
    (t.spellNode d.kind d.name (d.args.map t.spell) (d.genericArgs.map t.spell)).imports := by
  rw [spell_eq]
  dsimp only
  split <;> rfl

def isPrimitive (d : TypeDesc) : Bool :=
  d.genericArgs.isEmpty && (t.primitives.get? d.name).isSome

/-- A node that is looked up among the known classes. -/
def looksUp (d : TypeDesc) : Bool := d.goesByName && !t.isPrimitive d && d.name != ""

/-- The arguments that are spelled with a node. -/
def spelledArgs (d : TypeDesc) : List TypeDesc :=
  match d.kind with
  | .array | .list => d.genericArgs.take 1
  | .dictionary => d.genericArgs.take 2
  | .tuple => d.genericArgs
  | .callback => d.args ++ d.genericArgs.take 1
  | _ => if t.looksUp d then d.genericArgs else []

/-- A node that is spelled in a descriptor, or is the descriptor. -/
inductive SpelledIn (x : TypeDesc) : TypeDesc → Prop where
  | self : SpelledIn x x
  | inside {d e : TypeDesc} (he : e ∈ t.spelledArgs d) (hx : SpelledIn x e) : SpelledIn x d

/-- The import of the known class that is selected at a node. -/
def selectedImport (d : TypeDesc) : Option String :=
  (t.known.get? d.name d.genericArgs.length).bind KnownClass.importLine

/-- An import of a known class that is selected at some spelled node. -/
def Requires (d : TypeDesc) (line : String) : Prop :=
  ∃ x, t.SpelledIn x d ∧ t.looksUp x = true ∧ t.selectedImport x = some line

/-- The imports that come up at a node itself. -/
def ownImports (d : TypeDesc) : List String :=
  if t.looksUp d then (t.selectedImport d).toList else []

variable {t} {d : TypeDesc}

theorem mem_spelledArgs {e : TypeDesc} (h : e ∈ t.spelledArgs d) :
    e ∈ d.args ∨ e ∈ d.genericArgs := by
  unfold spelledArgs at h
  split at h
  · exact .inr (List.mem_of_mem_take h)
  · exact .inr (List.mem_of_mem_take h)
  · exact .inr (List.mem_of_mem_take h)
  · exact .inr h
  · exact (List.mem_append.mp h).imp_right List.mem_of_mem_take
  · split at h
    · exact .inr h
    · exact absurd h List.not_mem_nil

theorem importsOf_map (ds : List TypeDesc) :
    importsOf (ds.map t.spell) = ds.flatMap fun e => (t.spell e).imports := List.flatMap_map ..

/-- The argument of a container at a place; a missing one needs no imports. -/
theorem imports_argument (ds : List TypeDesc) (i : Nat) :
    (t.argument (ds.map t.spell) i).imports =
      ds[i]?.toList.flatMap fun e => (t.spell e).imports := by
  rw [argument, List.getElem?_map]
  cases ds[i]? with
  | none => rfl
  | some e => exact (List.append_nil _).symm

/-- A name is looked up, with its arguments spelled, unless it is primitive or empty. -/
theorem imports_spellName (h : d.goesByName = true) :
    (t.spellName d.name (d.genericArgs.map t.spell)).imports =
      if t.looksUp d then
        (d.genericArgs.flatMap fun e => (t.spell e).imports) ++ (t.selectedImport d).toList
      else [] := by
  unfold spellName
  rw [List.isEmpty_map]
  cases hprimitive : t.isPrimitive d with
  | true =>
    have hlooks : t.looksUp d = false := by simp [looksUp, hprimitive]
    simp only [isPrimitive, Bool.and_eq_true, Option.isSome_iff_exists] at hprimitive
    obtain ⟨hempty, target, htarget⟩ := hprimitive
    rw [if_pos hempty, htarget, hlooks]
    rfl
  | false =>
    have hlooks : t.looksUp d = (d.name != "") := by simp [looksUp, hprimitive, h]
    have htable : (if d.genericArgs.isEmpty then t.primitives.get? d.name else none) = none := by
      simpa [isPrimitive] using hprimitive
    rw [htable, hlooks]
    by_cases hname : d.name = ""
    · simp [hname]
    · simp [hname, importsOf_map, selectedImport]

theorem kind_of_goesByName (h : d.goesByName = false) : d.kind = .array ∨ d.kind = .list ∨
    d.kind = .dictionary ∨ d.kind = .tuple ∨ d.kind = .callback := by
  obtain ⟨kind, name, args, generics, nullable⟩ := d
  cases kind with
  | array | list | dictionary | tuple | callback => simp
  | _ => cases h

theorem spellNode_of_goesByName (h : d.goesByName = true) (args generics : List Spelling) :
    t.spellNode d.kind d.name args generics = t.spellName d.name generics := by
  obtain ⟨kind, name, own, generics, nullable⟩ := d
  cases kind with
  | array | list | dictionary | tuple | callback => cases h
  | _ => rfl

theorem spelledArgs_of_goesByName (h : d.goesByName = true) :
    t.spelledArgs d = if t.looksUp d then d.genericArgs else [] := by
  obtain ⟨kind, name, own, generics, nullable⟩ := d
  cases kind with
  | array | list | dictionary | tuple | callback => cases h
  | _ => rfl

/-- The imports of a descriptor are those of the arguments that are spelled with it and the one
that comes up at the node itself. -/
theorem imports_spell (d : TypeDesc) : (t.spell d).imports =
    ((t.spelledArgs d).flatMap fun e => (t.spell e).imports) ++ t.ownImports d := by
  rw [imports_spell_eq]
  cases h : d.goesByName with
  | true =>
    rw [spellNode_of_goesByName h, imports_spellName h, spelledArgs_of_goesByName h, ownImports]
    split
    · rfl
    · rfl
  | false =>
    have hown : t.ownImports d = [] := by simp [ownImports, looksUp, h]
    rw [hown, List.append_nil]
    unfold spelledArgs
    rcases kind_of_goesByName h with hkind | hkind | hkind | hkind | hkind <;> rw [hkind]
    · exact (imports_argument _ 0).trans (by rw [List.take_one, List.head?_eq_getElem?])
    · exact (imports_argument _ 0).trans (by rw [List.take_one, List.head?_eq_getElem?])
    · change (t.argument _ 0).imports ++ (t.argument _ 1).imports = _
      rw [imports_argument, imports_argument, ← List.flatMap_append]
      rcases d.genericArgs with _ | ⟨key, _ | ⟨value, rest⟩⟩ <;> rfl
    · exact importsOf_map _
    · change importsOf _ ++ importsOf (d.genericArgs.map t.spell).head?.toList = _
      have hhead : (d.genericArgs.map t.spell).head?.toList =
          (d.genericArgs.take 1).map t.spell := by
        rw [List.take_one, List.head?_map, Option.toList_map]
      rw [hhead, importsOf_map, importsOf_map, ← List.flatMap_append]

theorem mem_imports_spell_iff {line : String} :
    line ∈ (t.spell d).imports ↔ t.Requires d line := by
  constructor
  · induction d using TypeDesc.induction with
    | step d hargs hgenerics =>
      intro h
      rw [imports_spell, List.mem_append, List.mem_flatMap] at h
      rcases h with ⟨e, he, h⟩ | h
      · obtain ⟨x, hx, hlooks⟩ := (mem_spelledArgs he).elim (hargs e · h) (hgenerics e · h)
        exact ⟨x, .inside he hx, hlooks⟩
      · unfold ownImports at h
        split at h
        · next hlooks => exact ⟨d, .self, hlooks, Option.mem_toList.mp h⟩
        · exact absurd h List.not_mem_nil
  · rintro ⟨x, hx, hlooks, hline⟩
    induction hx with
    | self =>
      rw [imports_spell, List.mem_append, ownImports, if_pos hlooks]
      exact .inr (Option.mem_toList.mpr hline)
    | inside he _ ih =>
      rw [imports_spell, List.mem_append, List.mem_flatMap]
      exact .inl ⟨_, he, ih⟩

/-! ## Imports that are passed on

The imports can also be added while the type is walked through: whatever is spelled takes the
imports at hand and passes on what comes of them.
-/

/-- A name that is neither a container nor a callback, given the walk through its arguments. -/
def trackName (t : TypeTables) (name : String) (arity : Nat)
    (walk : StateM ImportSet (List String)) : StateM ImportSet String :=
  match (if arity = 0 then t.primitives.get? name else none) with
  | some target => pure target
  | none =>
    if name == "" then pure t.forms.unknown
    else do
      let args ← walk
      let known := t.known.get? name arity
      modify fun imports => SortedSet.addAll imports (known.bind KnownClass.importLine).toList
      let target := (known.map KnownClass.target).getD name
      return if args.isEmpty then target else t.forms.generic target args

mutual

/-- The text of a type. The imports are added to those at hand as they come up. -/
def track (t : TypeTables) : TypeDesc → StateM ImportSet String
  | ⟨kind, name, args, generics, nullable⟩ =>
    (if nullable then t.forms.nullable else id) <$> match kind with
      | .array => t.forms.array <$> trackAt t 0 generics
      | .list => t.forms.list <$> trackAt t 0 generics
      | .dictionary => do
        let key ← trackAt t 0 generics
        t.forms.dictionary key <$> trackAt t 1 generics
      | .tuple => t.forms.tuple <$> trackAll t generics
      | .callback => do
        let parameters ← trackAll t args
        t.forms.callback parameters <$> trackFirst t generics
      | _ => t.trackName name generics.length (trackAll t generics)

def trackAll (t : TypeTables) : List TypeDesc → StateM ImportSet (List String)
  | [] => pure []
  | d :: ds => do
    let text ← track t d
    (text :: ·) <$> trackAll t ds

/-- The argument of a container at a place, which may be missing. -/
def trackAt (t : TypeTables) : Nat → List TypeDesc → StateM ImportSet String
  | _, [] => pure t.forms.unknown
  | 0, d :: _ => track t d
  | i + 1, _ :: ds => trackAt t i ds

def trackFirst (t : TypeTables) : List TypeDesc → StateM ImportSet (Option String)
  | [] => pure none
  | d :: _ => some <$> track t d

end

/-- A walk gives something and adds imports to those at hand, whatever these are. -/
def Tracks {α : Type} (m : StateM ImportSet α) (a : α) (lines : List String) : Prop :=
  ∀ imports, m.run imports = (a, SortedSet.addAll imports lines)

namespace Tracks
variable {α β : Type} {m : StateM ImportSet α} {a : α} {b : β} {lines more : List String}

theorem pure (a : α) : Tracks (Pure.pure a) a [] := fun _ => rfl

theorem bind {f : α → StateM ImportSet β} (hm : Tracks m a lines) (hf : Tracks (f a) b more) :
    Tracks (m >>= f) b (lines ++ more) := by
  intro imports
  have hadd : SortedSet.addAll imports (lines ++ more) =
      SortedSet.addAll (SortedSet.addAll imports lines) more := List.foldl_append
  rw [hadd, ← hf, StateT.run_bind, hm]
  rfl

theorem map (f : α → β) (hm : Tracks m a lines) : Tracks (f <$> m) (f a) lines := by
  intro imports
  rw [StateT.run_map, hm]
  rfl

end Tracks

/-- What a descriptor needs is what walking through it adds. -/
def IsTracked (t : TypeTables) (d : TypeDesc) : Prop :=
  Tracks (t.track d) (t.spell d).text (t.spell d).imports

section
variable {ds : List TypeDesc} (h : ∀ e ∈ ds, t.IsTracked e)
include h

theorem tracks_trackAll :
    Tracks (t.trackAll ds) (texts (ds.map t.spell)) (importsOf (ds.map t.spell)) := by
  induction ds with
  | nil => exact .pure []
  | cons d ds ih =>
    obtain ⟨hd, hds⟩ := List.forall_mem_cons.mp h
    exact hd.bind ((ih hds).map _)

theorem tracks_trackAt (i : Nat) :
    Tracks (t.trackAt i ds) (t.argument (ds.map t.spell) i).text
      (t.argument (ds.map t.spell) i).imports := by
  induction ds generalizing i with
  | nil => exact .pure _
  | cons d ds ih =>
    obtain ⟨hd, hds⟩ := List.forall_mem_cons.mp h
    cases i with
    | zero => exact hd
    | succ i => exact ih hds i

theorem tracks_trackFirst :
    Tracks (t.trackFirst ds) ((ds.map t.spell).head?.map Spelling.text)
      (importsOf (ds.map t.spell).head?.toList) := by
  cases ds with
  | nil => exact .pure none
  | cons d ds => exact ((h d List.mem_cons_self).map some).bind (.pure _)

theorem tracks_trackName (name : String) :
    Tracks (t.trackName name ds.length (t.trackAll ds)) (t.spellName name (ds.map t.spell)).text
      (t.spellName name (ds.map t.spell)).imports := by
  unfold trackName spellName
  simp only [List.isEmpty_map, List.isEmpty_iff_length_eq_zero, List.length_map]
  cases if ds.length = 0 then t.primitives.get? name else none with
  | some target => exact .pure target
  | none =>
    dsimp only
    split
    · exact .pure _
    · have hempty : (texts (ds.map t.spell)).length = ds.length := by simp [texts]
      rw [← hempty]
      exact (tracks_trackAll h).bind fun _ => rfl

end

/-- The walk that passes the imports on does what spelling and then adding does. -/
theorem tracks_track (t : TypeTables) (d : TypeDesc) : t.IsTracked d := by
  induction d using TypeDesc.induction with
  | step d hargs hgenerics =>
    obtain ⟨kind, name, args, generics, nullable⟩ := d
    let node := t.spellNode kind name (args.map t.spell) (generics.map t.spell)
    have hspell : t.spell ⟨kind, name, args, generics, nullable⟩ =
        ⟨(if nullable then t.forms.nullable else id) node.text, node.imports⟩ := by
      rw [spell_eq]
      cases nullable <;> rfl
    rw [IsTracked, hspell, track.eq_def]
    refine Tracks.map _ (?_ : Tracks _ node.text node.imports)
    cases kind with
    | array => exact (tracks_trackAt hgenerics 0).map _
    | list => exact (tracks_trackAt hgenerics 0).map _
    | dictionary => exact (tracks_trackAt hgenerics 0).bind ((tracks_trackAt hgenerics 1).map _)
    | tuple => exact (tracks_trackAll hgenerics).map _
    | callback => exact (tracks_trackAll hargs).bind ((tracks_trackFirst hgenerics).map _)
    | _ => exact tracks_trackName hgenerics name

/-! ## Names that are not read -/

theorem spellNode_unnamed (d : TypeDesc) (args generics : List Spelling) :
    t.spellNode d.kind (if d.goesByName then d.name else "") args generics =
      t.spellNode d.kind d.name args generics := by
  split
  · rfl
  · next h =>
    rcases kind_of_goesByName (Bool.eq_false_iff.mpr h) with
      hkind | hkind | hkind | hkind | hkind <;> rw [hkind] <;> rfl

theorem spell_unnamed (d : TypeDesc) : t.spell d.unnamed = t.spell d := by
  induction d using TypeDesc.induction with
  | step d hargs hgenerics =>
    obtain ⟨kind, name, args, generics, nullable⟩ := d
    have hspelled {ds : List TypeDesc} (h : ∀ e ∈ ds, t.spell e.unnamed = t.spell e) :
        (TypeDesc.unnamedAll ds).map t.spell = ds.map t.spell := by
      rw [TypeDesc.unnamedAll_eq_map, List.map_map]
      exact List.map_congr_left h
    rw [spell_eq, spell_eq, TypeDesc.unnamed]
    dsimp only
    rw [hspelled hargs, hspelled hgenerics]
    have hnode := t.spellNode_unnamed ⟨kind, name, args, generics, nullable⟩
      (args.map t.spell) (generics.map t.spell)
    dsimp only at hnode ⊢
    rw [hnode]

end TypeTables

namespace Surroundings
open Lower
variable (env : Surroundings)

theorem imports_reference (name : String) (s : LowerState) :
    ∃ u, env.reference name s = (.ok (), u) ∧ u.imports = s.imports := by
  refine ⟨_, rfl, ?_⟩
  dsimp only
  split <;> rfl

theorem imports_references (names : List String) (s : LowerState) :
    ∃ u, names.forM env.reference s = (.ok (), u) ∧ u.imports = s.imports := by
  induction names generalizing s with
  | nil => exact ⟨s, rfl, rfl⟩
  | cons name names ih =>
    obtain ⟨u, hu, himports⟩ := env.imports_reference name s
    obtain ⟨v, hv, himports'⟩ := ih u
    exact ⟨v, (bind_of_ok hu).trans hv, himports'.trans himports⟩

/-- Spelling a type never fails. Its text comes from the tables alone, and its imports are added to
those that are already there. -/
theorem run_spell (d : TypeDesc) (s : LowerState) :
    ∃ u, env.spell d s = (.ok (env.tables.spell d).text, u) ∧
      u.imports = SortedSet.addAll s.imports (env.tables.spell d).imports := by
  obtain ⟨u, hu, himports⟩ := env.imports_references d.names s
  refine ⟨{ u with imports := SortedSet.addAll u.imports (env.tables.spell d).imports }, ?_, ?_⟩
  · exact bind_of_ok hu
  · exact congrArg (SortedSet.addAll · _) himports

end Surroundings

namespace TypeTables

/-- Spelling a type adds to the imports at hand exactly those of the known classes that are selected
at the spelled nodes that go by their names. The text does not depend on the imports at hand, and
neither it nor the imports depend on the names of containers and callbacks. It comes to the same if
the imports are passed on from node to node. -/
theorem spell_tracks_imports (t : TypeTables) (d : TypeDesc) :
    (∀ (imports : ImportSet) (line : String),
      line ∈ SortedSet.toList (SortedSet.addAll imports (t.spell d).imports) ↔
        line ∈ SortedSet.toList imports ∨ t.Requires d line) ∧
    (∀ (env : Surroundings) (s : LowerState), env.tables = t →
      ∃ u, env.spell d s = (.ok (t.spell d).text, u) ∧
        u.imports = SortedSet.addAll s.imports (t.spell d).imports) ∧
    (∀ e : TypeDesc, e.unnamed = d.unnamed → t.spell e = t.spell d) ∧
    ∀ imports : ImportSet, (t.track d).run imports =
      ((t.spell d).text, SortedSet.addAll imports (t.spell d).imports) := by
  refine ⟨fun imports line => ?_, ?_, fun e h => ?_, t.tracks_track d⟩
  · rw [SortedSet.mem_addAll_iff, mem_imports_spell_iff, or_comm]
  · rintro env s rfl
    exact env.run_spell d s
  · rw [← spell_unnamed, h, spell_unnamed]

def clockwork : Surroundings where
  program := { typeTable := .ofList [("int", "number")] }
  dialect := TypeScript.dialect
  known := .ofList [{ name := "Clock", target := "Time", importLine := some "import * as Time;" }]
  oracle := {}
  location := ""

/-- Lists of clocks by number, where the names of the containers are left open. -/
def clockLists (outer inner : String) : TypeDesc where
  kind := .dictionary
  name := outer
  genericArgs := [{ kind := .int32, name := "int" },
    { kind := .list, name := inner, genericArgs := [.object "Clock"] }]

theorem clockLists_spell_tracks_imports :
    (∀ line, line ∈ SortedSet.toList (SortedSet.addAll SortedMap.empty
        (clockwork.tables.spell (clockLists "Dictionary" "List")).imports) ↔
      line ∈ SortedSet.toList (SortedMap.empty : ImportSet) ∨
        clockwork.tables.Requires (clockLists "Dictionary" "List") line) ∧
    (∃ u, clockwork.spell (clockLists "Dictionary" "List") {} = (.ok "Map<number, Time[]>", u) ∧
      u.imports = SortedSet.addAll SortedMap.empty ["import * as Time;"]) ∧
    clockwork.tables.spell (clockLists "Clock" "") =
      ⟨"Map<number, Time[]>", ["import * as Time;"]⟩ ∧
    (clockwork.tables.track (clockLists "Dictionary" "List")).run SortedMap.empty =
      ("Map<number, Time[]>", SortedSet.addAll SortedMap.empty ["import * as Time;"]) := by
  obtain ⟨himports, hrun, hnames, htrack⟩ :=
    spell_tracks_imports clockwork.tables (clockLists "Dictionary" "List")
  refine ⟨himports SortedMap.empty, hrun clockwork {} rfl, ?_, htrack SortedMap.empty⟩
  rw [hnames (clockLists "Clock" "") rfl]
  decide

end TypeTables

end Recast
