import Recast.Proofs.Ordering.Documents
import Recast.Proofs.Session.Frozen

/-! # Runs from the start

The standard stages begin with a reset. What comes of them depends on the rules, the types, the
symbols and the sources of a session, and on nothing that earlier runs have left behind, whether
they finished or broke off.
-/
namespace Recast

namespace Defines
variable {d : Defines} {symbol : String} {symbols : List String}

theorem toList_subset_define (d : Defines) (symbol : String) :
    d.toList ⊆ (d.define symbol).toList := by
  unfold define
  dsimp only
  split
  · exact List.Subset.refl _
  · exact SortedSet.subset_addAll d.symbols [Text.trim symbol]

theorem toList_subset_defineAll (d : Defines) (symbols : List String) :
    d.toList ⊆ (d.defineAll symbols).toList := by
  induction symbols generalizing d with
  | nil => exact List.Subset.refl _
  | cons symbol symbols ih =>
    exact List.Subset.trans (toList_subset_define d symbol) (ih (d.define symbol))

/-- A symbol that is defined already changes nothing. -/
theorem define_of_mem (h : Text.trim symbol ∈ d.toList) : d.define symbol = d := by
  unfold define
  dsimp only
  split
  · rfl
  · rw [SortedSet.add_of_mem (String.lt_irrefl _) h]

theorem trim_mem_define (d : Defines) (h : Text.trim symbol ≠ "") :
    Text.trim symbol ∈ (d.define symbol).toList := by
  unfold define
  rw [if_neg (by simpa using h)]
  exact SortedSet.mem_add d.symbols (Text.trim symbol)

theorem defineAll_of_forall (h : ∀ symbol ∈ symbols, d.define symbol = d) :
    d.defineAll symbols = d := by
  induction symbols with
  | nil => rfl
  | cons symbol symbols ih =>
    obtain ⟨hfirst,hrest⟩ := List.forall_mem_cons.mp h
    change (d.define symbol).defineAll symbols = d
    rw [hfirst, ih hrest]

theorem define_defineAll_of_mem (d : Defines) (h : symbol ∈ symbols) :
    (d.defineAll symbols).define symbol = d.defineAll symbols := by
  by_cases hblank : Text.trim symbol = ""
  · simp [define, hblank]
  · apply define_of_mem
    obtain ⟨before,after,rfl⟩ := List.append_of_mem h
    have hdefined := trim_mem_define (d.defineAll before) hblank
    have hsplit : d.defineAll (before ++ symbol :: after) =
        ((d.defineAll before).define symbol).defineAll after := List.foldl_append
    rw [hsplit]
    exact toList_subset_defineAll _ after hdefined

theorem defineAll_defineAll (d : Defines) (symbols : List String) :
    (d.defineAll symbols).defineAll symbols = d.defineAll symbols :=
  defineAll_of_forall fun _ h => define_defineAll_of_mem d h

end Defines

theorem Program.reset_discover {p q : Program} {document : Document}
    (h : p.discover document = .ok q) : q.reset = p.reset := by
  unfold discover at h
  cases hfrozen : p.frozen with
  | false =>
    rw [addAll_eq hfrozen] at h
    cases h
    rfl
  | true =>
    cases hclasses : (p.harvest document).classes with
    | nil =>
      rw [hclasses] at h
      cases h
      rfl
    | cons c cs =>
      rw [hclasses, addAll_of_frozen hfrozen] at h
      nomatch h

namespace Session

/-- Discovery touches nothing that a reset keeps, even if it breaks off. -/
theorem reset_discoverAll (defines : Defines) (sources : List Source) (p : Program)
    (d : Discovery) : (discoverAll defines sources p d).2.reset = p.reset := by
  induction sources generalizing p d with
  | nil => rfl
  | cons source sources ih =>
    rw [discoverAll]
    split
    · rfl
    · next document _ =>
      split
      · rfl
      · next q hq => rw [ih, Program.reset_discover hq]

/-- Two sessions with the same work to do: the same rules, types, symbols and sources. -/
structure SameTask (s t : Session) : Prop where
  rules : t.program.rules = s.program.rules
  typeTable : t.program.typeTable = s.program.typeTable
  defines : t.defines = s.defines
  symbols : t.symbols = s.symbols
  sources : t.sources = s.sources

/-- The session when the sources are about to be searched. -/
def prepared (s : Session) : Session :=
  { s with
    program := s.program.reset
    defines := s.defines.defineAll s.symbols
    discovery := none
    resolution := none
    notes := .empty
    completed := [.reset,.foldSymbols] }

theorem run_standard_eq (s : Session) :
    s.run Stage.standard = s.prepared.steps [.discover,.resolve,.sort] := rfl

theorem SameTask.prepared_eq {s t : Session} (h : s.SameTask t) :
    t.prepared = { s.prepared with known := t.known } := by
  have hprogram : t.program.reset = s.program.reset := by
    rw [Program.reset, Program.reset, h.rules, h.typeTable]
  unfold prepared
  rw [hprogram, h.defines, h.symbols, h.sources]

/-- No stage has a say in what the next run starts from. -/
theorem prepared_step (s : Session) (stage : Stage) : (s.step stage).2.prepared = s.prepared := by
  cases stage with
  | reset => rfl
  | foldSymbols =>
    dsimp only [step, prepared]
    rw [Defines.defineAll_defineAll]
  | discover =>
    have hreset := reset_discoverAll s.defines s.sources s.program {}
    dsimp only [step]
    split
    · next heq =>
      rw [heq] at hreset
      dsimp only [prepared]
      rw [hreset]
    · next heq =>
      rw [heq] at hreset
      dsimp only [prepared]
      rw [hreset]
  | resolve =>
    have hreset : s.program.resolve.1.reset = s.program.reset := by
      rw [Program.resolve_fst]
      rfl
    dsimp only [step, prepared]
    rw [hreset]
  | sort => rfl

theorem prepared_steps (s : Session) (stages : List Stage) :
    (s.steps stages).2.prepared = s.prepared := by
  induction stages generalizing s with
  | nil => rfl
  | cons stage stages ih =>
    have hstep := prepared_step s stage
    rw [steps]
    split
    · next t heq =>
      rw [heq] at hstep
      exact (ih { t with completed := t.completed ++ [stage] }).trans hstep
    · next t e heq =>
      rw [heq] at hstep
      exact hstep

theorem prepared_run (s : Session) (stages : List Stage) :
    (s.run stages).2.prepared = s.prepared := by
  unfold run
  split
  · rfl
  · exact prepared_steps s stages

/-- The session after some runs, of which any may have failed. -/
def after (s : Session) (history : List (List Stage)) : Session :=
  history.foldl (fun s stages => (s.run stages).2) s

theorem prepared_after (s : Session) (history : List (List Stage)) :
    (s.after history).prepared = s.prepared := by
  induction history generalizing s with
  | nil => rfl
  | cons stages history ih => exact (ih (s.run stages).2).trans (prepared_run s stages)

/-- The stages take no notice of the classes that are known from elsewhere. -/
theorem step_withKnown (s : Session) (known : KnownClasses) (stage : Stage) :
    { s with known }.step stage = ((s.step stage).1,{ (s.step stage).2 with known }) := by
  cases stage with
  | discover =>
    dsimp only [step]
    split
    · rfl
    · rfl
  | reset | foldSymbols | resolve | sort => rfl

theorem steps_withKnown (s : Session) (known : KnownClasses) (stages : List Stage) :
    { s with known }.steps stages = ((s.steps stages).1,{ (s.steps stages).2 with known }) := by
  induction stages generalizing s with
  | nil => rfl
  | cons stage stages ih =>
    have hstep := step_withKnown s known stage
    rcases hs : s.step stage with ⟨r,t⟩
    rw [steps, steps, hstep, hs]
    cases r with
    | ok => exact ih { t with completed := t.completed ++ [stage] }
    | error => rfl

/-- Reruns start clean. Of two sessions with the same work to do, one may hold what earlier runs and
others left in it, and any runs may come first, finished or not: the standard stages end in the same
way, and with the same session but for the classes known from elsewhere. -/
theorem run_standard_after {s t : Session} (h : s.SameTask t) (history : List (List Stage)) :
    (t.after history).run Stage.standard =
      ((s.run Stage.standard).1,{ (s.run Stage.standard).2 with known := t.known }) := by
  rw [run_standard_eq, prepared_after, h.prepared_eq, steps_withKnown, run_standard_eq]

/-- A kennel that was left frozen, with a class from elsewhere and notes about it. -/
def staleKennel : Session :=
  { kennelSession with
    program := { classes := [{ name := "Cat" }], frozen := true }
    discovery := some { classes := 7 }
    notes := SortedMap.empty.insertAll [("stale",.bool true)]
    completed := [.sort] }

theorem staleKennel_run_standard_after :
    let history := [[.foldSymbols,.discover],[.resolve],Stage.standard,[.discover]]
    kennelSession.SameTask staleKennel ∧
      (staleKennel.run [.foldSymbols,.discover]).1 = .error (.program (.frozen "Dog")) ∧
      (staleKennel.after history).run Stage.standard = kennelSession.run Stage.standard := by
  have hsame : kennelSession.SameTask staleKennel := ⟨rfl,rfl,rfl,rfl,rfl⟩
  exact ⟨hsame,rfl,run_standard_after hsame _⟩

end Session

end Recast
