import Recast.Proofs.Lineage.Reach
import Recast.Proofs.Naming.Distinct

/-! # When overriding methods keep a common name

A method takes the place of an inherited one, or implements one of an interface, only if both end up
with one name. Every class numbers its own methods, so this is so exactly when both methods get the
same digits.
-/
namespace Recast.Program
open Routine
variable {p q : Program}

/-- A method of one class and a method of the same signature of something that the class extends,
each the only one of its class with that signature. -/
structure Overrides (p : Program) (a : ClassId) (i : Nat) (f : Routine) (b : ClassId) (j : Nat)
    (g : Routine) : Prop where
  reached : Relation.TransGen p.ExtensionStep a b
  derived : p.routineAt? a i = some f
  base : p.routineAt? b j = some g
  isMethod : f.isConstructor = false
  signature : f.signature = g.signature
  only_derived : ∀ k h, p.routineAt? a k = some h → h.signature = f.signature → k = i
  only_base : ∀ k h, p.routineAt? b k = some h → h.signature = g.signature → k = j

def OverridesKept (p : Program) : Prop :=
  ∀ a i f b j g, p.Overrides a i f b j g → f.emittedName = g.emittedName

def NamedAlike (p : Program) (a : ClassId) (i : Nat) (f : Routine) (b : ClassId) (j : Nat)
    (g : Routine) : Prop :=
  ∀ c d, p.class? a = some c → p.class? b = some d →
    (p.numberedName a c i f).text = (p.numberedName b d j g).text

theorem extensionStep_congr (h : p.outline = q.outline) : p.ExtensionStep = q.ExtensionStep := by
  funext a b
  rw [← mem_parents_iff, ← mem_parents_iff, parents_congr h]

theorem only_congr (h : p.outline = q.outline) {a : ClassId} {i : Nat} {s : String × Bool × Nat}
    (hp : ∀ k g, p.routineAt? a k = some g → g.signature = s → k = i) :
    ∀ k g, q.routineAt? a k = some g → g.signature = s → k = i := by
  intro k g hg hs
  have hsig := congrArg (Option.map Outline.signatures) (class?_outline_congr h a)
  obtain ⟨d,hd,hgd⟩ := routineAt?_eq_some_iff.mp hg
  rw [hd] at hsig
  cases hc : p.class? a with
  | none => simp [hc] at hsig
  | some c =>
    simp only [hc, Option.map_some, Option.some.injEq, Class.outline] at hsig
    have hk := congrArg (fun ss => ss[k]?) hsig
    simp only [List.getElem?_map, hgd, Option.map_some] at hk
    obtain ⟨f,hf,hfg⟩ := Option.map_eq_some_iff.mp hk
    exact hp k f (routineAt?_eq_some_iff.mpr ⟨c,hc,hf⟩) (hfg.trans hs)

section pair
variable {a b : ClassId} {i j : Nat} {f g : Routine}

theorem Overrides.transfer {f' g' : Routine} (h : p.Overrides a i f b j g)
    (ho : p.outline = q.outline) (hf : q.routineAt? a i = some f') (hg : q.routineAt? b j = some g')
    (hfs : f'.signature = f.signature) (hgs : g'.signature = g.signature) :
    q.Overrides a i f' b j g' where
  reached := extensionStep_congr ho ▸ h.reached
  derived := hf
  base := hg
  isMethod := (signature_eq_iff.mp hfs).2.1.trans h.isMethod
  signature := hfs.trans (h.signature.trans hgs.symm)
  only_derived := only_congr ho (hfs ▸ h.only_derived)
  only_base := only_congr ho (hgs ▸ h.only_base)

theorem Overrides.conflictNumber_eq (h : p.Overrides a i f b j g) (hb : b ∈ p.baseChain a)
    (c : Class) : p.conflictNumber a c i f = "" := by
  have hin : g ∈ p.inherited a := mem_inherited.mpr ⟨b,hb,j,h.base⟩
  obtain ⟨hname,hcons,harity⟩ := signature_eq_iff.mp h.signature
  have hno : ¬ conflicts (p.inherited a) f = true := by
    intro hconf
    exact (conflicts_iff.mp hconf).2.2 g hin (hcons.symm.trans h.isMethod) hname.symm harity.symm
  simp [conflictNumber, hno]

theorem text_numberedName {c : Class} (hc : c.resolved = false) (hf : f.isConstructor = false)
    (hr : f.remap = none) : (p.numberedName a c i f).text = f.name ++ p.addedDigits a c i f := by
  simp [numberedName, hc, hf, NumberedName.text, emittedName, hr]

/-- Where neither method had a final name before, all depends on the digits that are added. -/
theorem Overrides.namedAlike_iff (h : p.Overrides a i f b j g) {c d : Class}
    (hc : p.class? a = some c) (hd : p.class? b = some d) (hcr : c.resolved = false)
    (hdr : d.resolved = false) (hf : f.remap = none) (hg : g.remap = none) :
    p.NamedAlike a i f b j g ↔ p.addedDigits a c i f = p.addedDigits b d j g := by
  obtain ⟨hname,hcons,-⟩ := signature_eq_iff.mp h.signature
  have htext : (p.numberedName a c i f).text = (p.numberedName b d j g).text ↔
      p.addedDigits a c i f = p.addedDigits b d j g := by
    rw [text_numberedName hcr h.isMethod hf,
      text_numberedName hdr (hcons.symm.trans h.isMethod) hg, hname, String.append_right_inj]
  rw [← htext]
  refine ⟨fun hn => hn c d hc hd,fun ht c' d' hc' hd' => ?_⟩
  obtain rfl : c = c' := Option.some.inj (hc.symm.trans hc')
  obtain rfl : d = d' := Option.some.inj (hd.symm.trans hd')
  exact ht

end pair

/-- Overriding methods keep a common name exactly when they are named alike. Where no names were
given before, they are if both get the same digits; a method that overrides one of a base gets those
of its overloads alone. -/
theorem overridesKept_resolve_iff (p : Program) :
    (p.resolve.1.OverridesKept ↔
      ∀ a i f b j g, p.Overrides a i f b j g → p.NamedAlike a i f b j g) ∧
    ∀ a i f b j g c d, p.Overrides a i f b j g → p.class? a = some c → p.class? b = some d →
      c.resolved = false → d.resolved = false → f.remap = none → g.remap = none →
      (p.NamedAlike a i f b j g ↔ p.addedDigits a c i f = p.addedDigits b d j g) ∧
      (b ∈ p.baseChain a → p.addedDigits a c i f = overloadNumber c i f) := by
  refine ⟨⟨?_,?_⟩,?_⟩
  · intro hkept a i f b j g h c d hc hd
    obtain ⟨c',hc',hf⟩ := routineAt?_eq_some_iff.mp h.derived
    obtain ⟨d',hd',hg⟩ := routineAt?_eq_some_iff.mp h.base
    obtain rfl : c' = c := Option.some.inj (hc'.symm.trans hc)
    obtain rfl : d' = d := Option.some.inj (hd'.symm.trans hd)
    obtain ⟨f',hf',hfsig,hfname,-⟩ := routineAt?_resolve hc hf
    obtain ⟨g',hg',hgsig,hgname,-⟩ := routineAt?_resolve hd hg
    rw [← hfname, ← hgname]
    exact hkept a i f' b j g' (h.transfer (outline_resolve p).symm hf' hg' hfsig hgsig)
  · intro halike a i f' b j g' h
    obtain ⟨c,f,hc,hf,hfsig,hfname,-⟩ := exists_of_routineAt?_resolve h.derived
    obtain ⟨d,g,hd,hg,hgsig,hgname,-⟩ := exists_of_routineAt?_resolve h.base
    rw [hfname, hgname]
    exact halike a i f b j g (h.transfer (outline_resolve p)
      (routineAt?_eq_some_iff.mpr ⟨c,hc,hf⟩) (routineAt?_eq_some_iff.mpr ⟨d,hd,hg⟩)
      hfsig.symm hgsig.symm) c d hc hd
  · intro a i f b j g c d h hc hd hcr hdr hf hg
    refine ⟨h.namedAlike_iff hc hd hcr hdr hf hg,fun hb => ?_⟩
    simp [addedDigits, h.conflictNumber_eq hb]

/-- A chain of three classes. The method of the second is in conflict with the first, and the third
overrides it. -/
def overriddenRun : Program where
  classes := [
    { name := "Root", routines := [{ name := "Run" }] },
    { name := "Middle", extensions := ["Root"], routines := [oneArgument] },
    { name := "Leaf", extensions := ["Middle"], routines := [oneArgument] }]
where
  oneArgument : Routine :=
    { name := "Run", parameters := [{ name := "speed", ty := .object "object" }] }

theorem overriddenRun_not_overridesKept : ¬ overriddenRun.resolve.1.OverridesKept := by
  intro h
  have honly {a : ClassId} (ha : ∀ k, overriddenRun.resolve.1.routineAt? a (k + 1) = none) (k : Nat)
      (g : Routine) (hg : overriddenRun.resolve.1.routineAt? a k = some g) : k = 0 := by
    cases k with
    | zero => rfl
    | succ k => rw [ha k] at hg; cases hg
  have hover : overriddenRun.resolve.1.Overrides 2 0 _ 1 0 _ :=
    { reached := .single (mem_parents_iff.mp (by decide)), derived := rfl, base := rfl
      isMethod := rfl, signature := rfl
      only_derived := fun k g hg _ => honly (fun _ => rfl) k g hg
      only_base := fun k g hg _ => honly (fun _ => rfl) k g hg }
  have hname : "Run" = "Run1" := h 2 0 _ 1 0 _ hover
  exact absurd hname (by decide)

end Recast.Program
