import OutputDescriptor.Proofs.Ranged
import OutputDescriptor.Proofs.Derivation.Spelling

/-!
Which paths there are.

Every way to a path, from an origin and steps or from a text that spells them, refuses it for its
wildcards alone. So a path is everywhere what it was built from, and the rules hold of each.
-/

namespace OutputDescriptor

theorem ChildIndex.exists_ofNat_iff {n : Nat} :
    (∃ index, ofNat n = .ok index ∧ index.val = n) ↔ n < 0x80000000 := by
  constructor
  · rintro ⟨index, _, rfl⟩
    exact index.val_lt
  · intro lt
    refine ⟨⟨n, lt⟩, ?_, rfl⟩
    simp [ofNat, ofNat?, lt]

namespace Path

/-- A wildcard stands only at the end, and nowhere behind a fingerprint. -/
structure Admits (origin : Origin) (steps : List Step) : Prop where
  last : ∀ i (_ : i + 1 < steps.length), steps[i].isWildcard = false
  concrete : ∀ fp, origin = .fingerprint fp → ∀ step ∈ steps, step.isWildcard = false

variable {origin : Origin} {steps : List Step}

theorem dropLast_concrete_iff :
    (∀ step ∈ steps.dropLast, step.isWildcard = false) ↔
      ∀ i (_ : i + 1 < steps.length), steps[i].isWildcard = false := by
  constructor
  · intro h i hi
    have hlength : i < steps.dropLast.length := by
      rw [List.length_dropLast]
      omega
    rw [← List.getElem_dropLast hlength]
    exact h _ (List.getElem_mem hlength)
  · intro h step hmem
    obtain ⟨i, hi, rfl⟩ := List.getElem_of_mem hmem
    rw [List.length_dropLast] at hi
    rw [List.getElem_dropLast]
    exact h i (by omega)

theorem admits (path : Path) : Admits path.origin path.steps where
  last := dropLast_concrete_iff.mp path.wildcard_last
  concrete fp h := path.origin_concrete (by rw [h]; rfl)

/-- What the rules admit is a path. -/
def ofAdmits (h : Admits origin steps) : Path where
  origin := origin
  steps := steps
  wildcard_last := dropLast_concrete_iff.mpr h.last
  origin_concrete := by
    intro named
    cases origin with
    | fingerprint fp => exact h.concrete fp rfl
    | _ => cases named

theorem exists_ofSteps_iff : (∃ path, ofSteps origin steps = .ok path) ↔ Admits origin steps := by
  constructor
  · rintro ⟨path, h⟩
    obtain ⟨rfl, rfl⟩ := ofSteps_eq_ok.mp h
    exact path.admits
  · intro h
    exact ⟨ofAdmits h, ofSteps_eq_ok.mpr ⟨rfl, rfl⟩⟩

theorem admits_fingerprint_iff {fp : Fingerprint} :
    Admits (.fingerprint fp) steps ↔ ∀ step ∈ steps, step.isWildcard = false := by
  constructor
  · exact fun h => h.concrete fp rfl
  · exact fun h => ⟨fun i _ => h _ (List.getElem_mem _), fun _ _ => h⟩

theorem admits_unnamed_iff :
    Admits .unnamed steps ↔ ∀ i (_ : i + 1 < steps.length), steps[i].isWildcard = false := by
  constructor
  · exact fun h => h.last
  · exact fun h => ⟨h, fun _ named => by cases named⟩

theorem exists_parse_iff {text : List Char} :
    (∃ path, parse text = .ok path) ↔ ∃ front back origin steps, text = front ++ back ∧
      Origin.parse front = .ok origin ∧ Step.SpellsAll back steps ∧ Admits origin steps := by
  constructor
  · rintro ⟨path, h⟩
    obtain ⟨front, back, htext, horigin, hsteps⟩ := parse_eq_ok_iff.mp h
    exact ⟨front, back, _, _, htext, horigin, hsteps, path.admits⟩
  · rintro ⟨front, back, origin, steps, htext, horigin, hsteps, hadmits⟩
    exact ⟨ofAdmits hadmits, parse_eq_ok_iff.mpr ⟨front, back, htext, horigin, hsteps⟩⟩

/-- Paths are refused for their wildcards alone, whichever way they are asked for, and keep what they
were asked for. The rules then hold of every path, which is ranged if a wildcard stands anywhere on
it, stays in the lower half of the child numbers, and reads back from both of its texts. -/
theorem wildcardRules_readsBack :
    (∀ origin steps, ((∃ path, ofSteps origin steps = .ok path) ↔ Admits origin steps) ∧
      ∀ path, ofSteps origin steps = .ok path → path.origin = origin ∧ path.steps = steps) ∧
    (∀ fp steps, ((∃ path, keyOrigin fp steps = .ok path) ↔
        ∀ step ∈ steps, step.isWildcard = false) ∧
      ∀ path, keyOrigin fp steps = .ok path → path.origin = .fingerprint fp ∧ path.steps = steps) ∧
    (∀ steps, ((∃ path, children steps = .ok path) ↔
        ∀ i (_ : i + 1 < steps.length), steps[i].isWildcard = false) ∧
      ∀ path, children steps = .ok path → path.origin = .unnamed ∧ path.steps = steps) ∧
    (∀ text, ((∃ path, parse text = .ok path) ↔ ∃ front back origin steps, text = front ++ back ∧
        Origin.parse front = .ok origin ∧ Step.SpellsAll back steps ∧ Admits origin steps) ∧
      ∀ path, parse text = .ok path → ∃ front back, text = front ++ back ∧
        Origin.parse front = .ok path.origin ∧ Step.SpellsAll back path.steps) ∧
    (∀ n, (∃ index, ChildIndex.ofNat n = .ok index ∧ index.val = n) ↔ n < 0x80000000) ∧
    ∀ path : Path, Admits path.origin path.steps ∧
      (path.isRanged = true ↔ ∃ step ∈ path.steps, step.isWildcard = true) ∧
      (∀ step ∈ path.steps, ∀ index, step.index = .concrete index → index.val < 0x80000000) ∧
      parse path.text = .ok path ∧ parse (path.render .apostrophe) = .ok path := by
  refine ⟨fun origin steps => ⟨exists_ofSteps_iff, fun path => ofSteps_eq_ok.mp⟩,
    fun fp steps => ⟨?_, fun path => ofSteps_eq_ok.mp⟩,
    fun steps => ⟨?_, fun path => ofSteps_eq_ok.mp⟩,
    fun text => ⟨exists_parse_iff, fun path => parse_eq_ok_iff.mp⟩,
    fun n => ChildIndex.exists_ofNat_iff,
    fun path => ⟨path.admits, isRanged_iff, fun _ _ index _ => index.val_lt,
      parse_render .letter path, parse_render .apostrophe path⟩⟩
  · exact exists_ofSteps_iff.trans admits_fingerprint_iff
  · exact exists_ofSteps_iff.trans admits_unnamed_iff

/-- Steps to a hardened child of the caller's choice, which lead there from the master key, but not
from a key of known fingerprint, and which cannot be followed by any other steps. -/
theorem wildcardRules_readsBack_samples :
    let toChoice : List Step := [⟨.concrete ⟨44, by decide⟩, true⟩, ⟨.wildcard, true⟩]
    let fp : Fingerprint := ⟨[0xd3, 0x4d, 0xb3, 0x3f], by decide⟩
    (∃ path, ofSteps .master toChoice = .ok path ∧ path.isRanged = true ∧
      path.text = "m/44h/*h".toList ∧ parse path.text = .ok path ∧
      parse (path.render .apostrophe) = .ok path) ∧
    ¬(∃ path, keyOrigin fp toChoice = .ok path) ∧
    ¬(∃ path, children (toChoice ++ toChoice) = .ok path) := by
  intro toChoice fp
  obtain ⟨fromOrigin, fromFingerprint, fromKey, _, _, each⟩ := wildcardRules_readsBack
  have admitted : Admits .master toChoice :=
    ⟨dropLast_concrete_iff.mp (by decide), fun fp h => by cases h⟩
  refine ⟨?_, ?_, ?_⟩
  · obtain ⟨path, hpath⟩ := (fromOrigin .master toChoice).1.mpr admitted
    obtain ⟨horigin, hsteps⟩ := (fromOrigin .master toChoice).2 path hpath
    obtain ⟨_, ranged, _, plain, quoted⟩ := each path
    refine ⟨path, hpath, ranged.mpr ?_, ?_, plain, quoted⟩
    · rw [hsteps]
      decide
    · rw [text, render, horigin, hsteps]
      decide
  · rw [(fromFingerprint fp toChoice).1]
    decide
  · rw [(fromKey _).1, ← dropLast_concrete_iff]
    decide

end Path

end OutputDescriptor
