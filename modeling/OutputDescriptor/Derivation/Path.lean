import OutputDescriptor.Derivation.Step
import OutputDescriptor.Derivation.Origin

/-!
Derivation paths.

A wildcard stands only at the end of a path, and not at all in a path that starts at a fingerprint,
since such a path tells where one given key came from. Both rules are part of the type, so whoever
holds a path may rely on them.
-/

namespace OutputDescriptor

structure Path where
  origin : Origin
  steps : List Step
  wildcard_last : ∀ step ∈ steps.dropLast, step.isWildcard = false
  origin_concrete : origin.fingerprint?.isSome = true → ∀ step ∈ steps, step.isWildcard = false
deriving DecidableEq

namespace Path

instance : Inhabited Path := ⟨⟨.unnamed, [], by simp, by simp⟩⟩

/-- In front of the first wildcard there is none. -/
theorem dropLast_concrete_of_findIdx? {steps : List Step} {position : Nat}
    (h : steps.findIdx? Step.isWildcard = some position) (last : position + 1 = steps.length) :
    ∀ step ∈ steps.dropLast, step.isWildcard = false := by
  obtain ⟨_, _, before⟩ := List.findIdx?_eq_some_iff_getElem.mp h
  intro step hstep
  obtain ⟨i, hi, rfl⟩ := List.getElem_of_mem hstep
  rw [List.length_dropLast] at hi
  rw [List.getElem_dropLast]
  exact Bool.eq_false_iff.mpr (before i (by omega))

/-- The path with the given steps, if the first of their wildcards stands where one may stand. -/
def ofSteps (origin : Origin) (steps : List Step) : Except PathError Path :=
  match h : steps.findIdx? Step.isWildcard with
  | none =>
    have concrete := List.findIdx?_eq_none_iff.mp h
    .ok ⟨origin, steps, fun step hstep => concrete step (List.dropLast_subset steps hstep),
      fun _ => concrete⟩
  | some position =>
    if named : origin.fingerprint?.isSome = true then .error .wildcardInOrigin
    else if last : position + 1 = steps.length then
      .ok ⟨origin, steps, dropLast_concrete_of_findIdx? h last,
        fun fingerprint => absurd fingerprint named⟩
    else .error .wildcardNotLast

/-- The path from a key of known fingerprint to the key it describes. -/
def keyOrigin (fp : Fingerprint) (steps : List Step) : Except PathError Path :=
  ofSteps (.fingerprint fp) steps

/-- The path from an extended key to its descendants. -/
def children (steps : List Step) : Except PathError Path :=
  ofSteps .unnamed steps

/-- Whether the path leaves its last step to the caller. -/
def isRanged (path : Path) : Bool :=
  path.steps.getLast?.any Step.isWildcard

def hasHardened (path : Path) : Bool :=
  path.steps.any Step.hardened

def render (marker : HardenedMarker) (path : Path) : List Char :=
  path.origin.render ++ path.steps.flatMap fun step => '/' :: step.render marker

/-- The written form, in which hardened steps end in a letter. -/
def text (path : Path) : List Char :=
  path.render .letter

def parse (text : List Char) : Except PathError Path :=
  match text.splitOn '/' with
  | [] => ofSteps .unnamed []
  | origin :: steps => do
    let origin ← Origin.parse origin
    let steps ← steps.mapM Step.parse
    ofSteps origin steps

/-- A wildcard of a path is its last step. -/
theorem last_of_isWildcard (path : Path) {i : Nat} {step : Step} (hstep : path.steps[i]? = some step)
    (wild : step.isWildcard = true) : i + 1 = path.steps.length := by
  obtain ⟨inside, _⟩ := List.getElem?_eq_some_iff.mp hstep
  refine Nat.le_antisymm inside (Nat.le_of_not_lt fun early => ?_)
  have inFront : step ∈ path.steps.dropLast := by
    refine List.mem_iff_getElem?.mpr ⟨i, ?_⟩
    rw [List.getElem?_dropLast, if_pos (by omega), hstep]
  rw [path.wildcard_last step inFront] at wild
  cases wild

theorem ofSteps_eq_ok {origin : Origin} {steps : List Step} {path : Path} :
    ofSteps origin steps = .ok path ↔ path.origin = origin ∧ path.steps = steps := by
  unfold ofSteps
  constructor
  · intro h
    split at h
    · cases h
      exact ⟨rfl, rfl⟩
    · split at h <;> try contradiction
      split at h <;> try contradiction
      cases h
      exact ⟨rfl, rfl⟩
  · rintro ⟨rfl, rfl⟩
    split
    · rfl
    · next position h =>
      obtain ⟨inside, wild, _⟩ := List.findIdx?_eq_some_iff_getElem.mp h
      rw [dif_neg, dif_pos]
      · exact path.last_of_isWildcard (List.getElem?_eq_getElem inside) wild
      · intro named
        rw [path.origin_concrete named _ (List.getElem_mem inside)] at wild
        cases wild

end Path

end OutputDescriptor
