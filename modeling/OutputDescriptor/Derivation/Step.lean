import OutputDescriptor.Derivation.Index

/-!
Single steps of a derivation path.

A step goes to one child, or to the child that the caller names (a wildcard), in the normal or in
the hardened half. Three characters mark a hardened step when it is read; one of two is chosen when
it is written.
-/

namespace OutputDescriptor

inductive StepIndex
  | concrete (index : ChildIndex)
  | wildcard
deriving DecidableEq

structure Step where
  index : StepIndex
  hardened : Bool
deriving DecidableEq

/-- How a hardened step is marked in writing. -/
inductive HardenedMarker
  | letter
  | apostrophe
deriving DecidableEq

def HardenedMarker.char : HardenedMarker → Char
  | letter => 'h'
  | apostrophe => '\''

namespace StepIndex

def render : StepIndex → List Char
  | concrete index => index.render
  | wildcard => ['*']

end StepIndex

namespace Step

def isWildcard (step : Step) : Bool :=
  step.index == .wildcard

/-- The child a step goes to, the caller's choice standing in for a wildcard. -/
def childNumber? (step : Step) (choice : Option Nat) : Option ChildNumber :=
  match step.index with
  | .concrete index => some ⟨index, step.hardened⟩
  | .wildcard => do
    let index ← ChildIndex.ofNat? (← choice)
    some ⟨index, step.hardened⟩

def render (marker : HardenedMarker) (step : Step) : List Char :=
  step.index.render ++ if step.hardened then [marker.char] else []

/-- Whether a character marks a hardened step in a path that stands alone. -/
def isMarker (c : Char) : Bool :=
  c == 'h' || c == 'H' || c == '\''

/-- Takes one hardened marker off the end of a text. -/
def splitMarker (text : List Char) : List Char × Bool :=
  if text.getLast?.any isMarker then (text.dropLast, true) else (text, false)

def parse (text : List Char) : Except PathError Step :=
  let (unmarked, hardened) := splitMarker text
  if unmarked = ['*'] then
    .ok ⟨.wildcard, hardened⟩
  else
    match ChildIndex.parse unmarked with
    | .ok index => .ok ⟨.concrete index, hardened⟩
    | .error _ => .error (.invalidStep text)

/-- Steps are ordered by index, wildcards last, and a normal step comes before its hardened one. -/
def rank (step : Step) : Nat :=
  let index := match step.index with
    | .concrete index => index.val
    | .wildcard => 0x80000000
  2 * index + step.hardened.toNat

instance : LE Step := ⟨fun a b => a.rank ≤ b.rank⟩

instance : DecidableLE Step := fun a b => inferInstanceAs (Decidable (a.rank ≤ b.rank))

theorem isMarker_eq_false_of_isDigit {c : Char} (h : c.isDigit = true) : isMarker c = false := by
  rw [Bool.eq_false_iff]
  intro marker
  simp only [isMarker, Bool.or_eq_true, beq_iff_eq] at marker
  rcases marker with (rfl | rfl) | rfl <;> simp at h

theorem isMarker_of_mem_render {index : StepIndex} {c : Char} (h : c ∈ index.render) :
    isMarker c = false := by
  cases index with
  | wildcard =>
    obtain rfl := List.mem_singleton.mp h
    decide
  | concrete index => exact isMarker_eq_false_of_isDigit (ChildIndex.isDigit_of_mem_render h)

/-- The marker of a written step comes off again, and nothing else does. -/
theorem splitMarker_render (marker : HardenedMarker) (step : Step) :
    splitMarker (step.render marker) = (step.index.render, step.hardened) := by
  obtain ⟨index, hardened⟩ := step
  cases hardened with
  | true => cases marker <;> simp [render, splitMarker, isMarker, HardenedMarker.char]
  | false =>
    have unmarked : index.render.getLast?.any isMarker = false := by
      cases h : index.render.getLast? with
      | none => rfl
      | some c => exact isMarker_of_mem_render (List.mem_of_getLast? h)
    simp [render, splitMarker, unmarked]

/-- A step reads back with either marker. -/
theorem parse_render (marker : HardenedMarker) (step : Step) :
    parse (step.render marker) = .ok step := by
  have split := splitMarker_render marker step
  obtain ⟨index, hardened⟩ := step
  cases index with
  | wildcard => simp [parse, split, StepIndex.render]
  | concrete index =>
    have numeral : index.render ≠ ['*'] := by
      intro h
      have star := ChildIndex.isDigit_of_mem_render (c := '*') (by rw [h]; simp)
      simp at star
    simp [parse, split, StepIndex.render, numeral, ChildIndex.parse_render]

end Step

end OutputDescriptor
