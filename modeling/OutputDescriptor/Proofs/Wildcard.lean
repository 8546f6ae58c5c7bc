import OutputDescriptor.Proofs.Availability

/-!
Whether a tree has a script does not depend on the child that the caller names.

The children that two callers name are children of the same key, since only the last step of a path
is left to the caller, and they lie in the same half. If derivation never fails, one of them is in
reach exactly if the other one is, with whatever source of private keys.
-/

namespace OutputDescriptor

theorem Step.childNumber?_of_concrete {step : Step} (concrete : step.isWildcard = false)
    (choice choice' : Option Nat) : step.childNumber? choice = step.childNumber? choice' := by
  obtain ⟨index, hardened⟩ := step
  cases index with
  | concrete index => rfl
  | wildcard => cases concrete

theorem NamesChild.some {i : Nat} (h : i < 0x80000000) : NamesChild (some i) :=
  ⟨i, rfl, h⟩

section

variable [arithmetic : KeyArithmetic] {source : Option KeySource} {choice choice' : Option Nat}

/-- One step to the caller's choice ends somewhere for every choice or for none. -/
theorem ExtendedKey.exists_child?_of_choice (total : arithmetic.NeverFails)
    (names : NamesChild choice') {key child : ExtendedKey}
    (reachable : arithmetic.Reachable key.neuter.key) {step : Step} {number : ChildNumber}
    (hnumber : step.childNumber? choice = some number)
    (hchild : key.child? source number = some child) :
    ∃ number' child', step.childNumber? choice' = some number' ∧
      key.child? source number' = some child' := by
  obtain ⟨number', hnumber'⟩ := Step.exists_childNumber?.mpr fun _ => names
  have half : number'.hardened = number.hardened := by
    rw [Step.hardened_of_childNumber? hnumber, Step.hardened_of_childNumber? hnumber']
  have reached := (exists_child? total reachable).mp ⟨child, hchild⟩
  rw [← half] at reached
  obtain ⟨child', hchild'⟩ := (exists_child? total reachable).mpr reached
  exact ⟨number', child', hnumber', hchild'⟩

theorem ExtendedKey.exists_descendant?_of_choice (total : arithmetic.NeverFails)
    (names : NamesChild choice') {steps : List Step} :
    ∀ {key last : ExtendedKey}, arithmetic.Reachable key.neuter.key →
      (∀ step ∈ steps.dropLast, step.isWildcard = false) →
        key.descendant? choice source steps = some last →
          ∃ last', key.descendant? choice' source steps = some last' := by
  induction steps with
  | nil =>
    intro key last _ _ _
    exact ⟨key, rfl⟩
  | cons step steps ih =>
    intro key last reachable concrete h
    obtain ⟨number, child, hnumber, hchild, hrest⟩ := descendant?_cons_eq_some.mp h
    cases steps with
    | nil =>
      obtain ⟨number', child', hnumber', hchild'⟩ :=
        exists_child?_of_choice total names reachable hnumber hchild
      exact ⟨child', descendant?_cons_eq_some.mpr ⟨number', child', hnumber', hchild', rfl⟩⟩
    | cons next steps =>
      -- not the last step, so both callers go to the same child
      rw [List.dropLast_cons_cons, List.forall_mem_cons] at concrete
      rw [Step.childNumber?_of_concrete concrete.1 choice choice'] at hnumber
      obtain ⟨last', hlast'⟩ := ih (reachable_of_child? reachable hchild) concrete.2 hrest
      exact ⟨last', descendant?_cons_eq_some.mpr ⟨number, child, hnumber, hchild, hlast'⟩⟩

theorem KeyExpression.isSome_resolve?_of_choice (total : arithmetic.NeverFails)
    (names : NamesChild choice') {expr : KeyExpression} (reachable : expr.key.Reachable)
    (h : (expr.resolve? choice source).isSome = true) :
    (expr.resolve? choice' source).isSome = true := by
  obtain ⟨found, hfound⟩ := Option.isSome_iff_exists.mp h
  obtain ⟨origin, key⟩ := expr
  cases key with
  | literal key => rfl
  | wif key => rfl
  | extended key children =>
    obtain ⟨last, hlast, _⟩ := Key.resolve?_extended_eq_some.mp hfound
    obtain ⟨last', hlast'⟩ :=
      ExtendedKey.exists_descendant?_of_choice total names (reachable key children rfl)
        children.wildcard_last hlast
    exact Option.isSome_of_eq_some (Key.resolve?_extended_eq_some.mpr ⟨last', hlast', rfl⟩)

namespace Descriptor

variable {node : Descriptor}

theorem isSome_script?_of_choice (total : arithmetic.NeverFails)
    (reachable : ∀ expr ∈ node.keys, expr.key.Reachable) (names : NamesChild choice')
    {selector : Option ComboSelector} (h : (node.script? choice source selector).isSome = true) :
    (node.script? choice' source selector).isSome = true := by
  obtain ⟨resolves, short, selected⟩ := isSome_script?_iff.mp h
  refine isSome_script?_iff.mpr ⟨fun expr hexpr => ?_, short, selected⟩
  exact KeyExpression.isSome_resolve?_of_choice total names (reachable expr hexpr)
    (resolves expr hexpr)

theorem scripts_eq_nil_iff :
    node.scripts choice source = [] ↔
      ∀ selector, (selector = none ↔ node.isCombo = false) →
        node.script? choice source selector = none := by
  unfold scripts
  by_cases combo : node.isCombo = true
  · rw [if_pos combo, List.filterMap_eq_nil_iff]
    constructor
    · intro none_of selector hselector
      cases selector with
      | none => simp [combo] at hselector
      | some selected => exact none_of selected (by cases selected <;> simp [ComboSelector.all])
    · intro none_of selected _
      exact none_of (some selected) (by simp [combo])
  · rw [if_neg combo, Option.toList_eq_nil_iff]
    constructor
    · intro hnone selector hselector
      obtain rfl := hselector.mpr (Bool.eq_false_iff.mpr combo)
      exact hnone
    · intro none_of
      exact none_of none (by simp [combo])

/-- Every choice of a child leads to scripts, or none does. -/
theorem scripts_eq_nil_of_choice (total : arithmetic.NeverFails)
    (reachable : ∀ expr ∈ node.keys, expr.key.Reachable) (names : NamesChild choice)
    (h : node.scripts choice source = []) : node.scripts choice' source = [] := by
  rw [scripts_eq_nil_iff] at h ⊢
  intro selector hselector
  cases hscript : node.script? choice' source selector with
  | none => rfl
  | some script =>
    have found := isSome_script?_of_choice total reachable names (Option.isSome_of_eq_some hscript)
    rw [h selector hselector] at found
    cases found

end Descriptor

end

end OutputDescriptor
