import OutputDescriptor.Proofs.Wildcard

/-!
What a script depends on besides its tree.

A wildcard can only be the last step of a path, so looking there is enough to tell whether a tree is
ranged. A ranged tree has no script unless the caller names a child, however its keys are put
together, and any other tree is compiled without looking at the caller's choice. In the same way no
tree but a `combo` looks at a selector.
-/

namespace OutputDescriptor

theorem Path.isRanged_iff {path : Path} :
    path.isRanged = true ↔ ∃ step ∈ path.steps, step.isWildcard = true := by
  rw [isRanged, Option.any_eq_true]
  constructor
  · rintro ⟨step, hlast, wild⟩
    exact ⟨step, List.mem_of_getLast? hlast, wild⟩
  · rintro ⟨step, hstep, wild⟩
    have hne : path.steps ≠ [] := List.ne_nil_of_mem hstep
    rw [← List.dropLast_concat_getLast hne, List.mem_append, List.mem_singleton] at hstep
    rcases hstep with before | rfl
    · -- wildcards are refused anywhere but at the end
      rw [path.wildcard_last step before] at wild
      cases wild
    · exact ⟨_, List.getLast?_eq_some_getLast hne, wild⟩

section

variable [KeyArithmetic] {choice choice' : Option Nat} {source : Option KeySource}

/-! ### Paths -/

/-- A path that was followed to its end had every wildcard on it named. -/
theorem ExtendedKey.namesChild_of_descendant? {steps : List Step} :
    ∀ {key last : ExtendedKey}, key.descendant? choice source steps = some last →
      (∃ step ∈ steps, step.isWildcard = true) → NamesChild choice := by
  induction steps with
  | nil => simp
  | cons step steps ih =>
    rintro key last h ⟨wildcard, hmem, wild⟩
    obtain ⟨number, child, hnumber, _, hrest⟩ := descendant?_cons_eq_some.mp h
    rcases List.mem_cons.mp hmem with rfl | hmem
    · exact Step.exists_childNumber?.mp ⟨number, hnumber⟩ wild
    · exact ih hrest ⟨wildcard, hmem, wild⟩

/-- Concrete steps lead to the same key for every choice. -/
theorem ExtendedKey.descendant?_of_concrete {steps : List Step}
    (concrete : ∀ step ∈ steps, step.isWildcard = false) (key : ExtendedKey) :
    key.descendant? choice source steps = key.descendant? choice' source steps := by
  induction steps generalizing key with
  | nil => rfl
  | cons step steps ih =>
    rw [List.forall_mem_cons] at concrete
    apply Option.ext
    intro last
    rw [descendant?_cons_eq_some, descendant?_cons_eq_some,
      Step.childNumber?_of_concrete concrete.1 choice choice']
    simp only [ih concrete.2]

/-! ### Keys -/

theorem KeyExpression.namesChild_of_resolve? {expr : KeyExpression} (ranged : expr.isRanged = true)
    {found : PublicKey} (h : expr.resolve? choice source = some found) : NamesChild choice := by
  obtain ⟨origin, key⟩ := expr
  cases key with
  | literal key => cases ranged
  | wif key => cases ranged
  | extended key children =>
    obtain ⟨last, hlast, _⟩ := Key.resolve?_extended_eq_some.mp h
    exact ExtendedKey.namesChild_of_descendant? hlast (Path.isRanged_iff.mp ranged)

theorem KeyExpression.resolve?_of_not_isRanged {expr : KeyExpression}
    (unranged : expr.isRanged = false) :
    expr.resolve? choice source = expr.resolve? choice' source := by
  obtain ⟨origin, key⟩ := expr
  cases key with
  | literal key => rfl
  | wif key => rfl
  | extended key children =>
    have concrete : ∀ step ∈ children.steps, step.isWildcard = false := by
      intro step hstep
      rw [Bool.eq_false_iff]
      intro wild
      have ranged : children.isRanged = true := Path.isRanged_iff.mpr ⟨step, hstep, wild⟩
      exact Bool.eq_false_iff.mp unranged ranged
    exact congrArg (Option.map _) (ExtendedKey.descendant?_of_concrete concrete key)

end

/-! ### Trees -/

namespace Descriptor

theorem scriptWith_of_not_hasCombo {node : Descriptor} (plain : node.hasCombo = false)
    (resolve : Resolver) (selector selector' : Option ComboSelector) :
    node.scriptWith resolve selector = node.scriptWith resolve selector' := by
  induction node with
  | combo key => cases plain
  | wsh inner ih => exact congrArg (Option.map _) (ih plain)
  | sh inner ih => exact congrArg (Option.map _) (ih plain)
  | _ => rfl

section

variable [KeyArithmetic]

theorem script?_of_isRanged {node : Descriptor} (ranged : node.isRanged = true)
    {choice : Option Nat} (unnamed : ¬NamesChild choice) (source : Option KeySource)
    (selector : Option ComboSelector) : node.script? choice source selector = none := by
  rw [← Option.not_isSome_iff_eq_none, isSome_script?_iff]
  rintro ⟨resolves, _⟩
  obtain ⟨expr, hexpr, hranged⟩ := List.any_eq_true.mp ranged
  obtain ⟨found, hfound⟩ := Option.isSome_iff_exists.mp (resolves expr hexpr)
  exact unnamed (KeyExpression.namesChild_of_resolve? hranged hfound)

theorem script?_of_not_isRanged {node : Descriptor} (unranged : node.isRanged = false)
    (choice choice' : Option Nat) (source : Option KeySource) (selector : Option ComboSelector) :
    node.script? choice source selector = node.script? choice' source selector := by
  rw [script?_eq_scriptWith, script?_eq_scriptWith]
  refine scriptWith_congr fun expr hexpr => KeyExpression.resolve?_of_not_isRanged ?_
  rw [Bool.eq_false_iff]
  exact List.any_eq_false.mp unranged expr hexpr

/-- Whether a tree is ranged settles how its script depends on the caller's choice, also for trees
that the language refuses: a ranged tree has no script unless a child is named that exists, and one
that is not ranged has the same script, or none, for every choice. A tree without a `combo` has the
same script, or none, for every selector. -/
theorem script?_dependence (node : Descriptor) (source : Option KeySource) :
    (node.isRanged = true → ∀ selector,
      node.script? none source selector = none ∧
        ∀ i, 0x80000000 ≤ i → node.script? (some i) source selector = none) ∧
    (node.isRanged = false → ∀ choice choice' selector,
      node.script? choice source selector = node.script? choice' source selector) ∧
    (node.hasCombo = false → ∀ choice selector selector',
      node.script? choice source selector = node.script? choice source selector') := by
  refine ⟨fun ranged selector => ⟨?_, fun i hi => ?_⟩, fun unranged choice choice' selector => ?_,
    fun plain choice selector selector' => ?_⟩
  · refine script?_of_isRanged ranged ?_ source selector
    rintro ⟨i, hnone, _⟩
    cases hnone
  · refine script?_of_isRanged ranged ?_ source selector
    rintro ⟨j, hsome, hj⟩
    cases hsome
    omega
  · exact script?_of_not_isRanged unranged choice choice' source selector
  · rw [script?_eq_scriptWith, script?_eq_scriptWith]
    exact scriptWith_of_not_hasCombo plain _ selector selector'

end

/-- A `combo` inside of `wsh`, which no descriptor is read as, with a path to a child of the caller's
choice, and another tree with a path to a hardened child. -/
theorem script?_dependence_samples :
    letI := endlessChain
    let toChoice : Path := ⟨.unnamed, [⟨.wildcard, false⟩], by decide, by decide⟩
    let toChild : Path := ⟨.unnamed, [⟨.concrete OneChain.firstHardened.index, true⟩], by decide,
      by decide⟩
    let key := ExtendedKey.xprv (OneChain.atRoot OneChain.root)
    let ranged := wsh (combo ⟨none, .extended key toChoice⟩)
    let unranged := sh (pk ⟨none, .extended key toChild⟩)
    ((ranged.script? (some 1) none (some .pkh)).isSome = true ∧
      ranged.script? none none (some .pkh) = none ∧
      ranged.script? (some 0x80000000) none (some .pkh) = none) ∧
    ((unranged.script? none none none).isSome = true ∧
      unranged.script? none none none = unranged.script? (some 0x80000000) none none ∧
      unranged.script? none none none = unranged.script? none none (some .wpkh)) := by
  let := endlessChain
  intro toChoice toChild key ranged unranged
  obtain ⟨whenRanged, _, _⟩ := script?_dependence ranged none
  obtain ⟨hnone, hbeyond⟩ := whenRanged rfl (some .pkh)
  obtain ⟨_, whenUnranged, withoutCombo⟩ := script?_dependence unranged none
  exact ⟨⟨rfl, hnone, hbeyond _ (Nat.le_refl _)⟩, rfl, whenUnranged rfl _ _ none,
    withoutCombo rfl none _ _⟩

end Descriptor

end OutputDescriptor
