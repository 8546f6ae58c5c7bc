import OutputDescriptor.Proofs.Availability

/-!
A `combo` is its four outputs.

With a selector it has the script of the tree that stands for this output alone, or none where that
tree has none. The list of its scripts is the list of those that the four trees have. A key that
resolves has all four, or the first two if it is uncompressed, since both witness outputs ask for a
compressed one. Every other tree has the one script that it has without a selector.
-/

namespace OutputDescriptor

/-- The tree that has nothing but the selected output. -/
def ComboSelector.tree (expr : KeyExpression) : ComboSelector → Descriptor
  | pk => .pk expr
  | pkh => .pkh expr
  | wpkh => .wpkh expr
  | shWpkh => .sh (.wpkh expr)

namespace Descriptor

/-- The trees of all outputs that a `combo` stands for. -/
def comboTrees (expr : KeyExpression) : List Descriptor :=
  ComboSelector.all.map (ComboSelector.tree expr)

section

variable [KeyArithmetic] {choice : Option Nat} {source : Option KeySource} {expr : KeyExpression}
  {node : Descriptor}

/-- The tree of an output asks its key for that output, and does not look at a selector. -/
theorem script?_tree (selected : ComboSelector) (selector : Option ComboSelector) :
    (selected.tree expr).script? choice source selector =
      (expr.resolve? choice source).bind selected.script? := by
  cases selected with
  | pk => exact Option.map_eq_bind
  | pkh => exact Option.map_eq_bind
  | wpkh => rfl
  | shWpkh => exact Option.map_bind

theorem script?_combo (selected : ComboSelector) (selector : Option ComboSelector) :
    (combo expr).script? choice source (some selected) =
      (selected.tree expr).script? choice source selector := by
  rw [script?_tree]
  rfl

theorem scripts_combo :
    (combo expr).scripts choice source =
      (comboTrees expr).filterMap (·.script? choice source none) := by
  rw [comboTrees, List.filterMap_map]
  exact List.filterMap_congr fun selected _ => script?_combo selected none

theorem isSome_script?_tree {key : PublicKey} (h : expr.resolve? choice source = some key)
    (selected : ComboSelector) :
    ((selected.tree expr).script? choice source none).isSome = true ↔
      (selected = .wpkh ∨ selected = .shWpkh → key.isCompressed = true) := by
  rw [script?_tree, h, Option.bind_some, PublicKey.isSome_comboScript?]

theorem map_some_scripts_combo :
    ((combo expr).scripts choice source).map some =
      ((comboTrees expr).map (·.script? choice source none)).filter Option.isSome := by
  rw [scripts_combo, List.map_filterMap_some_eq_filter_map_isSome]

theorem scripts_combo_of_compressed {key : PublicKey}
    (h : expr.resolve? choice source = some key) (compressed : key.isCompressed = true) :
    ((combo expr).scripts choice source).map some =
      (comboTrees expr).map (·.script? choice source none) := by
  rw [map_some_scripts_combo, comboTrees, List.map_map, List.filter_eq_self,
    List.forall_mem_map]
  exact fun selected _ => (isSome_script?_tree h selected).mpr fun _ => compressed

theorem scripts_combo_of_uncompressed {key : PublicKey}
    (h : expr.resolve? choice source = some key) (uncompressed : key.isCompressed = false) :
    ((combo expr).scripts choice source).map some =
      [pk expr, pkh expr].map (·.script? choice source none) := by
  -- both of the other outputs are made from the witness output of the key
  have absent : ∀ selected, selected = .wpkh ∨ selected = .shWpkh →
      (ComboSelector.tree expr selected).script? choice source none = none := by
    intro selected witness
    rw [← Option.not_isSome_iff_eq_none, isSome_script?_tree h, uncompressed]
    exact fun compressed => Bool.false_ne_true (compressed witness)
  have first : ((pk expr).script? choice source none).isSome = true :=
    (isSome_script?_tree h .pk).mpr (by simp)
  have second : ((pkh expr).script? choice source none).isSome = true :=
    (isSome_script?_tree h .pkh).mpr (by simp)
  have third : (wpkh expr).script? choice source none = none := absent .wpkh (.inl rfl)
  have fourth : (sh (wpkh expr)).script? choice source none = none := absent .shWpkh (.inr rfl)
  rw [map_some_scripts_combo]
  simp [comboTrees, ComboSelector.all, ComboSelector.tree, first, second, third, fourth]

theorem scripts_combo_of_none (h : expr.resolve? choice source = none) :
    (combo expr).scripts choice source = [] := by
  rw [scripts_combo, comboTrees, List.filterMap_eq_nil_iff, List.forall_mem_map]
  intro selected _
  rw [script?_tree, h, Option.bind_none]

theorem scripts_of_not_isCombo (h : node.isCombo = false) :
    node.scripts choice source = (node.script? choice source none).toList :=
  if_neg (Bool.eq_false_iff.mp h)

/-- With a selector, a `combo` has the script of the tree of that output, or none where that has
none. Its scripts are those that the four trees have: all four for a key that resolves to a
compressed one, the first two for any other key that resolves, and none for one that does not. A tree
that is no `combo` has one script exactly if it has a script without a selector, and has that. -/
theorem combo_eq_single_outputs (choice : Option Nat) (source : Option KeySource) :
    (∀ expr : KeyExpression,
      (∀ selected selector, (combo expr).script? choice source (some selected) =
        (selected.tree expr).script? choice source selector) ∧
      (combo expr).scripts choice source =
        [pk expr, pkh expr, wpkh expr, sh (wpkh expr)].filterMap (·.script? choice source none) ∧
      (∀ key, expr.resolve? choice source = some key →
        ((combo expr).scripts choice source).map some =
          (if key.isCompressed then [pk expr, pkh expr, wpkh expr, sh (wpkh expr)]
            else [pk expr, pkh expr]).map (·.script? choice source none)) ∧
      (expr.resolve? choice source = none → (combo expr).scripts choice source = [])) ∧
    ∀ node : Descriptor, node.isCombo = false →
      (∀ script, node.scripts choice source = [script] ↔
        node.script? choice source none = some script) ∧
      (node.scripts choice source = [] ↔ node.script? choice source none = none) := by
  refine ⟨fun expr => ⟨script?_combo, scripts_combo, ?_, scripts_combo_of_none⟩,
    fun node plain => ⟨?_, ?_⟩⟩
  · intro key h
    cases compressed : key.isCompressed with
    | true => exact scripts_combo_of_compressed h compressed
    | false => exact scripts_combo_of_uncompressed h compressed
  · intro script
    rw [scripts_of_not_isCombo plain, Option.toList_eq_singleton_iff]
  · rw [scripts_of_not_isCombo plain, Option.toList_eq_nil_iff]

end

/-- A private root with a path to its grandchild, the generator in the long form, and a public root
with a path through a hardened child; and a `combo` inside of `wsh`, which is no `combo` itself. -/
theorem combo_eq_single_outputs_samples :
    letI := oneChain
    let derived : KeyExpression :=
      ⟨none, .extended (.xprv (OneChain.atRoot OneChain.root)) OneChain.path⟩
    let long : KeyExpression := ⟨none, .literal (.uncompressed OneKey.generator.x
      0x483ada7726a3c4655da4fbfc0e1108a8fd17b448a68554199c47d08ffb10d4b8 OneKey.generator.x_lt
      (by decide))⟩
    let hidden : KeyExpression :=
      ⟨none, .extended (.xpub (OneChain.atRoot OneChain.rootPoint)) OneChain.path⟩
    (derived.resolve? none none = some (.compressed OneChain.grandchildPoint) ∧
      ((combo derived).scripts none none).length = 4) ∧
    ((long.resolve? none none).isSome = true ∧ ((combo long).scripts none none).length = 2) ∧
    (hidden.resolve? none none = none ∧ (combo hidden).scripts none none = []) ∧
    ((wsh (combo derived)).isCombo = false ∧ (wsh (combo derived)).scripts none none = []) := by
  let := oneChain
  intro derived long hidden
  obtain ⟨combos, others⟩ := combo_eq_single_outputs none none
  have found : derived.resolve? none none = some (.compressed OneChain.grandchildPoint) := by decide
  have lost : hidden.resolve? none none = none := by decide
  have four := congrArg List.length ((combos derived).2.2.1 _ found)
  have two := congrArg List.length ((combos long).2.2.1 _ rfl)
  rw [List.length_map] at four two
  exact ⟨⟨found, four⟩, ⟨rfl, two⟩, ⟨lost, (combos hidden).2.2.2 lost⟩, rfl,
    (others _ rfl).2.mpr rfl⟩

end Descriptor

end OutputDescriptor
