import OutputDescriptor.Proofs.Multisig

/-!
A sorted multisig tree does not depend on the order of its keys.

Its keys resolve in every order or in none, and what they resolve to is pushed in the one ascending
order there is. Keys that are written in that order need no sorting. Whatever stands around the tree
sees its script only.
-/

namespace OutputDescriptor.Descriptor

/-! ### Trees inside of others -/

/-- What may stand around a tree and pays to the hash of the script inside. -/
inductive Wrapper
  | sh
  | wsh
deriving DecidableEq

namespace Wrapper

def around : Wrapper → Descriptor → Descriptor
  | sh => Descriptor.sh
  | wsh => Descriptor.wsh

def script : Wrapper → Script → Script
  | sh => Script.redeemedBy
  | wsh => Script.witnessedBy

end Wrapper

/-- A tree inside of wrappers, of which the first one is the outermost. -/
def inside (wrappers : List Wrapper) (node : Descriptor) : Descriptor :=
  wrappers.foldr Wrapper.around node

section

variable [KeyArithmetic] {choice : Option Nat} {source : Option KeySource}
  {selector : Option ComboSelector} {threshold : Nat} {keys keys' : List KeyExpression}
  {sorted : Bool} {pushed : List Bytes}

theorem script?_inside (wrappers : List Wrapper) (node : Descriptor) :
    (node.inside wrappers).script? choice source selector =
      (node.script? choice source selector).map fun script =>
        wrappers.foldr Wrapper.script script := by
  induction wrappers with
  | nil => exact Option.map_id'.symm
  | cons wrapper wrappers ih =>
    have step : (inside (wrapper :: wrappers) node).script? choice source selector =
        ((node.inside wrappers).script? choice source selector).map wrapper.script := by
      cases wrapper <;> rfl
    rw [step, ih, Option.map_map]
    rfl

/-! ### The order of keys -/

theorem Pushes.of_perm (same : keys'.Perm keys) (h : Pushes choice source keys true pushed) :
    Pushes choice source keys' true pushed := by
  obtain ⟨written, hwritten, perm, ascending⟩ := h
  obtain ⟨written', hwritten', perm'⟩ := mapM_of_perm same hwritten
  exact ⟨written', hwritten', perm.trans perm'.symm, ascending⟩

/-- Trees that push the same keys have the same script, and none have one if none push keys. -/
theorem multi_script?_congr {sorted' : Bool}
    (same : ∀ pushed, Pushes choice source keys sorted pushed ↔
      Pushes choice source keys' sorted' pushed) :
    (multi threshold keys sorted).script? choice source selector =
      (multi threshold keys' sorted').script? choice source selector := by
  apply Option.ext
  intro script
  rw [multi_script?_eq_some, multi_script?_eq_some]
  simp only [same]

/-- The keys resolve to bytes that are in ascending order as the keys are written. -/
def KeysAscend (choice : Option Nat) (source : Option KeySource) (keys : List KeyExpression) : Prop :=
  ∃ written, keys.mapM (·.bytes? choice source) = some written ∧ written.Pairwise (· ≤ ·)

/-- Sorting leaves such keys as they are. -/
theorem KeysAscend.pushes (ascend : KeysAscend choice source keys) :
    ∃ pushed, Pushes choice source keys true pushed ∧ Pushes choice source keys false pushed := by
  obtain ⟨written, hwritten, ascending⟩ := ascend
  exact ⟨written, ⟨written, hwritten, .refl _, ascending⟩, ⟨written, hwritten, rfl⟩⟩

theorem KeysAscend.pushes_iff (ascend : KeysAscend choice source keys) (pushed : List Bytes) :
    Pushes choice source keys true pushed ↔ Pushes choice source keys false pushed := by
  obtain ⟨found, sorted, plain⟩ := ascend.pushes
  constructor
  · intro h
    rwa [h.unique sorted]
  · intro h
    rwa [h.unique plain]

theorem exists_keysAscend
    (resolves : ∀ expr ∈ keys, (expr.resolve? choice source).isSome = true) :
    ∃ arranged, arranged.Perm keys ∧ KeysAscend choice source arranged := by
  obtain ⟨written, hwritten⟩ : ∃ written, keys.mapM (·.bytes? choice source) = some written := by
    refine Option.isSome_iff_exists.mp (isSome_mapM_iff.mpr fun expr hexpr => ?_)
    rw [KeyExpression.bytes?, Option.isSome_map]
    exact resolves expr hexpr
  obtain ⟨perm, ascending⟩ := Arranged.mergeSort true written
  obtain ⟨arranged, harranged, same⟩ := exists_perm_of_mapM perm hwritten
  exact ⟨arranged, same, _, harranged, ascending⟩

/-- Inside of any wrappers a sorted multisig tree has the same script, or none, in whichever order
its keys are written. If the keys resolve there is a script, and it is the one of the unsorted tree
with the keys in an order in which their bytes ascend. -/
theorem sortedmulti_script?_perm (wrappers : List Wrapper) (threshold : Nat)
    (keys keys' : List KeyExpression) (same : keys'.Perm keys) (choice : Option Nat)
    (source : Option KeySource) (selector : Option ComboSelector) :
    ((multi threshold keys' true).inside wrappers).script? choice source selector =
      ((multi threshold keys true).inside wrappers).script? choice source selector ∧
    ((∀ expr ∈ keys, (expr.resolve? choice source).isSome = true) →
      (((multi threshold keys true).inside wrappers).script? choice source selector).isSome = true ∧
      (∃ arranged, arranged.Perm keys ∧ KeysAscend choice source arranged) ∧
      ∀ arranged, arranged.Perm keys → KeysAscend choice source arranged →
        ((multi threshold keys true).inside wrappers).script? choice source selector =
          ((multi threshold arranged false).inside wrappers).script? choice source selector) := by
  have reordered {other : List KeyExpression} (same : other.Perm keys) (pushed : List Bytes) :
      Pushes choice source keys true pushed ↔ Pushes choice source other true pushed :=
    ⟨.of_perm same, .of_perm same.symm⟩
  simp only [script?_inside, Option.isSome_map]
  refine ⟨?_, fun resolves => ⟨?_, exists_keysAscend resolves, fun arranged perm ascend => ?_⟩⟩
  · rw [multi_script?_congr (reordered same)]
  · obtain ⟨arranged, perm, ascend⟩ := exists_keysAscend resolves
    obtain ⟨pushed, pushes, _⟩ := ascend.pushes
    exact Option.isSome_of_eq_some
      (multi_script?_eq_some.mpr ⟨pushed, (reordered perm pushed).mpr pushes, rfl⟩)
  · rw [multi_script?_congr fun pushed => (reordered perm pushed).trans (ascend.pushes_iff pushed)]

end

/-- The generator in both forms, one of them twice: the shorter one comes first. The unsorted tree
leaves it in the middle, which is another script. -/
theorem sortedmulti_script?_repeatedKey :
    let short : KeyExpression := ⟨none, .literal (.compressed OneKey.generator)⟩
    let long : KeyExpression := ⟨none, .literal (.uncompressed Curve.generator.affineX
      Curve.generator.affineY Curve.generator.affineX_lt (Nat.mod_lt _ Curve.fieldPrime_pos))⟩
    let tree := (multi 2 [long, short, long] true).inside [.sh, .wsh]
    let reordered := (multi 2 [long, long, short] true).inside [.sh, .wsh]
    let ascending := (multi 2 [short, long, long] false).inside [.sh, .wsh]
    let unsorted := (multi 2 [long, short, long] false).inside [.sh, .wsh]
    (tree.script? none none none).isSome = true ∧
      reordered.script? none none none = tree.script? none none none ∧
      tree.script? none none none = ascending.script? none none none ∧
      (unsorted.script? none none none).isSome = true ∧
      unsorted.script? none none none ≠ tree.script? none none none := by
  intro short long tree reordered ascending unsorted
  obtain ⟨same, whenResolved⟩ := sortedmulti_script?_perm [.sh, .wsh] 2 [long, short, long]
    [long, long, short] (.cons _ (.swap _ _ _)) none none none
  have resolves : ∀ expr ∈ [long, short, long], (expr.resolve? none none).isSome = true := by
    simp only [List.mem_cons, List.not_mem_nil, or_false]
    rintro _ (rfl | rfl | rfl) <;> rfl
  obtain ⟨isSome, _, arranged⟩ := whenResolved resolves
  have ascend : KeysAscend none none [short, long, long] := ⟨_, rfl, by decide +kernel⟩
  have sorts := arranged _ (.swap _ _ _) ascend
  have moved : unsorted.script? none none none ≠ ascending.script? none none none := by
    decide +kernel
  exact ⟨isSome, same, sorts, by decide +kernel, fun h => moved (h.trans sorts)⟩

end OutputDescriptor.Descriptor
