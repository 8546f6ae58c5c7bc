import OutputDescriptor.Key.Secp256k1
import OutputDescriptor.Proofs.Availability

/-!
Which keys of witness outputs have to be compressed.

A key whose own hash goes into a witness output has to be: in the long form it leaves the tree
without a script. The hash of a script is different, for nobody looks at the keys inside. They stay
as they resolve, which is the short form unless a literal key was written in the long one.
-/

namespace OutputDescriptor

namespace Descriptor

variable {selector : Option ComboSelector} {node : Descriptor}

/-- The keys of the scripts whose hashes go into witness outputs. -/
def witnessScriptKeys : Descriptor → List KeyExpression
  | wsh inner => inner.keys
  | sh inner => inner.witnessScriptKeys
  | _ => []

theorem mem_keys_of_mem_witnessScriptKeys {expr : KeyExpression} :
    expr ∈ node.witnessScriptKeys → expr ∈ node.keys := by
  induction node with
  | wsh inner _ => exact id
  | sh inner ih => exact ih
  | _ => simp [witnessScriptKeys]

theorem resolve?_eq_compressed_iff [KeyArithmetic] {choice : Option Nat}
    {source : Option KeySource} {expr : KeyExpression}
    (resolves : (expr.resolve? choice source).isSome = true) :
    (∃ point, expr.resolve? choice source = some (.compressed point)) ↔
      expr.key.isUncompressed = false := by
  obtain ⟨found, hfound⟩ := Option.isSome_iff_exists.mp resolves
  have form : found.isCompressed = !expr.key.isUncompressed := Key.isCompressed_of_resolve? hfound
  rw [hfound, ← Bool.not_eq_true', ← form]
  cases found with
  | compressed point => simp [PublicKey.isCompressed]
  | uncompressed _ _ _ _ => simp [PublicKey.isCompressed]

/-- A tree whose keys resolve, and whose `combo` has a selector, has a script unless a key that goes
into a witness output by its own hash was written in the long form. So where there is a script, all
those keys have resolved to compressed ones; the keys of a witness script have too, except for the
ones that were written in the long form. -/
theorem script?_isSome_iff_compressed [KeyArithmetic] (node : Descriptor) (choice : Option Nat)
    (source : Option KeySource) (selector : Option ComboSelector) :
    ((node.script? choice source selector).isSome = true ↔
      (∀ expr ∈ node.keys, (expr.resolve? choice source).isSome = true) ∧
      (∀ expr ∈ node.witnessKeys selector, expr.key.isUncompressed = false) ∧
      (node.hasCombo = true → selector.isSome = true)) ∧
    ∀ script, node.script? choice source selector = some script →
      (∀ expr ∈ node.witnessKeys selector,
        ∃ point, expr.resolve? choice source = some (.compressed point)) ∧
      (∀ expr ∈ node.witnessScriptKeys,
        (∃ point, expr.resolve? choice source = some (.compressed point)) ↔
          expr.key.isUncompressed = false) := by
  refine ⟨isSome_script?_iff, fun script hscript => ?_⟩
  obtain ⟨resolves, short, _⟩ := isSome_script?_iff.mp (Option.isSome_of_eq_some hscript)
  constructor
  · intro expr hexpr
    have hkey := resolves expr (mem_keys_of_mem_witnessKeys hexpr)
    exact (resolve?_eq_compressed_iff hkey).mpr (short expr hexpr)
  · intro expr hexpr
    exact resolve?_eq_compressed_iff (resolves expr (mem_keys_of_mem_witnessScriptKeys hexpr))

/-- The generator in the long form, in the script of a witness output: it is read, has a script, and
does not resolve to a compressed key. -/
theorem script?_longSample :
    ∃ expr node script,
      parse ("wsh(pk(0479be667ef9dcbbac55a06295ce870b07029bfcdb2dce28d959f2815b16f81798" ++
        "483ada7726a3c4655da4fbfc0e1108a8fd17b448a68554199c47d08ffb10d4b8))").toList = .ok node ∧
      node.witnessScriptKeys = [expr] ∧ node.script? none none none = some script ∧
      ∀ point, expr.resolve? none none ≠ some (.compressed point) := by
  let key : PublicKey := .uncompressed Curve.generator.affineX Curve.generator.affineY
    Curve.generator.affineX_lt (Nat.mod_lt _ Curve.fieldPrime_pos)
  let expr : KeyExpression := ⟨none, .literal key⟩
  refine ⟨expr, .wsh (.pk expr), Script.witnessedBy key.keyScript, ?_, rfl, rfl, ?_⟩
  · decide +kernel
  · intro point
    show some key ≠ some (.compressed point)
    simp [key]

end Descriptor

end OutputDescriptor
