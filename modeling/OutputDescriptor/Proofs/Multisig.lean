import OutputDescriptor.Descriptor.Output
import OutputDescriptor.Key.Secp256k1
import OutputDescriptor.Proofs.Key.Laws
import OutputDescriptor.Proofs.RoundTrip
import OutputDescriptor.Proofs.Script

/-!
The script of several keys says which keys they are, and how many of them are needed.

The keys are pushed in the order in which they are written, or in ascending order of their bytes.
The language admits at most twenty keys of 33 or 65 bytes each, so every key and both numbers take a
single opcode to push, and what was pushed can be told from the script.
-/

namespace OutputDescriptor

theorem PublicKey.toBytes_short (key : PublicKey) :
    key.toBytes ≠ [] ∧ key.toBytes.length < 0x4c := by
  have hlength := key.length_toBytes
  refine ⟨fun empty => ?_, ?_⟩
  · rw [empty] at hlength
    cases hform : key.isCompressed <;> simp [hform] at hlength
  · cases hform : key.isCompressed <;> simp [hlength, hform]

/-- The bytes of the public key that stands for a key in a script. -/
def KeyExpression.bytes? [KeyArithmetic] (choice : Option Nat) (source : Option KeySource)
    (expr : KeyExpression) : Option Bytes :=
  (expr.resolve? choice source).map PublicKey.toBytes

namespace Descriptor

/-! ### The order of keys -/

/-- How the keys of a script are ordered: as they are written, or by their bytes. -/
def Arranged (sorted : Bool) (written pushed : List Bytes) : Prop :=
  if sorted then pushed.Perm written ∧ pushed.Pairwise (· ≤ ·) else pushed = written

namespace Arranged

variable {sorted : Bool} {written pushed pushed' : List Bytes}

theorem perm (h : Arranged sorted written pushed) : pushed.Perm written := by
  cases sorted with
  | false => exact .of_eq h
  | true => exact h.1

/-- There is only one order of either kind. -/
theorem unique (h : Arranged sorted written pushed) (h' : Arranged sorted written pushed') :
    pushed = pushed' := by
  cases sorted with
  | false => exact Eq.trans h (Eq.symm h')
  | true =>
    refine List.Perm.eq_of_pairwise ?_ h.2 h'.2 (h.1.trans h'.1.symm)
    intro a b _ _ below above
    exact List.le_antisymm below above

theorem mergeSort (sorted : Bool) (written : List Bytes) :
    Arranged sorted written (if sorted then written.mergeSort (· ≤ ·) else written) := by
  cases sorted with
  | false => rfl
  | true =>
    refine ⟨List.mergeSort_perm written _, ?_⟩
    have trans (a b c : Bytes) (hab : decide (a ≤ b) = true) (hbc : decide (b ≤ c) = true) :
        decide (a ≤ c) = true :=
      decide_eq_true (List.le_trans (of_decide_eq_true hab) (of_decide_eq_true hbc))
    have total (a b : Bytes) : (decide (a ≤ b) || decide (b ≤ a)) = true := by
      simpa using List.le_total a b
    simpa using List.pairwise_mergeSort trans total written

end Arranged

/-! ### Trees of the language -/

/-- The tree under all `sh` and `wsh`. -/
def innermost : Descriptor → Descriptor
  | wsh inner => inner.innermost
  | sh inner => inner.innermost
  | node => node

theorem WellFormed.innermost {place : Grammar.Place} {node : Descriptor}
    (h : node.WellFormed place) : ∃ inside, node.innermost.WellFormed inside := by
  induction h with
  | wsh _ _ ih => exact ih
  | sh _ ih => exact ih
  | pk h => exact ⟨.top, .pk h⟩
  | pkh h => exact ⟨.top, .pkh h⟩
  | wpkh _ h => exact ⟨.top, .wpkh (by decide) h⟩
  | combo h => exact ⟨.top, .combo h⟩
  | multi sorted h pos le few => exact ⟨.top, .multi sorted h pos le few⟩
  | addr occurs => exact ⟨.top, .addr occurs⟩

/-- Between one and twenty keys, of which at least one is needed and at most all are. -/
theorem multi_bounds_of_parse {text : List Char} {tree : Descriptor}
    {threshold : Nat} {keys : List KeyExpression} {sorted : Bool} (reads : parse text = .ok tree)
    (inside : tree.innermost = multi threshold keys sorted) :
    1 ≤ threshold ∧ threshold ≤ keys.length ∧ keys.length ≤ 20 := by
  have hraw : ∀ bytes, tree ≠ .raw bytes := by
    rintro bytes rfl
    cases inside
  obtain ⟨place, valid⟩ := (wellFormed_of_parse reads hraw).innermost
  rw [inside] at valid
  cases valid with
  | multi _ _ pos le few => exact ⟨pos, le, few⟩

/-! ### Scripts -/

section

variable [KeyArithmetic] {choice choice' : Option Nat} {source source' : Option KeySource}
  {selector selector' : Option ComboSelector} {threshold threshold' : Nat}
  {keys keys' : List KeyExpression} {sorted sorted' : Bool} {pushed : List Bytes}
  {script script' : Script}

/-- The keys of a multisig tree resolve, and in the order of its script they are the given ones. -/
def Pushes (choice : Option Nat) (source : Option KeySource) (keys : List KeyExpression)
    (sorted : Bool) (pushed : List Bytes) : Prop :=
  ∃ written, keys.mapM (·.bytes? choice source) = some written ∧ Arranged sorted written pushed

theorem Pushes.unique {pushed' : List Bytes} (h : Pushes choice source keys sorted pushed)
    (h' : Pushes choice source keys sorted pushed') : pushed = pushed' := by
  obtain ⟨written, hwritten, arranged⟩ := h
  obtain ⟨written', hwritten', arranged'⟩ := h'
  obtain rfl := Option.some.inj (hwritten.symm.trans hwritten')
  exact arranged.unique arranged'

theorem Pushes.length (h : Pushes choice source keys sorted pushed) :
    pushed.length = keys.length := by
  obtain ⟨written, hwritten, arranged⟩ := h
  rw [arranged.perm.length_eq, length_of_mapM hwritten]

theorem Pushes.short (h : Pushes choice source keys sorted pushed) : Script.Short pushed := by
  obtain ⟨written, hwritten, arranged⟩ := h
  intro bytes hbytes
  obtain ⟨expr, _, hexpr⟩ := exists_of_mem_mapM hwritten bytes (arranged.perm.mem_iff.mp hbytes)
  obtain ⟨key, _, rfl⟩ := Option.map_eq_some_iff.mp hexpr
  exact key.toBytes_short

/-- A script of several keys pushes the threshold, as the number that it is pushed as, and the keys
in order. -/
theorem multi_script?_eq_some :
    (multi threshold keys sorted).script? choice source selector = some script ↔
      ∃ pushed, Pushes choice source keys sorted pushed ∧
        script = Script.multisig ((threshold : Int).bmod 0x10000000000000000) pushed := by
  simp only [script?, Option.bind_eq_bind, Option.bind_eq_some_iff, Option.some.injEq]
  constructor
  · rintro ⟨written, hwritten, hscript⟩
    exact ⟨_, ⟨written, hwritten, .mergeSort sorted written⟩, hscript.symm⟩
  · rintro ⟨pushed, ⟨written, hwritten, arranged⟩, hscript⟩
    obtain rfl := arranged.unique (.mergeSort sorted written)
    exact ⟨written, hwritten, hscript.symm⟩

theorem pushes_of_script? (fits : threshold ≤ 20)
    (h : (multi threshold keys sorted).script? choice source selector = some script) :
    ∃ pushed, Pushes choice source keys sorted pushed ∧
      script = Script.multisig threshold pushed := by
  have number : (threshold : Int).bmod 0x10000000000000000 = threshold :=
    Int.bmod_eq_of_le (by omega) (by omega)
  obtain ⟨pushed, hpushed, hscript⟩ := multi_script?_eq_some.mp h
  rw [number] at hscript
  exact ⟨pushed, hpushed, hscript⟩

/-- The scripts of any two multisig trees of the language, standing alone or inside others, are
equal exactly if the trees have the same threshold and push the same keys in the same order. -/
theorem multi_script?_eq_iff {text text' : List Char} {tree tree' : Descriptor}
    (reads : parse text = .ok tree) (reads' : parse text' = .ok tree')
    (inside : tree.innermost = multi threshold keys sorted)
    (inside' : tree'.innermost = multi threshold' keys' sorted')
    (compiles : (multi threshold keys sorted).script? choice source selector = some script)
    (compiles' : (multi threshold' keys' sorted').script? choice' source' selector' =
      some script') :
    (∃ pushed, Pushes choice source keys sorted pushed) ∧
    (∃ pushed, Pushes choice' source' keys' sorted' pushed) ∧
    ∀ pushed pushed', Pushes choice source keys sorted pushed →
      Pushes choice' source' keys' sorted' pushed' →
        (script = script' ↔ threshold = threshold' ∧ pushed = pushed') := by
  obtain ⟨pos, le, few⟩ := multi_bounds_of_parse reads inside
  obtain ⟨pos', le', few'⟩ := multi_bounds_of_parse reads' inside'
  obtain ⟨found, hfound, rfl⟩ := pushes_of_script? (by omega) compiles
  obtain ⟨found', hfound', rfl⟩ := pushes_of_script? (by omega) compiles'
  refine ⟨⟨found, hfound⟩, ⟨found', hfound'⟩, fun pushed pushed' h h' => ?_⟩
  obtain rfl := hfound.unique h
  obtain rfl := hfound'.unique h'
  constructor
  · have count := h.length
    have count' := h'.length
    exact Script.multisig_injective pos (by omega) (by omega) h.short pos' (by omega) (by omega)
      h'.short
  · rintro ⟨rfl, rfl⟩
    rfl

end

/-- The generator in both forms: written in ascending order, and sorted into it. -/
theorem multi_script?_bothForms :
    let short := "0279be667ef9dcbbac55a06295ce870b07029bfcdb2dce28d959f2815b16f81798"
    let long := "0479be667ef9dcbbac55a06295ce870b07029bfcdb2dce28d959f2815b16f81798" ++
      "483ada7726a3c4655da4fbfc0e1108a8fd17b448a68554199c47d08ffb10d4b8"
    ∃ tree tree' keys keys' pushed script script',
      parse ("multi(1," ++ short ++ "," ++ long ++ ")").toList = .ok tree ∧
      parse ("sh(sortedmulti(1," ++ long ++ "," ++ short ++ "))").toList = .ok tree' ∧
      tree.innermost = multi 1 keys false ∧ tree'.innermost = multi 1 keys' true ∧
      (multi 1 keys false).script? none none none = some script ∧
      (multi 1 keys' true).script? none none none = some script' ∧
      Pushes none none keys false pushed ∧ Pushes none none keys' true pushed ∧
      script = script' := by
  intro short long
  let shortKey : PublicKey := .compressed OneKey.generator
  let longKey : PublicKey := .uncompressed Curve.generator.affineX Curve.generator.affineY
    Curve.generator.affineX_lt (Nat.mod_lt _ Curve.fieldPrime_pos)
  let keys : List KeyExpression := [⟨none, .literal shortKey⟩, ⟨none, .literal longKey⟩]
  let keys' : List KeyExpression := [⟨none, .literal longKey⟩, ⟨none, .literal shortKey⟩]
  have reads : parse ("multi(1," ++ short ++ "," ++ long ++ ")").toList =
      .ok (multi 1 keys false) := by decide +kernel
  have reads' : parse ("sh(sortedmulti(1," ++ long ++ "," ++ short ++ "))").toList =
      .ok (sh (multi 1 keys' true)) := by decide +kernel
  let pushed : List Bytes := [shortKey.toBytes, longKey.toBytes]
  have written : Pushes none none keys false pushed := ⟨pushed, rfl, rfl⟩
  have ascending : Pushes none none keys' true pushed :=
    ⟨[longKey.toBytes, shortKey.toBytes], rfl, .swap _ _ _, by decide +kernel⟩
  obtain ⟨script, compiles⟩ : ∃ script,
    (multi 1 keys false).script? none none none = some script := ⟨_, rfl⟩
  obtain ⟨script', compiles'⟩ : ∃ script',
    (multi 1 keys' true).script? none none none = some script' := ⟨_, rfl⟩
  obtain ⟨_, _, same⟩ := multi_script?_eq_iff reads reads' rfl rfl compiles compiles'
  exact ⟨_, _, keys, keys', pushed, script, script', reads, reads', rfl, rfl, compiles, compiles',
    written, ascending, (same _ _ written ascending).mpr ⟨rfl, rfl⟩⟩

end Descriptor

end OutputDescriptor
