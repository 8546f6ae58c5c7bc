import OutputDescriptor.Proofs.Availability
import OutputDescriptor.Proofs.Multisig

/-!
How long the scripts under `sh` are.

Whoever spends an output that pays to the hash of a script pushes the script, and nodes of the network
refuse to push more than 520 bytes. The scripts of a single key and of a witness output are far from
that. A script of several keys takes 34 bytes for each of them, or 66 for one that was written in the
long form, so fifteen short keys still fit and sixteen do not. The language allows twenty everywhere,
and nothing else looks at the length: outputs of more keys are compiled like any other.
-/

namespace OutputDescriptor

/-! ### Lengths of scripts -/

namespace Script

theorem length_push {data : Bytes} (short : data.length < 0x4c) :
    (push data).length = data.length + 1 := by
  rw [push, if_pos short, List.length_cons]

/-- The bytes that it takes to push a number, as long as the number takes one. -/
def numberSize (n : Nat) : Nat :=
  if n ≤ 16 then 1 else 2

theorem length_pushInt {n : Nat} (pos : 1 ≤ n) (small : n < 0x80) :
    (pushInt n).length = numberSize n := by
  have nonzero : (n : Int) ≠ 0 := by omega
  unfold pushInt numberSize
  rw [if_neg nonzero]
  by_cases single : n ≤ 16
  · rw [if_pos (by omega), if_pos single, List.length_singleton]
  · rw [if_neg (by omega), if_neg single, numberBytes_of_lt small]
    exact length_push (by simp)

theorem length_multisig {threshold : Nat} {keys : List Bytes} (pos : 1 ≤ threshold)
    (le : threshold ≤ keys.length) (few : keys.length < 0x80) :
    (multisig threshold keys).length =
      numberSize threshold + (keys.flatMap push).length + numberSize keys.length + 1 := by
  unfold multisig
  simp only [List.length_append, List.length_singleton]
  rw [length_pushInt pos (by omega), length_pushInt (by omega) few]

theorem length_payToPublicKey {key : Bytes} (short : key.length < 0x4c) :
    (payToPublicKey key).length = key.length + 2 := by
  rw [payToPublicKey, List.length_append, length_push short, List.length_singleton]

theorem length_payToPublicKeyHash {hash : Bytes} (short : hash.length < 0x4c) :
    (payToPublicKeyHash hash).length = hash.length + 5 := by
  simp only [payToPublicKeyHash, List.length_append, length_push short, List.length_cons,
    List.length_nil]
  omega

theorem length_payToWitness_zero {program : Bytes} (short : program.length < 0x4c) :
    (payToWitness 0 program).length = program.length + 2 := by
  rw [payToWitness, List.length_append, length_push short]
  show 1 + (program.length + 1) = _
  omega

end Script

namespace Descriptor

/-! ### Lengths of the scripts of trees -/

/-- The trees right under `sh`, whose scripts are hashed. -/
def redeemed : Descriptor → List Descriptor
  | sh inner => inner :: inner.redeemed
  | wsh inner => inner.redeemed
  | _ => []

theorem WellFormed.redeemed {place : Grammar.Place} {node inner : Descriptor}
    (h : node.WellFormed place) (hinner : inner ∈ node.redeemed) : inner.WellFormed .insideSh := by
  induction h with
  | sh valid ih =>
    rcases List.mem_cons.mp hinner with rfl | hinner
    · exact valid
    · exact ih hinner
  | wsh _ _ ih => exact ih hinner
  | _ => cases hinner

section

variable [KeyArithmetic] {choice : Option Nat} {source : Option KeySource}
  {selector : Option ComboSelector} {script : Script}

theorem exists_script?_of_redeemed {node inner : Descriptor} (hinner : inner ∈ node.redeemed) :
    ∀ {output : Script}, node.script? choice source selector = some output →
      ∃ script, inner.script? choice source selector = some script := by
  induction node with
  | sh below ih =>
    intro output compiles
    obtain ⟨script, hscript, _⟩ := Option.map_eq_some_iff.mp compiles
    rcases List.mem_cons.mp hinner with rfl | hinner
    · exact ⟨script, hscript⟩
    · exact ih hinner hscript
  | wsh below ih =>
    intro output compiles
    obtain ⟨script, hscript, _⟩ := Option.map_eq_some_iff.mp compiles
    exact ih hinner hscript
  | _ => cases hinner

/-- How many bytes the pushes of keys take: 34 each, and 32 more for the long form. -/
def pushesSize (keys : List KeyExpression) : Nat :=
  34 * keys.length + 32 * keys.countP (·.key.isUncompressed)

theorem length_pushes {keys : List KeyExpression} {written : List Bytes}
    (h : keys.mapM (·.bytes? choice source) = some written) :
    (written.flatMap Script.push).length = pushesSize keys := by
  induction keys generalizing written with
  | nil =>
    cases h
    rfl
  | cons expr keys ih =>
    obtain ⟨bytes, rest, hbytes, hrest, rfl⟩ := mapM_cons_eq_some.mp h
    obtain ⟨found, hfound, rfl⟩ := Option.map_eq_some_iff.mp hbytes
    have form : found.isCompressed = !expr.key.isUncompressed := Key.isCompressed_of_resolve? hfound
    have tail := ih hrest
    have pushed := Script.length_push found.toBytes_short.2
    rw [found.length_toBytes, form] at pushed
    rw [List.flatMap_cons, List.length_append, tail, pushed]
    unfold pushesSize
    rw [List.length_cons, List.countP_cons]
    cases expr.key.isUncompressed <;> simp <;> omega

theorem length_multi_script? {threshold : Nat} {keys : List KeyExpression} {sorted : Bool}
    (pos : 1 ≤ threshold) (le : threshold ≤ keys.length) (few : keys.length ≤ 20)
    (compiles : (multi threshold keys sorted).script? choice source selector = some script) :
    script.length =
      Script.numberSize threshold + pushesSize keys + Script.numberSize keys.length + 1 := by
  obtain ⟨pushed, hpushed, rfl⟩ := pushes_of_script? (by omega) compiles
  have count := hpushed.length
  obtain ⟨written, hwritten, arranged⟩ := hpushed
  have same := (arranged.perm.flatMap_right Script.push).length_eq
  rw [Script.length_multisig pos (by omega) (by omega), same, length_pushes hwritten, count]

/-- Besides the scripts of several keys there are only short ones under `sh`. -/
theorem length_script?_insideSh {inner : Descriptor} (valid : inner.WellFormed .insideSh)
    (single : ∀ threshold keys sorted, inner ≠ multi threshold keys sorted)
    (compiles : inner.script? choice source selector = some script) : script.length ≤ 67 := by
  have keyLength (found : PublicKey) : found.toBytes.length ≤ 65 := by
    rw [found.length_toBytes]
    split <;> omega
  cases valid with
  | pk _ =>
    obtain ⟨found, _, rfl⟩ := Option.map_eq_some_iff.mp compiles
    have := keyLength found
    rw [PublicKey.keyScript, Script.length_payToPublicKey found.toBytes_short.2]
    omega
  | pkh _ =>
    obtain ⟨found, _, rfl⟩ := Option.map_eq_some_iff.mp compiles
    rw [PublicKey.keyHashScript, Script.length_payToPublicKeyHash (by simp), Hash.length_hash160]
    decide
  | wpkh _ _ =>
    obtain ⟨found, _, hscript⟩ := Option.bind_eq_some_iff.mp compiles
    unfold PublicKey.witnessScript? at hscript
    split at hscript <;> cases hscript
    rw [Script.length_payToWitness_zero (by simp), Hash.length_hash160]
    decide
  | wsh _ _ =>
    obtain ⟨witness, _, rfl⟩ := Option.map_eq_some_iff.mp compiles
    rw [Script.witnessedBy, Script.length_payToWitness_zero (by simp), Hash.length_sha256]
    decide
  | multi sorted _ _ _ _ => exact absurd rfl (single _ _ sorted)

theorem length_le_520_iff {inner : Descriptor} (valid : inner.WellFormed .insideSh)
    (compiles : inner.script? choice source selector = some script) :
    script.length ≤ 520 ↔ ∀ threshold keys sorted, inner = multi threshold keys sorted →
      pushesSize keys ≤ 517 := by
  by_cases several : ∃ threshold keys sorted, inner = multi threshold keys sorted
  · obtain ⟨threshold, keys, sorted, rfl⟩ := several
    obtain ⟨pos, le, few⟩ : 1 ≤ threshold ∧ threshold ≤ keys.length ∧ keys.length ≤ 20 := by
      cases valid with
      | multi _ _ pos le few => exact ⟨pos, le, few⟩
    have hlength := length_multi_script? pos le few compiles
    -- from seventeen keys on, the numbers are longer, but the keys alone are too long already
    have numbers : Script.numberSize threshold + Script.numberSize keys.length = 2 ∨
        517 < pushesSize keys ∧ 2 ≤ Script.numberSize threshold + Script.numberSize keys.length := by
      unfold Script.numberSize pushesSize
      split <;> split <;> omega
    constructor
    · rintro fits _ _ _ same
      cases same
      omega
    · intro fits
      have := fits threshold keys sorted rfl
      omega
  · constructor
    · intro _ threshold keys sorted same
      exact absurd ⟨threshold, keys, sorted, same⟩ several
    · intro _
      refine Nat.le_trans (length_script?_insideSh valid ?_ compiles) (by decide)
      exact fun threshold keys sorted same => several ⟨threshold, keys, sorted, same⟩

/-- Every tree under an `sh` that has a script has a script below the hash, and it can be pushed
whole unless it is one of several keys that take too many bytes: more than fifteen keys, or fewer if
some were written in the long form. -/
theorem redeemScript_length_le_520_iff {text : List Char} {tree : Descriptor} {output : Script}
    (reads : parse text = .ok tree)
    (compiles : tree.script? choice source selector = some output) :
    ∀ inner ∈ tree.redeemed, ∃ script, inner.script? choice source selector = some script ∧
      (sh inner).script? choice source selector = some script.redeemedBy ∧
      (script.length ≤ 520 ↔ ∀ threshold keys sorted, inner = multi threshold keys sorted →
        34 * keys.length + 32 * keys.countP (·.key.isUncompressed) ≤ 517) := by
  intro inner hinner
  have hraw : ∀ bytes, tree ≠ .raw bytes := by
    rintro bytes rfl
    cases hinner
  have valid := (wellFormed_of_parse reads hraw).redeemed hinner
  obtain ⟨script, hscript⟩ := exists_script?_of_redeemed hinner compiles
  exact ⟨script, hscript, congrArg (Option.map _) hscript, length_le_520_iff valid hscript⟩

end

/-! ### Scripts at the limit -/

/-- A script of the generator in the short form, as many times as the caller says. -/
def repeatedKey (count : Nat) : List Char :=
  let key := ",0279be667ef9dcbbac55a06295ce870b07029bfcdb2dce28d959f2815b16f81798".toList
  "sh(multi(1".toList ++ (List.replicate count key).flatten ++ "))".toList

/-- Fifteen keys fit. -/
theorem redeemScript_of_fifteen :
    ∃ tree inner script, parse (repeatedKey 15) = .ok tree ∧ tree.redeemed = [inner] ∧
      inner.script? none none none = some script ∧ script.length ≤ 520 := by
  have runs : ((parse (repeatedKey 15)).toOption.map fun tree =>
      ((tree.script? none none none).isSome, tree.redeemed.map fun inner =>
        (inner.keys.length, inner.keys.countP (·.key.isUncompressed)))) =
      some (true, [(15, 0)]) := by decide +kernel
  obtain ⟨tree, reads, hfacts⟩ := exists_ok_of_toOption_map runs
  obtain ⟨compiles, counts⟩ := Prod.ext_iff.mp hfacts
  obtain ⟨output, houtput⟩ := Option.isSome_iff_exists.mp compiles
  obtain ⟨inner, hredeemed, hcounts⟩ := List.map_eq_singleton_iff.mp counts
  obtain ⟨script, hscript, _, fits⟩ :=
    redeemScript_length_le_520_iff reads houtput inner (by simp [hredeemed])
  refine ⟨tree, inner, script, reads, hredeemed, hscript, fits.mpr ?_⟩
  rintro threshold keys sorted rfl
  obtain ⟨hlength, hlong⟩ := Prod.ext_iff.mp hcounts
  have count : keys.length = 15 := hlength
  have long : keys.countP (·.key.isUncompressed) = 0 := hlong
  omega

/-- Sixteen do not, and still the tree is read and has a script. -/
theorem redeemScript_of_sixteen :
    ∃ tree inner output script, parse (repeatedKey 16) = .ok tree ∧ tree.redeemed = [inner] ∧
      tree.script? none none none = some output ∧ inner.script? none none none = some script ∧
      ¬ script.length ≤ 520 := by
  have runs : ((parse (repeatedKey 16)).toOption.map fun tree =>
      ((tree.script? none none none).isSome, tree.redeemed.map fun inner =>
        (inner.script? none none none).map List.length)) =
      some (true, [some 547]) := by decide +kernel
  obtain ⟨tree, reads, hfacts⟩ := exists_ok_of_toOption_map runs
  obtain ⟨compiles, lengths⟩ := Prod.ext_iff.mp hfacts
  obtain ⟨output, houtput⟩ := Option.isSome_iff_exists.mp compiles
  obtain ⟨inner, hredeemed, hlength⟩ := List.map_eq_singleton_iff.mp lengths
  obtain ⟨script, hscript, long⟩ := Option.map_eq_some_iff.mp hlength
  exact ⟨tree, inner, output, script, reads, hredeemed, houtput, hscript, by omega⟩

end Descriptor

end OutputDescriptor
