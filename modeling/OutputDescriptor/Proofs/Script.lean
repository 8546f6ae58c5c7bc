import OutputDescriptor.Script

/-!
A multisig script tells what it was made of.

Splitting a script into instructions undoes the pushes that it was written with: what was pushed by
one opcode comes back as one instruction, whatever stands behind it. A number up to 16 comes back as
an opcode of its own and a larger one as a pushed byte, so numbers are told apart, and so are the
keys between them, whose count is known from that of the instructions.
-/

namespace OutputDescriptor.Script

variable {data rest : Bytes}

theorem instructionsFrom_append (data rest : Bytes) :
    instructionsFrom data.length (data ++ rest) = instructions rest := by
  induction data with
  | nil => rfl
  | cons byte data ih => exact ih

/-- Opcodes behind the pushes stand for themselves. -/
theorem instructions_plain {opcode : UInt8} (h : 0x4e < opcode.toNat) (rest : Bytes) :
    instructions (opcode :: rest) = .plain opcode :: instructions rest := by
  have ne {other : UInt8} (small : other.toNat ≤ 0x4e) : opcode ≠ other := by
    rintro rfl
    omega
  have width : Opcode.lengthField opcode = 0 := by
    unfold Opcode.lengthField
    rw [if_neg (ne (by decide)), if_neg (ne (by decide)), if_neg (ne (by decide))]
  have large : ¬ opcode ≤ 0x4b := by
    rw [UInt8.le_iff_toNat_le]
    exact Nat.not_le.mpr (Nat.lt_trans (by decide) h)
  have length : Opcode.pushLength opcode [] = 0 := if_neg large
  show instructionsFrom 0 (opcode :: rest) = _
  rw [instructionsFrom]
  simp [width, length, instructions]

/-- The instruction that pushes a short run of bytes. -/
def pushInstruction (data : Bytes) : Instruction :=
  .push (UInt8.ofNat data.length) data

theorem pushInstruction_injective {data data' : Bytes}
    (h : pushInstruction data = pushInstruction data') : data = data' := by
  injection h

theorem instructions_push (nonempty : data ≠ []) (short : data.length < 0x4c) (rest : Bytes) :
    instructions (push data ++ rest) = pushInstruction data :: instructions rest := by
  have value : (UInt8.ofNat data.length).toNat = data.length :=
    UInt8.toNat_ofNat_of_lt' (Nat.lt_trans short (by decide))
  have width : Opcode.lengthField (UInt8.ofNat data.length) = 0 := by
    have ne {other : UInt8} (large : 0x4c ≤ other.toNat) : UInt8.ofNat data.length ≠ other := by
      rintro rfl
      omega
    unfold Opcode.lengthField
    rw [if_neg (ne (by decide)), if_neg (ne (by decide)), if_neg (ne (by decide))]
  have length : Opcode.pushLength (UInt8.ofNat data.length) [] = data.length := by
    have small : UInt8.ofNat data.length ≤ 0x4b := by
      rw [UInt8.le_iff_toNat_le, value]
      exact Nat.le_of_lt_succ short
    rw [Opcode.pushLength, if_pos small, value]
  have written : push data = UInt8.ofNat data.length :: data := if_pos short
  show instructionsFrom 0 (push data ++ rest) = _
  rw [written, List.cons_append, instructionsFrom]
  simp [width, length, nonempty, instructionsFrom_append, pushInstruction]

/-! ### Numbers -/

/-- How a number of keys is pushed, as long as it takes one byte. -/
def numberInstruction (n : Nat) : Instruction :=
  if n ≤ 16 then .plain (UInt8.ofNat (n + 0x50)) else pushInstruction [UInt8.ofNat n]

theorem numberInstruction_injective {n m : Nat} (hn : n < 0x80) (hm : m < 0x80)
    (h : numberInstruction n = numberInstruction m) : n = m := by
  have byte {a b : Nat} (ha : a < 0x100) (hb : b < 0x100) (h : UInt8.ofNat a = UInt8.ofNat b) :
      a = b := by
    have value := congrArg UInt8.toNat h
    rwa [UInt8.toNat_ofNat_of_lt' ha, UInt8.toNat_ofNat_of_lt' hb] at value
  unfold numberInstruction at h
  split at h
  · split at h
    · injection h with h
      have := byte (by omega) (by omega) h
      omega
    · cases h
  · split at h
    · cases h
    · have h := pushInstruction_injective h
      injection h with h
      exact byte (by omega) (by omega) h

/-- A small number is its own magnitude, with room for the sign. -/
theorem numberBytes_of_lt {n : Nat} (small : n < 0x80) : numberBytes n = [UInt8.ofNat n] := by
  have positive : ¬ (n : Int) < 0 := by omega
  simp [numberBytes, magnitude, positive, small]

theorem instructions_pushInt {n : Nat} (pos : 1 ≤ n) (small : n < 0x80) (rest : Bytes) :
    instructions (pushInt n ++ rest) = numberInstruction n :: instructions rest := by
  have nonzero : (n : Int) ≠ 0 := by omega
  unfold pushInt numberInstruction
  rw [if_neg nonzero]
  by_cases single : n ≤ 16
  · have opcode : ((n : Int) + 0x50).toNat = n + 0x50 := by omega
    have value : (UInt8.ofNat (n + 0x50)).toNat = n + 0x50 :=
      UInt8.toNat_ofNat_of_lt' (Nat.lt_of_le_of_lt (Nat.add_le_add_right single _) (by decide))
    rw [if_pos (by omega), if_pos single, opcode]
    exact instructions_plain (by omega) rest
  · rw [if_neg (by omega), if_neg single, numberBytes_of_lt small]
    exact instructions_push (by simp) (by simp) rest

/-! ### Several keys -/

/-- Runs of bytes that take a single opcode to push, such as public keys. -/
def Short (keys : List Bytes) : Prop :=
  ∀ key ∈ keys, key ≠ [] ∧ key.length < 0x4c

theorem instructions_pushes {keys : List Bytes} (short : Short keys) (rest : Bytes) :
    instructions (keys.flatMap push ++ rest) = keys.map pushInstruction ++ instructions rest := by
  induction keys with
  | nil => rfl
  | cons key keys ih =>
    obtain ⟨⟨nonempty, few⟩, short⟩ := List.forall_mem_cons.mp short
    rw [List.flatMap_cons, List.append_assoc, instructions_push nonempty few, ih short,
      List.map_cons, List.cons_append]

theorem instructions_multisig {threshold : Nat} {keys : List Bytes} (pos : 1 ≤ threshold)
    (le : threshold ≤ keys.length) (few : keys.length < 0x80) (short : Short keys) :
    instructions (multisig threshold keys) =
      numberInstruction threshold :: keys.map pushInstruction ++
        [numberInstruction keys.length, .plain 0xae] := by
  unfold multisig
  rw [List.append_assoc, List.append_assoc, instructions_pushInt pos (by omega),
    instructions_pushes short, instructions_pushInt (by omega) few,
    instructions_plain (by decide)]
  rfl

/-- Scripts of as many keys as a byte can count are equal only if they have the same threshold and
the same keys in the same order. -/
theorem multisig_injective {threshold threshold' : Nat} {keys keys' : List Bytes}
    (pos : 1 ≤ threshold) (le : threshold ≤ keys.length) (few : keys.length < 0x80)
    (short : Short keys) (pos' : 1 ≤ threshold') (le' : threshold' ≤ keys'.length)
    (few' : keys'.length < 0x80) (short' : Short keys')
    (h : multisig threshold keys = multisig threshold' keys') :
    threshold = threshold' ∧ keys = keys' := by
  have same := congrArg instructions h
  rw [instructions_multisig pos le few short, instructions_multisig pos' le' few' short'] at same
  obtain ⟨first, others⟩ := List.cons.inj same
  obtain ⟨pushed, _⟩ := List.append_inj' others rfl
  refine ⟨numberInstruction_injective (by omega) (by omega) first, ?_⟩
  exact (List.map_inj_right fun _ _ => pushInstruction_injective).mp pushed

end OutputDescriptor.Script
