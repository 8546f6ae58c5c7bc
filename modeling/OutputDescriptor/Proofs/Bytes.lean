import Mathlib.Algebra.Group.Nat.Defs
import Mathlib.Data.List.Induction
import OutputDescriptor.Key.Public

/-!
Numbers and points that bytes spell are spelled by no other bytes of the same length.
-/

namespace OutputDescriptor

namespace Bytes

theorem littleEndian_toNat_reverse (bytes : Bytes) :
    littleEndian bytes.length (toNat bytes.reverse) = bytes := by
  induction bytes with
  | nil => rfl
  | cons b rest ih =>
    have bound : b.toNat < 256 := b.toNat_lt
    have quotient : (256 * toNat rest.reverse + b.toNat) / 256 = toNat rest.reverse := by omega
    have digit : UInt8.ofNat (256 * toNat rest.reverse + b.toNat) = b := by
      apply UInt8.toNat_inj.mp
      rw [UInt8.toNat_ofNat']
      omega
    rw [List.reverse_cons, toNat_append_singleton, List.length_cons, littleEndian, quotient, ih,
      digit]

/-- Only hex digits are read as bytes. -/
theorem isSome_hexValue?_of_ofHex? :
    ∀ {digits : List Char} {bytes : Bytes}, ofHex? digits = some bytes →
      ∀ c ∈ digits, (hexValue? c).isSome = true
  | [], _, _ => by simp
  | [_], _, h => by cases h
  | high :: low :: rest, _, h => by
    simp only [ofHex?, Option.bind_eq_bind, Option.bind_eq_some_iff] at h
    obtain ⟨_, hhigh, _, hlow, _, hrest, _⟩ := h
    rw [List.forall_mem_cons, List.forall_mem_cons, hhigh, hlow]
    exact ⟨rfl, rfl, isSome_hexValue?_of_ofHex? hrest⟩

theorem hexValue?_eq_some {c : Char} {n : Nat} (h : hexValue? c = some n) :
    n < 16 ∧ (n = 0 → c = '0') := by
  unfold hexValue? at h
  split at h
  · next digit =>
    have low : '0'.toNat ≤ c.toNat := of_decide_eq_true (Bool.and_eq_true_iff.mp digit).1
    have high : c.toNat ≤ '9'.toNat := of_decide_eq_true (Bool.and_eq_true_iff.mp digit).2
    cases h
    refine ⟨by simp at low high ⊢; omega, fun hzero => Char.toNat_inj.mp ?_⟩
    omega
  · split at h
    · next bounds =>
      have high : c.toNat ≤ 'f'.toNat := bounds.2
      cases h
      simp at high ⊢
      omega
    · split at h
      · next bounds =>
        have high : c.toNat ≤ 'F'.toNat := bounds.2
        cases h
        simp at high ⊢
        omega
      · cases h

/-- The digits of a small byte begin with a zero. -/
theorem front_of_ofHex? {digits : List Char} {byte : UInt8} {bytes : Bytes}
    (h : ofHex? digits = some (byte :: bytes)) (small : byte.toNat < 16) :
    ∃ rest, digits = '0' :: rest := by
  match digits with
  | [] => cases h
  | [_] => cases h
  | high :: low :: rest =>
    simp only [ofHex?, Option.bind_eq_bind, Option.bind_eq_some_iff] at h
    obtain ⟨a, ha, b, hb, _, _, heq⟩ := h
    cases heq
    obtain ⟨_, hzero⟩ := hexValue?_eq_some ha
    have hbound := (hexValue?_eq_some ha).1
    have hbound' := (hexValue?_eq_some hb).1
    rw [UInt8.toNat_ofNat', Nat.mod_eq_of_lt (by omega)] at small
    rw [hzero (by omega)]
    exact ⟨_, rfl⟩

/-- Reading a number and writing it with as many digits gives the bytes back. -/
theorem bigEndian_toNat (bytes : Bytes) : bigEndian bytes.length (toNat bytes) = bytes := by
  have h := littleEndian_toNat_reverse bytes.reverse
  rw [List.length_reverse, List.reverse_reverse] at h
  rw [bigEndian, h, List.reverse_reverse]

theorem bigEndian_toNat_of_length {bytes : Bytes} {n : Nat} (h : bytes.length = n) :
    bigEndian n (toNat bytes) = bytes := by
  rw [← h, bigEndian_toNat]

theorem toNat_append (a b : Bytes) : toNat (a ++ b) = toNat a * 256 ^ b.length + toNat b := by
  induction b using List.reverseRecOn with
  | nil => simp [toNat]
  | append_singleton b last ih =>
    rw [← List.append_assoc, toNat_append_singleton, ih, toNat_append_singleton, List.length_append,
      List.length_singleton, Nat.pow_succ', Nat.mul_add, Nat.mul_left_comm, Nat.add_assoc]

theorem toNat_lt (bytes : Bytes) : toNat bytes < 256 ^ bytes.length := by
  induction bytes using List.reverseRecOn with
  | nil => simp [toNat]
  | append_singleton bytes last ih =>
    have bound : last.toNat < 256 := last.toNat_lt
    rw [toNat_append_singleton, List.length_append, List.length_singleton, Nat.pow_succ']
    omega

end Bytes

namespace Point

theorem ofBytes?_eq_some {bytes : Bytes} {point : Point} (h : ofBytes? bytes = some point) :
    point.toBytes = bytes ∧ point.isOnCurve = true := by
  cases bytes with
  | nil => cases h
  | cons tag rest =>
    simp only [ofBytes?] at h
    split at h <;> try contradiction
    split at h <;> try contradiction
    next x_lt valid =>
    obtain ⟨hlength, htag, hcurve⟩ := valid
    cases h
    refine ⟨?_, hcurve⟩
    rw [toBytes, Bytes.bigEndian_toNat_of_length hlength]
    rcases htag with rfl | rfl <;> rfl

end Point

namespace PublicKey

/-- The bytes of a public key are those it was read from. -/
theorem ofBytes?_eq_some {bytes : Bytes} {key : PublicKey} (h : ofBytes? bytes = some key) :
    key.toBytes = bytes ∧ key.isOnCurve = true := by
  unfold ofBytes? at h
  split at h
  · cases bytes with
    | nil => cases h
    | cons tag rest =>
      simp only [uncompressedOfBytes?] at h
      split at h <;> try contradiction
      split at h <;> try contradiction
      next lt valid =>
      obtain ⟨rfl, hlength, hcurve⟩ := valid
      cases h
      refine ⟨?_, hcurve⟩
      have front : (rest.take 32).length = 32 := by simp [hlength]
      have back : (rest.drop 32).length = 32 := by simp [hlength]
      rw [toBytes, Bytes.bigEndian_toNat_of_length front, Bytes.bigEndian_toNat_of_length back,
        List.cons_append, List.take_append_drop]
  · obtain ⟨point, hpoint, rfl⟩ := Option.map_eq_some_iff.mp h
    exact Point.ofBytes?_eq_some hpoint

theorem length_toBytes (key : PublicKey) :
    key.toBytes.length = if key.isCompressed then 33 else 65 := by
  cases key <;> simp [toBytes, Point.toBytes, isCompressed]

end PublicKey

end OutputDescriptor
