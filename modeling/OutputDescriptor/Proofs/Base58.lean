import Mathlib.Data.List.TakeWhile
import OutputDescriptor.Base58
import OutputDescriptor.Proofs.Bytes
import OutputDescriptor.Proofs.Radix
import OutputDescriptor.Proofs.Traversal

/-!
Base 58 texts and byte strings determine each other, and so do guarded texts and their payloads.

Leading zeros are the whole difficulty: the number does not keep them, so both directions carry them
past it by their count.
-/

namespace OutputDescriptor

namespace Bytes

theorem toNat_eq_value (bytes : Bytes) : toNat bytes = Radix.value 256 (bytes.map UInt8.toNat) := by
  simp [toNat, Radix.value, List.foldl_map]

theorem map_ofNat_map_toNat (bytes : Bytes) : (bytes.map UInt8.toNat).map UInt8.ofNat = bytes := by
  have inverse : UInt8.ofNat ∘ UInt8.toNat = id := funext fun b => UInt8.ofNat_toNat
  rw [List.map_map, inverse, List.map_id]

theorem lt_of_mem_map_toNat {bytes : Bytes} {d : Nat} (h : d ∈ bytes.map UInt8.toNat) : d < 256 := by
  obtain ⟨b, _, rfl⟩ := List.mem_map.mp h
  exact b.toNat_lt

/-- The digits of a number in base 256 are the bytes that spell it, without leading zeros. -/
theorem digits_toNat (bytes : Bytes) :
    (Radix.digits 256 bytes.toNat).map UInt8.ofNat = bytes.dropWhile (· == 0) := by
  have zero : (fun d : Nat => d == 0) ∘ UInt8.toNat = fun b : UInt8 => b == 0 := by
    funext b
    rw [Function.comp_apply, Bool.eq_iff_iff, beq_iff_eq, beq_iff_eq, ← UInt8.toNat_inj]
    rfl
  rw [toNat_eq_value, Radix.digits_value (by decide) fun d => lt_of_mem_map_toNat,
    List.dropWhile_map, zero, map_ofNat_map_toNat]

theorem toNat_replicate_append (zeros : Nat) (bytes : Bytes) :
    toNat (List.replicate zeros 0 ++ bytes) = toNat bytes := by
  rw [toNat_eq_value, toNat_eq_value, List.map_append, List.map_replicate]
  exact Radix.value_replicate_append zeros _

end Bytes

/-- A list is its leading zeros and the rest. -/
theorem replicate_append_dropWhile {α : Type} [BEq α] [LawfulBEq α] (zero : α) (xs : List α) :
    List.replicate (xs.takeWhile (· == zero)).length zero ++ xs.dropWhile (· == zero) = xs := by
  have front : List.replicate (xs.takeWhile (· == zero)).length zero = xs.takeWhile (· == zero) := by
    refine (List.eq_replicate_iff.mpr ⟨rfl, fun x hx => ?_⟩).symm
    simpa using List.mem_takeWhile_imp hx
  rw [front, List.takeWhile_append_dropWhile]

theorem takeWhile_replicate_append {α : Type} [BEq α] [LawfulBEq α] {zero : α} {xs : List α}
    (h : xs.takeWhile (· == zero) = []) (count : Nat) :
    ((List.replicate count zero ++ xs).takeWhile (· == zero)).length = count := by
  rw [List.takeWhile_append_of_pos (by simp), h, List.append_nil, List.length_replicate]

namespace Base58

theorem char_of_digit? {c : Char} {digit : Nat} (h : digit? c = some digit) :
    char digit = c ∧ digit < 58 := by
  obtain ⟨hlt, hget, _⟩ := List.idxOf?_eq_some_iff.mp h
  refine ⟨?_, hlt⟩
  rw [char, List.getD_eq_getElem?_getD, List.getElem?_eq_getElem hlt, Option.getD_some, hget]

/-- Numbers are written without leading zeros. -/
theorem takeWhile_digits {base : Nat} (hbase : 2 ≤ base) (n : Nat) :
    (Radix.digits base n).takeWhile (· == 0) = [] := by
  have written := Radix.digits_value hbase fun d => Radix.lt_of_mem_digits (n := n) hbase
  rw [Radix.value_digits hbase] at written
  have whole : (Radix.digits base n).takeWhile (· == 0) ++ (Radix.digits base n).dropWhile (· == 0) =
      Radix.digits base n := List.takeWhile_append_dropWhile
  rw [← written] at whole
  exact List.append_left_eq_self.mp whole

theorem digit?_map_char {digits : List Nat} (h : ∀ d ∈ digits, d < 58) :
    (digits.map char).mapM digit? = some digits :=
  mapM_map_of_read fun d hd => digit?_char (h d hd)

/-- The digits of a text, those of leading zeros included. -/
def digitsOf (bytes : Bytes) : List Nat :=
  List.replicate (bytes.takeWhile (· == 0)).length 0 ++ Radix.digits 58 bytes.toNat

theorem lt_of_mem_digitsOf {bytes : Bytes} {d : Nat} (h : d ∈ digitsOf bytes) : d < 58 := by
  rcases List.mem_append.mp h with h | h
  · rw [(List.mem_replicate.mp h).2]
    decide
  · exact Radix.lt_of_mem_digits (by decide) h

theorem encode_eq_map (bytes : Bytes) : encode bytes = (digitsOf bytes).map char := by
  have hzero : char 0 = '1' := rfl
  rw [digitsOf, List.map_append, List.map_replicate, hzero, encode]

/-- Every byte string reads back. -/
theorem decode?_encode (bytes : Bytes) : decode? (encode bytes) = some bytes := by
  have hread : (encode bytes).mapM digit? = some (digitsOf bytes) := by
    rw [encode_eq_map]
    exact digit?_map_char fun d hd => lt_of_mem_digitsOf hd
  have hzeros : ((digitsOf bytes).takeWhile (· == 0)).length = (bytes.takeWhile (· == 0)).length :=
    takeWhile_replicate_append (takeWhile_digits (by decide) bytes.toNat) _
  have hvalue : Radix.value 58 (digitsOf bytes) = bytes.toNat := by
    rw [digitsOf, Radix.value_replicate_append, Radix.value_digits (by decide)]
  rw [decode?, hread]
  simp only [Option.bind_eq_bind, Option.bind_some]
  rw [hzeros, hvalue, Bytes.digits_toNat, replicate_append_dropWhile]

theorem takeWhile_map_ofNat_digits (n : Nat) :
    ((Radix.digits 256 n).map UInt8.ofNat).takeWhile (· == 0) = [] := by
  have hzeros := takeWhile_digits (by decide : 2 ≤ 256) n
  have hbound : ∀ d ∈ Radix.digits 256 n, d < 256 := fun d => Radix.lt_of_mem_digits (by decide)
  cases hdigits : Radix.digits 256 n with
  | nil => rfl
  | cons d ds =>
    rw [hdigits] at hzeros hbound
    have hlt : d < 256 := hbound d (by simp)
    have hd : d ≠ 0 := by
      rintro rfl
      simp at hzeros
    have hne : UInt8.ofNat d ≠ 0 := by
      intro h
      have h := congrArg UInt8.toNat h
      rw [UInt8.toNat_ofNat_of_lt' hlt] at h
      exact hd h
    simp [hne]

theorem toNat_map_ofNat_digits (n : Nat) :
    Bytes.toNat ((Radix.digits 256 n).map UInt8.ofNat) = n := by
  have hdigits : ((Radix.digits 256 n).map UInt8.ofNat).map UInt8.toNat = Radix.digits 256 n := by
    rw [List.map_map]
    refine (List.map_congr_left fun d hd => ?_).trans (List.map_id _)
    exact UInt8.toNat_ofNat_of_lt' (Radix.lt_of_mem_digits (by decide) hd)
  rw [Bytes.toNat_eq_value, hdigits, Radix.value_digits (by decide)]

/-- A text that can be read is the only one with its bytes. -/
theorem encode_of_decode? {text : List Char} {bytes : Bytes} (h : decode? text = some bytes) :
    encode bytes = text := by
  simp only [decode?, Option.bind_eq_bind, Option.bind_eq_some_iff] at h
  obtain ⟨digits, hdigits, heq⟩ := h
  cases heq
  have hbound : ∀ d ∈ digits, d < 58 := by
    intro d hd
    obtain ⟨c, _, hc⟩ := exists_of_mem_mapM hdigits d hd
    exact (char_of_digit? hc).2
  have hwritten := map_of_mapM hdigits fun c _ d hc => (char_of_digit? hc).1
  rw [encode_eq_map, digitsOf, takeWhile_replicate_append (takeWhile_map_ofNat_digits _),
    Bytes.toNat_replicate_append, toNat_map_ofNat_digits, Radix.digits_value (by decide) hbound,
    replicate_append_dropWhile, hwritten]

/-- A byte string is no longer than its text. -/
theorem length_of_decode? {text : List Char} {bytes : Bytes} (h : decode? text = some bytes) :
    bytes.length ≤ text.length := by
  simp only [decode?, Option.bind_eq_bind, Option.bind_eq_some_iff] at h
  obtain ⟨digits, hdigits, heq⟩ := h
  cases heq
  have hlength := length_of_mapM hdigits
  have hbound : ∀ d ∈ digits.dropWhile (· == 0), d < 58 := by
    intro d hd
    obtain ⟨c, _, hc⟩ := exists_of_mem_mapM hdigits d (List.dropWhile_subset _ hd)
    exact (char_of_digit? hc).2
  have hlt := Radix.value_lt hbound
  have hle : 58 ^ (digits.dropWhile (· == 0)).length ≤ 256 ^ (digits.dropWhile (· == 0)).length :=
    Nat.pow_le_pow_left (by decide) _
  rw [Radix.value_dropWhile] at hlt
  have hshort : (Radix.digits 256 (Radix.value 58 digits)).length ≤
      (digits.dropWhile (· == 0)).length :=
    Radix.length_digits_le (by decide) (Nat.lt_of_lt_of_le hlt hle)
  have hsplit := congrArg List.length (replicate_append_dropWhile 0 digits)
  simp only [List.length_append, List.length_replicate, List.length_map] at hsplit ⊢
  omega

/-! ### The front of a text -/

theorem isSome_digit?_of_mem_encode {bytes : Bytes} {c : Char} (h : c ∈ encode bytes) :
    (digit? c).isSome = true := by
  rw [encode_eq_map] at h
  obtain ⟨d, hd, rfl⟩ := List.mem_map.mp h
  rw [digit?_char (lt_of_mem_digitsOf hd)]
  rfl

theorem isAlphanum_of_digit? {c : Char} (h : (digit? c).isSome = true) : c.isAlphanum = true := by
  obtain ⟨d, hd⟩ := Option.isSome_iff_exists.mp h
  obtain ⟨rfl, hlt⟩ := char_of_digit? hd
  have all : ∀ d < 58, (char d).isAlphanum = true := by decide
  exact all d hlt

/-- Bytes of a known front and length make texts of a known front and length: that front is between
the digits of the least and of the greatest number they can spell. -/
theorem encode_front (head : Bytes) {rest : Bytes} {size : Nat} (count low high : Nat)
    (hhead : head.head?.any (· != 0) = true) (hlength : rest.length = size)
    (hlow : low * 58 ^ count ≤ head.toNat * 256 ^ size)
    (hhigh : (head.toNat + 1) * 256 ^ size ≤ (high + 1) * 58 ^ count) (hpos : 0 < low) :
    ∃ front tail, low ≤ front ∧ front ≤ high ∧ tail.length = count ∧
      encode (head ++ rest) = (Radix.digits 58 front).map char ++ tail := by
  have hpow : 0 < 58 ^ count := Nat.pow_pos (by decide)
  have hvalue : (head ++ rest).toNat = head.toNat * 256 ^ size + rest.toNat := by
    rw [Bytes.toNat_append, hlength]
  have hrest : rest.toNat < 256 ^ size := hlength ▸ Bytes.toNat_lt rest
  have hzeros : (head ++ rest).takeWhile (· == 0) = [] := by
    cases head with
    | nil => simp at hhead
    | cons b head =>
      have hb : b ≠ 0 := by simpa using hhead
      simp [hb]
  rw [Nat.add_mul, Nat.one_mul] at hhigh
  have hle : 58 ^ count ≤ (head ++ rest).toNat := by
    have := Nat.le_mul_of_pos_left (58 ^ count) hpos
    omega
  obtain ⟨tail, htail, hcount⟩ := Radix.digits_eq_append (by decide : 2 ≤ 58) hle
  refine ⟨(head ++ rest).toNat / 58 ^ count, tail.map char, ?_, ?_, by simp [hcount], ?_⟩
  · rw [Nat.le_div_iff_mul_le hpow]
    omega
  · rw [← Nat.lt_succ_iff, Nat.div_lt_iff_lt_mul hpow]
    rw [Nat.succ_eq_add_one]
    omega
  · rw [encode_eq_map, digitsOf, hzeros, htail]
    simp

/-! ### Guarded texts -/

@[simp] theorem length_guardBytes (payload : Bytes) : (guardBytes payload).length = 4 := by
  simp [guardBytes, Hash.doubleSha256]

/-- The first bytes of a payload settle how its guarded text begins. -/
theorem encodeGuarded_front (head : Bytes) {rest : Bytes} {size : Nat} (count low high : Nat)
    (hhead : head.head?.any (· != 0) = true) (hlength : rest.length = size)
    (hlow : low * 58 ^ count ≤ head.toNat * 256 ^ (size + 4))
    (hhigh : (head.toNat + 1) * 256 ^ (size + 4) ≤ (high + 1) * 58 ^ count) (hpos : 0 < low) :
    ∃ front tail, low ≤ front ∧ front ≤ high ∧ tail.length = count ∧
      encodeGuarded (head ++ rest) = (Radix.digits 58 front).map char ++ tail := by
  have hrest : (rest ++ guardBytes (head ++ rest)).length = size + 4 := by
    rw [List.length_append, length_guardBytes, hlength]
  rw [encodeGuarded, List.append_assoc]
  exact encode_front head count low high hhead hrest hlow hhigh hpos

theorem decodeGuarded?_encodeGuarded (payload : Bytes) :
    decodeGuarded? (encodeGuarded payload) = some payload := by
  simp [decodeGuarded?, encodeGuarded, decode?_encode]

theorem decodeGuarded?_eq_some {text : List Char} {payload : Bytes} :
    decodeGuarded? text = some payload ↔ encodeGuarded payload = text := by
  constructor
  · intro h
    simp only [decodeGuarded?, Option.bind_eq_bind, Option.bind_eq_some_iff] at h
    obtain ⟨bytes, hbytes, h⟩ := h
    split at h
    · next guarded =>
      cases h
      rw [encodeGuarded, ← guarded.2, List.take_append_drop, encode_of_decode? hbytes]
    · cases h
  · rintro rfl
    exact decodeGuarded?_encodeGuarded payload

theorem encodeGuarded_inj {a b : Bytes} (h : encodeGuarded a = encodeGuarded b) : a = b := by
  have hread := decodeGuarded?_encodeGuarded a
  rw [h, decodeGuarded?_encodeGuarded, Option.some.injEq] at hread
  exact hread.symm

theorem length_of_decodeGuarded? {text : List Char} {payload : Bytes}
    (h : decodeGuarded? text = some payload) : payload.length + 4 ≤ text.length := by
  obtain rfl := decodeGuarded?_eq_some.mp h
  have hlength := length_of_decode? (decode?_encode (payload ++ guardBytes payload))
  rwa [List.length_append, length_guardBytes] at hlength

end Base58

end OutputDescriptor
