/-!
Byte strings, the numbers they spell and the hex digits that write them.

Numbers are read in base 256 and written with a given count of digits, so that the two directions
undo each other whenever the number fits. Hex digits are written in lower case and read in either.
-/

namespace OutputDescriptor

abbrev Bytes := List UInt8

/-- Byte strings of one length, such as fingerprints, chain codes and hashes. -/
abbrev ByteBlock (n : Nat) := { bytes : Bytes // bytes.length = n }

namespace Bytes

/-- The number whose base 256 digits are the bytes, most significant first. -/
def toNat (bytes : Bytes) : Nat :=
  bytes.foldl (fun n b => 256 * n + b.toNat) 0

/-- The `len` low base 256 digits of a number, least significant first. -/
def littleEndian : (len : Nat) → Nat → Bytes
  | 0, _ => []
  | len + 1, n => UInt8.ofNat n :: littleEndian len (n / 256)

/-- The `len` low base 256 digits of a number, most significant first. -/
def bigEndian (len n : Nat) : Bytes :=
  (littleEndian len n).reverse

@[simp] theorem length_littleEndian (len n : Nat) : (littleEndian len n).length = len := by
  induction len generalizing n with
  | zero => rfl
  | succ len ih => simp [littleEndian, ih]

@[simp] theorem length_bigEndian (len n : Nat) : (bigEndian len n).length = len := by
  simp [bigEndian]

theorem toNat_append_singleton (bytes : Bytes) (b : UInt8) :
    toNat (bytes ++ [b]) = 256 * toNat bytes + b.toNat := by
  simp [toNat]

/-- Writing a number and reading it back keeps the digits there was room for. -/
theorem toNat_bigEndian (len n : Nat) : toNat (bigEndian len n) = n % Nat.pow 256 len := by
  induction len generalizing n with
  | zero => simp [bigEndian, littleEndian, toNat, Nat.mod_one, Nat.pow]
  | succ len ih =>
    have split : bigEndian (len + 1) n = bigEndian len (n / 256) ++ [UInt8.ofNat n] := by
      simp [bigEndian, littleEndian]
    have room : Nat.pow 256 (len + 1) = 256 * Nat.pow 256 len := Nat.mul_comm _ _
    rw [split, toNat_append_singleton, ih, room, Nat.mod_mul]
    simp [Nat.add_comm]

theorem toNat_bigEndian_of_lt {len n : Nat} (h : n < Nat.pow 256 len) :
    toNat (bigEndian len n) = n := by
  rw [toNat_bigEndian, Nat.mod_eq_of_lt h]

/-- The two digits of each byte, high half first. -/
def toHex (bytes : Bytes) : List Char :=
  bytes.flatMap fun b => [Nat.digitChar (b.toNat / 16), Nat.digitChar (b.toNat % 16)]

/-- The value of a hex digit of either case. -/
def hexValue? (c : Char) : Option Nat :=
  if c.isDigit then some (c.toNat - '0'.toNat)
  else if 'a' ≤ c ∧ c ≤ 'f' then some (c.toNat - 'a'.toNat + 10)
  else if 'A' ≤ c ∧ c ≤ 'F' then some (c.toNat - 'A'.toNat + 10)
  else none

/-- Reads pairs of hex digits; an odd count or a foreign character is refused. -/
def ofHex? : List Char → Option Bytes
  | [] => some []
  | [_] => none
  | high :: low :: rest => do
    let h ← hexValue? high
    let l ← hexValue? low
    let bytes ← ofHex? rest
    some (UInt8.ofNat (16 * h + l) :: bytes)

theorem hexValue?_digitChar : ∀ {n : Nat}, n < 16 → hexValue? (Nat.digitChar n) = some n := by
  decide

theorem toHex_cons (b : UInt8) (rest : Bytes) :
    toHex (b :: rest) =
      Nat.digitChar (b.toNat / 16) :: Nat.digitChar (b.toNat % 16) :: toHex rest := by
  simp [toHex]

@[simp] theorem length_toHex (bytes : Bytes) : bytes.toHex.length = 2 * bytes.length := by
  induction bytes with
  | nil => rfl
  | cons b rest ih =>
    rw [toHex_cons, List.length_cons, List.length_cons, ih, List.length_cons]
    omega

/-- What is written in hex reads back. -/
theorem ofHex?_toHex (bytes : Bytes) : ofHex? bytes.toHex = some bytes := by
  induction bytes with
  | nil => rfl
  | cons b rest ih =>
    have bound : b.toNat < 256 := b.toNat_lt
    rw [toHex_cons, ofHex?, hexValue?_digitChar (by omega), hexValue?_digitChar (by omega), ih]
    simp only [Option.bind_eq_bind, Option.bind_some, Nat.div_add_mod, UInt8.ofNat_toNat]

end Bytes

end OutputDescriptor
