import OutputDescriptor.Hash
import OutputDescriptor.Radix

/-!
Base 58 texts of byte strings, bare and guarded by a checksum.

A byte string is written as the number it spells, in an alphabet without the look-alikes `0`, `O`,
`I` and `l`. The number loses the leading zero bytes, so each of them is written as a leading `1`,
the alphabet's zero. A guarded text ends in the first four bytes of a hash of what it holds.
-/

namespace OutputDescriptor.Base58

def alphabet : List Char :=
  "123456789ABCDEFGHJKLMNPQRSTUVWXYZabcdefghijkmnopqrstuvwxyz".toList

def digit? (c : Char) : Option Nat :=
  alphabet.idxOf? c

def char (digit : Nat) : Char :=
  alphabet.getD digit '1'

def encode (bytes : Bytes) : List Char :=
  let zeros := (bytes.takeWhile (· == 0)).length
  List.replicate zeros '1' ++ (Radix.digits 58 bytes.toNat).map char

def decode? (text : List Char) : Option Bytes := do
  let digits ← text.mapM digit?
  let zeros := (digits.takeWhile (· == 0)).length
  some (List.replicate zeros 0 ++ (Radix.digits 256 (Radix.value 58 digits)).map UInt8.ofNat)

/-- The bytes that guard a payload. -/
def guardBytes (payload : Bytes) : Bytes :=
  (Hash.doubleSha256 payload).take 4

def encodeGuarded (payload : Bytes) : List Char :=
  encode (payload ++ guardBytes payload)

/-- The payload of a guarded text, refused unless its guard is right. -/
def decodeGuarded? (text : List Char) : Option Bytes := do
  let bytes ← decode? text
  let payload := bytes.take (bytes.length - 4)
  if 4 ≤ bytes.length ∧ bytes.drop (bytes.length - 4) = guardBytes payload then some payload
  else none

theorem digit?_char {digit : Nat} (h : digit < 58) : digit? (char digit) = some digit := by
  revert digit
  decide

end OutputDescriptor.Base58
