import OutputDescriptor.Bytes

/-!
What the hash functions share. A message is closed by a one bit, filled up with zeros and given its
length, so that it divides evenly into blocks; the blocks are then folded into a state.
-/

namespace OutputDescriptor.Hash

/-- The message closed and filled up to a multiple of `size` bytes, `lengthField` being its end. -/
def pad (size : Nat) (lengthField message : Bytes) : Bytes :=
  let used := message.length + 1 + lengthField.length
  message ++ 0x80 :: List.replicate ((size - used % size) % size) 0 ++ lengthField

/-- The consecutive pieces of `size` elements; a shorter rest is left out. -/
def pieces {α : Type} (size : Nat) (xs : List α) : List (List α) :=
  (List.range (xs.length / size)).map fun i => (xs.drop (size * i)).take size

end OutputDescriptor.Hash
