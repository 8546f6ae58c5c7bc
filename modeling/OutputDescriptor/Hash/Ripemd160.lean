import OutputDescriptor.Hash.Block

/-!
The hash function RIPEMD-160.

Two lines of eighty rounds run over the same block of sixteen words. They differ in the order in
which they take the words, in the rotations, in the constants and in the order of the five mixing
functions; what they reach is added crosswise to the state the block started from.
-/

namespace OutputDescriptor.Hash.Ripemd160

structure State where
  a : UInt32
  b : UInt32
  c : UInt32
  d : UInt32
  e : UInt32

def initial : State where
  a := 0x67452301
  b := 0xefcdab89
  c := 0x98badcfe
  d := 0x10325476
  e := 0xc3d2e1f0

def rotateLeft (x n : UInt32) : UInt32 := (x <<< n) ||| (x >>> (32 - n))

def parity (x y z : UInt32) : UInt32 := x ^^^ y ^^^ z
def choose (x y z : UInt32) : UInt32 := (x &&& y) ||| ((~~~ x) &&& z)
def orNot (x y z : UInt32) : UInt32 := (x ||| ~~~ y) ^^^ z
def chooseLast (x y z : UInt32) : UInt32 := (x &&& z) ||| (y &&& ~~~ z)
def orNotLast (x y z : UInt32) : UInt32 := x ^^^ (y ||| ~~~ z)

/-- Sixteen consecutive rounds of a line share a mixing function and a constant. -/
structure Phase where
  mix : UInt32 → UInt32 → UInt32 → UInt32
  constant : UInt32

def leftPhases : List Phase :=
  [⟨parity, 0⟩, ⟨choose, 0x5a827999⟩, ⟨orNot, 0x6ed9eba1⟩, ⟨chooseLast, 0x8f1bbcdc⟩,
   ⟨orNotLast, 0xa953fd4e⟩]

def rightPhases : List Phase :=
  [⟨orNotLast, 0x50a28be6⟩, ⟨chooseLast, 0x5c4dd124⟩, ⟨orNot, 0x6d703ef3⟩, ⟨choose, 0x7a6d76e9⟩,
   ⟨parity, 0⟩]

def leftWords : List Nat := [
  0, 1, 2, 3, 4, 5, 6, 7, 8, 9, 10, 11, 12, 13, 14, 15,
  7, 4, 13, 1, 10, 6, 15, 3, 12, 0, 9, 5, 2, 14, 11, 8,
  3, 10, 14, 4, 9, 15, 8, 1, 2, 7, 0, 6, 13, 11, 5, 12,
  1, 9, 11, 10, 0, 8, 12, 4, 13, 3, 7, 15, 14, 5, 6, 2,
  4, 0, 5, 9, 7, 12, 2, 10, 14, 1, 3, 8, 11, 6, 15, 13]

def rightWords : List Nat := [
  5, 14, 7, 0, 9, 2, 11, 4, 13, 6, 15, 8, 1, 10, 3, 12,
  6, 11, 3, 7, 0, 13, 5, 10, 14, 15, 8, 12, 4, 9, 1, 2,
  15, 5, 1, 3, 7, 14, 6, 9, 11, 8, 12, 2, 10, 0, 4, 13,
  8, 6, 4, 1, 3, 11, 15, 0, 5, 12, 2, 13, 9, 7, 10, 14,
  12, 15, 10, 4, 1, 5, 8, 7, 6, 2, 13, 14, 0, 3, 9, 11]

def leftShifts : List UInt32 := [
  11, 14, 15, 12, 5, 8, 7, 9, 11, 13, 14, 15, 6, 7, 9, 8,
  7, 6, 8, 13, 11, 9, 7, 15, 7, 12, 15, 9, 11, 7, 13, 12,
  11, 13, 6, 7, 14, 9, 13, 15, 14, 8, 13, 6, 5, 12, 7, 5,
  11, 12, 14, 15, 14, 15, 9, 8, 9, 14, 5, 6, 8, 6, 5, 12,
  9, 15, 5, 11, 6, 8, 13, 12, 5, 12, 13, 14, 11, 8, 5, 6]

def rightShifts : List UInt32 := [
  8, 9, 9, 11, 13, 15, 15, 5, 7, 7, 8, 11, 14, 14, 12, 6,
  9, 13, 15, 7, 12, 8, 9, 11, 7, 7, 12, 7, 6, 15, 13, 11,
  9, 7, 15, 11, 8, 6, 6, 14, 12, 13, 5, 14, 13, 13, 7, 5,
  15, 5, 8, 11, 14, 14, 6, 14, 6, 9, 12, 9, 12, 5, 15, 8,
  8, 5, 12, 9, 12, 5, 14, 6, 8, 13, 6, 5, 15, 13, 11, 11]

def round (block : List UInt32) (s : State) (phase : Phase) (word : Nat) (shift : UInt32) : State :=
  let mixed := s.a + phase.mix s.b s.c s.d + block.getD word 0 + phase.constant
  ⟨s.e, rotateLeft mixed shift + s.e, s.b, rotateLeft s.c 10, s.d⟩

/-- All rounds of one line. -/
def line (phases : List Phase) (words : List Nat) (shifts : List UInt32) (block : List UInt32)
    (s : State) : State :=
  ((phases.flatMap (List.replicate 16)).zip (words.zip shifts)).foldl
    (fun s (phase, word, shift) => round block s phase word shift) s

def compress (s : State) (block : List UInt32) : State :=
  let left := line leftPhases leftWords leftShifts block s
  let right := line rightPhases rightWords rightShifts block s
  ⟨s.b + left.c + right.d, s.c + left.d + right.e, s.d + left.e + right.a,
   s.e + left.a + right.b, s.a + left.b + right.c⟩

def State.toBytes (s : State) : Bytes :=
  [s.a, s.b, s.c, s.d, s.e].flatMap fun word => Bytes.littleEndian 4 word.toNat

end Ripemd160

/-- The 160 bit digest of a message. -/
def ripemd160 (message : Bytes) : Bytes :=
  let padded := pad 64 (Bytes.littleEndian 8 (8 * message.length)) message
  let words := (pieces 4 padded).map fun bytes => UInt32.ofNat (Bytes.toNat bytes.reverse)
  ((pieces 16 words).foldl Ripemd160.compress Ripemd160.initial).toBytes

@[simp] theorem length_ripemd160 (message : Bytes) : (ripemd160 message).length = 20 := by
  simp [ripemd160, Ripemd160.State.toBytes]

end OutputDescriptor.Hash
