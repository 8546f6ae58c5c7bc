import OutputDescriptor.Bytes
import OutputDescriptor.BchCode

/-!
Bech32 texts: a human-readable part, the separator `1`, and five bit symbols of which the last six
are a checksum over both parts. Two variants differ only in the residue of their checksum.
-/

namespace OutputDescriptor.Bech32

inductive Variant
  | bech32
  | bech32m
deriving DecidableEq

def code : BchCode 6 where
  generators := [0x3b6a57b2, 0x26508e6d, 0x1ea119fa, 0x3d4233dd, 0x2a1462b3]

def Variant.residue : Variant → BitVec 30
  | bech32 => 1
  | bech32m => 0x2bc830a3

/-- The human-readable part as symbols: the high bits of its characters, a zero, the low bits. -/
def expand (readable : List Char) : List Symbol :=
  readable.map (fun c => BitVec.ofNat 5 (c.toNat / 32)) ++
    0 :: readable.map (fun c => BitVec.ofNat 5 c.toNat)

def encode (variant : Variant) (readable : List Char) (symbols : List Symbol) : List Char :=
  let checksum := code.checksum variant.residue (expand readable ++ symbols)
  readable ++ '1' :: (symbols ++ checksum).map Symbol.char

/-- The variant whose checksum the symbols carry. -/
def variant? (readable : List Char) (symbols : List Symbol) : Option Variant :=
  let remainder := code.remainder (expand readable ++ symbols)
  if remainder = Variant.bech32.residue then some .bech32
  else if remainder = Variant.bech32m.residue then some .bech32m
  else none

/-- Texts are written in one case throughout. -/
def isMixedCase (text : List Char) : Bool :=
  text.any Char.isUpper && text.any Char.isLower

/-- What stands before the last separator, and what stands behind it. -/
def split? (text : List Char) : Option (List Char × List Char) :=
  let behind := text.reverse.takeWhile (· != '1')
  if behind.length < text.length then
    some (text.take (text.length - 1 - behind.length), behind.reverse)
  else
    none

/-- The variant and the symbols before the checksum of a text with the given human-readable part. -/
def decode? (readable data : List Char) : Option (Variant × List Symbol) := do
  if isMixedCase (readable ++ data) then none
  let symbols ← (data.map Char.toLower).mapM Symbol.ofChar?
  if symbols.length < 6 then none
  let variant ← variant? (readable.map Char.toLower) symbols
  some (variant, symbols.take (symbols.length - 6))

/-- The symbols that hold the bytes, the last one filled up with zeros. -/
def symbolsOfBytes (bytes : Bytes) : List Symbol :=
  let width := (8 * bytes.length + 4) / 5
  let padded := Bytes.toNat bytes <<< (5 * width - 8 * bytes.length)
  (List.range width).map fun i => BitVec.ofNat 5 (padded >>> (5 * (width - 1 - i)))

/-- The bytes held by symbols, which may leave over fewer bits than a symbol, all of them zero. -/
def bytesOfSymbols? (symbols : List Symbol) : Option Bytes :=
  let n := symbols.foldl (fun n symbol => 32 * n + symbol.toNat) 0
  let rest := 5 * symbols.length % 8
  if rest < 5 ∧ n % (1 <<< rest) = 0 then
    some (Bytes.bigEndian (5 * symbols.length / 8) (n >>> rest))
  else
    none

end OutputDescriptor.Bech32
