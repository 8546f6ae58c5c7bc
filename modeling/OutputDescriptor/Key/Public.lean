import OutputDescriptor.Bytes
import OutputDescriptor.Key.Curve

/-!
Public keys as they are written in descriptors and scripts.

A point of the curve is told by its first coordinate and the parity of the second one. A literal
public key may also spell both coordinates. Readers admit points of the curve only.
-/

namespace OutputDescriptor

/-- A point in compressed form. -/
structure Point where
  odd : Bool
  x : Nat
  x_lt : x < Curve.fieldPrime
deriving DecidableEq

namespace Point

def toBytes (point : Point) : Bytes :=
  (if point.odd then 3 else 2) :: Bytes.bigEndian 32 point.x

/-- The second coordinate, if the curve has a point with this first one. -/
def y? (point : Point) : Option Nat :=
  (Curve.squareRoot? (Curve.cubic point.x)).map fun root =>
    if (root % 2 == 1) = point.odd then root else Curve.fieldPrime - root

def isOnCurve (point : Point) : Bool :=
  (Curve.squareRoot? (Curve.cubic point.x)).isSome

def ofJacobian (p : Curve.Jacobian) : Point :=
  ⟨p.affineY % 2 == 1, p.affineX, p.affineX_lt⟩

def toJacobian? (point : Point) : Option Curve.Jacobian :=
  point.y?.map (.ofAffine point.x)

def ofBytes? : Bytes → Option Point
  | [] => none
  | tag :: rest =>
    if h : Bytes.toNat rest < Curve.fieldPrime then
      let point : Point := ⟨tag == 3, Bytes.toNat rest, h⟩
      if rest.length = 32 ∧ (tag = 2 ∨ tag = 3) ∧ point.isOnCurve then some point else none
    else none

/-- The bytes of a point of the curve read back. -/
theorem ofBytes?_toBytes {point : Point} (h : point.isOnCurve = true) :
    ofBytes? point.toBytes = some point := by
  obtain ⟨odd, x, x_lt⟩ := point
  have read : Bytes.toNat (Bytes.bigEndian 32 x) = x :=
    Bytes.toNat_bigEndian_of_lt (Nat.lt_trans x_lt (by decide))
  cases odd <;> simp [ofBytes?, toBytes, read, x_lt, h]

end Point

inductive PublicKey
  | compressed (point : Point)
  | uncompressed (x y : Nat) (x_lt : x < Curve.fieldPrime) (y_lt : y < Curve.fieldPrime)
deriving DecidableEq

namespace PublicKey

def isCompressed : PublicKey → Bool
  | compressed _ => true
  | uncompressed .. => false

def toBytes : PublicKey → Bytes
  | compressed point => point.toBytes
  | uncompressed x y _ _ => 4 :: Bytes.bigEndian 32 x ++ Bytes.bigEndian 32 y

def isOnCurve : PublicKey → Bool
  | compressed point => point.isOnCurve
  | uncompressed x y _ _ => y * y % Curve.fieldPrime == Curve.cubic x

def uncompressedOfBytes? : Bytes → Option PublicKey
  | [] => none
  | tag :: rest =>
    let x := Bytes.toNat (rest.take 32)
    let y := Bytes.toNat (rest.drop 32)
    if h : x < Curve.fieldPrime ∧ y < Curve.fieldPrime then
      let key := uncompressed x y h.1 h.2
      if tag = 4 ∧ rest.length = 64 ∧ key.isOnCurve then some key else none
    else none

def ofBytes? (bytes : Bytes) : Option PublicKey :=
  if bytes.length = 65 then uncompressedOfBytes? bytes
  else (Point.ofBytes? bytes).map compressed

/-- The bytes of a public key on the curve read back. -/
theorem ofBytes?_toBytes {key : PublicKey} (h : key.isOnCurve = true) :
    ofBytes? key.toBytes = some key := by
  cases key with
  | compressed point =>
    have short : point.toBytes.length ≠ 65 := by simp [Point.toBytes]
    rw [toBytes, ofBytes?, if_neg short, Point.ofBytes?_toBytes h]
    rfl
  | uncompressed x y x_lt y_lt =>
    have readX : Bytes.toNat (Bytes.bigEndian 32 x) = x :=
      Bytes.toNat_bigEndian_of_lt (Nat.lt_trans x_lt (by decide))
    have readY : Bytes.toNat (Bytes.bigEndian 32 y) = y :=
      Bytes.toNat_bigEndian_of_lt (Nat.lt_trans y_lt (by decide))
    simp [toBytes, ofBytes?, uncompressedOfBytes?, readX, readY, x_lt, y_lt, h]

end PublicKey

end OutputDescriptor
