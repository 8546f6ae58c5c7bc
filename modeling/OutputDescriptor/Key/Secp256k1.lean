import OutputDescriptor.Key.Arithmetic

/-!
The key arithmetic in use: points of the curve, and children that are offset by a keyed hash.

Half of the hash is added to the parent as a scalar, the other half is the child's chain code. A
normal child hashes the parent's point, so both kinds of parents can derive it; a hardened child
hashes the secret.
-/

namespace OutputDescriptor.Secp256k1

open Curve (groupOrder)

def multiplyGenerator (scalar : Nat) : Curve.Jacobian :=
  Curve.generator.multiply 256 scalar

/-- The offset of a child, as a scalar other than zero, and its chain code. -/
def offset? (chainCode : ChainCode) (parentBytes : Bytes) (number : ChildNumber) :
    Option (SecretKey × ChainCode) := do
  let hash := Hash.hmacSha512 chainCode.val (parentBytes ++ Bytes.bigEndian 4 number.toNat)
  let scalar ← SecretKey.ofBytes? (hash.take 32)
  some (scalar, ⟨hash.drop 32, by simp [hash]⟩)

def publicKey (secret : SecretKey) : Point :=
  .ofJacobian (multiplyGenerator secret.value)

def childSecret? (secret : SecretKey) (chainCode : ChainCode) (number : ChildNumber) :
    Option (SecretKey × ChainCode) := do
  let parentBytes :=
    if number.hardened then 0 :: secret.toBytes else (publicKey secret).toBytes
  let (offset, chainCode) ← offset? chainCode parentBytes number
  let child ← SecretKey.ofNat? ((secret.value + offset.value) % groupOrder)
  some (child, chainCode)

def childPoint? (point : Point) (chainCode : ChainCode) (index : ChildIndex) :
    Option (Point × ChainCode) := do
  let (offset, chainCode) ← offset? chainCode point.toBytes ⟨index, false⟩
  let child := (← point.toJacobian?).add (multiplyGenerator offset.value)
  if child.z = 0 then none else some (.ofJacobian child, chainCode)

instance : KeyArithmetic where
  publicKey
  childSecret?
  childPoint?

end OutputDescriptor.Secp256k1
