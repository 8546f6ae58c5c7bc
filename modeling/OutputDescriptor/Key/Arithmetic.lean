import OutputDescriptor.Derivation.Step
import OutputDescriptor.Key.Extended

/-!
Deriving keys from keys.

Everything that depends on the group behind the keys is one interface: the public key of a secret,
and the children of a secret and of a point. What descriptors do with keys is defined over the
interface, and so holds for every arithmetic with the laws that the statement in question names.
-/

namespace OutputDescriptor

class KeyArithmetic where
  publicKey : SecretKey → Point
  /-- A child's secret and chain code; there is none for a few unlikely numbers. -/
  childSecret? : SecretKey → ChainCode → ChildNumber → Option (SecretKey × ChainCode)
  /-- A normal child's point and chain code. -/
  childPoint? : Point → ChainCode → ChildIndex → Option (Point × ChainCode)

/-- Tells the private key behind a public one, if it can. Its answers need not be right. -/
abbrev KeySource := Xpub → Option Xprv

/-- The record of a child, given the fingerprint of its parent. -/
def Extended.descend {K : Type} (parent : Extended K) (fp : Fingerprint) (number : ChildNumber)
    (key : K) (chainCode : ChainCode) : Extended K where
  network := parent.network
  depth := parent.depth + 1
  parent := fp
  number := number
  chainCode := chainCode
  key := key

variable [KeyArithmetic]

namespace Xprv

/-- The public counterpart of a private key. -/
def neuter (key : Xprv) : Xpub :=
  { key with key := KeyArithmetic.publicKey key.key }

def child? (key : Xprv) (number : ChildNumber) : Option Xprv := do
  let (secret, chainCode) ← KeyArithmetic.childSecret? key.key key.chainCode number
  some (key.descend (KeyArithmetic.publicKey key.key).fingerprint number secret chainCode)

/-- Whether a private key belongs to a public one, whatever else the two record. -/
def unlocks (key : Xprv) (locked : Xpub) : Bool :=
  KeyArithmetic.publicKey key.key == locked.key && key.chainCode == locked.chainCode

end Xprv

def Xpub.child? (key : Xpub) (index : ChildIndex) : Option Xpub := do
  let (point, chainCode) ← KeyArithmetic.childPoint? key.key key.chainCode index
  some (key.descend key.key.fingerprint ⟨index, false⟩ point chainCode)

/-- The private key that a source has for a public one, checked to belong to it. -/
def KeySource.unlock? (source : Option KeySource) (locked : Xpub) : Option Xprv := do
  ((← source) locked).filter (·.unlocks locked)

namespace ExtendedKey

def neuter : ExtendedKey → Xpub
  | xpub key => key
  | xprv key => key.neuter

/-- The child of an extended key. To derive a hardened child of a public key its private key has to
be found; the child is public again. -/
def child? (source : Option KeySource) (number : ChildNumber) : ExtendedKey → Option ExtendedKey
  | xprv key => (key.child? number).map xprv
  | xpub key =>
    if number.hardened then do
      let child ← (← KeySource.unlock? source key).child? number
      some (xpub child.neuter)
    else
      (key.child? number.index).map xpub

/-- The descendant at the end of a path. -/
def descendant? (choice : Option Nat) (source : Option KeySource) (key : ExtendedKey)
    (steps : List Step) : Option ExtendedKey :=
  steps.foldlM (fun key step => do key.child? source (← step.childNumber? choice)) key

end ExtendedKey

end OutputDescriptor
